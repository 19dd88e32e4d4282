/-
  LdPreload.Rtld.CleanLimits

  `clean_path_into` for arrays of any size.  Whatever the size is, a return of
  0 leaves the text that the cleaning without limits gives
  (`exists_string_of_ok`); the size only decides whether there is one.  There
  is one for every path that is shorter than the array, and for every path
  that spells names which fit.

  The text of a relative path is told by the course of the path: it goes down
  by the same names, behind one `..` if the path climbs an odd number of
  levels (`course_of_relative`).
-/

import LdPreload.Rtld.CleanText

namespace LdPreload

open CMem Lexical Cleaning

/-- `clean_path_into (src, dst, dst_len)` returns 0 and leaves the string `t`
    in `dst`. -/
def CleansTo (src : CString) (dst : CharArray) (dstLen : Nat) (t : CString) : Prop :=
  ∃ dst', cleanPathInto (some src) dst dstLen = .ok dst' ∧ dst'.string = .ok t

/-- Where segments lead from a start that is not known. -/
abbrev course (segs : List Segment) : Course Byte := Lexical.course [dot] [dot, dot] segs

/-- The levels that a relative path climbs above its start. -/
def climbs (path : CString) : Nat := (course (segments slash path.chars)).up

/-- The cleaning of a whole path, without limits. -/
def wholeCleaning (src : CString) : Cleaning :=
  (segments slash src.chars).foldl (step (isAbsolute src)) ⟨[], true⟩

/-! ## A return of 0 -/

/-- No array of one byte is enough. -/
theorem two_le_of_ok {src : CString} {dst dst' : CharArray} {dstLen : Nat}
    (hcap : dstLen ≤ dst.cap) (h : cleanPathInto (some src) dst dstLen = .ok dst') :
    2 ≤ dstLen := by
  by_contra hlt
  have hpos : 0 < dstLen := by
    by_contra hzero
    rw [cleanPathInto, if_pos (by omega)] at h
    exact absurd h (by simp)
  cases habs : isAbsolute src with
  | true =>
    -- the root takes one byte, and the terminator another
    rw [cleanPathInto, if_neg (by omega), habs, CleanState.start, if_pos rfl,
      if_pos (by omega)] at h
    exact absurd h (by exact fun h => by cases h)
  | false =>
    have hstart : CleanState.start (isAbsolute src) dst dstLen = .ok ⟨dst, [], 0⟩ := by
      rw [habs]
      rfl
    have hshows := Shows.of_start hcap hpos hstart
    have hloop := hshows.cleanLoop_agrees hcap (src.length + 1) src.chars (Nat.lt_succ_self _)
    rw [cleanPathInto_of_start hpos hstart] at h
    cases hc : (segments slash src.chars).foldlM (next (isAbsolute src) dstLen) ⟨[], true⟩ with
    | none =>
      rw [hc] at hloop
      rw [show CleanState.cleanLoop _ _ _ _ _ = .error .fail from hloop] at h
      exact absurd h (by exact fun h => by cases h)
    | some c =>
      -- with room for the terminator only, nothing has been written
      rw [hc] at hloop
      obtain ⟨st', hok, hshows'⟩ := hloop
      have hroom := hshows'.room
      have hempty : st'.nameEmpty (isAbsolute src) dstLen = .error .fail := by
        rw [CleanState.nameEmpty, if_pos (by omega), if_pos (by omega)]
      rw [hok] at h
      change (st'.nameEmpty (isAbsolute src) dstLen >>= fun st => st.terminate) = _ at h
      rw [hempty] at h
      exact absurd h (by exact fun h => by cases h)

theorem fits_of_foldlM {absolute : Bool} {dstLen : Nat} {segs : List Segment} {c c' : Cleaning}
    (h : segs.foldlM (next absolute dstLen) c = some c') (hc : c.Fits absolute dstLen) :
    c'.Fits absolute dstLen := by
  induction segs generalizing c with
  | nil => exact Option.some.inj h ▸ hc
  | cons seg segs ih =>
    rw [List.foldlM_cons] at h
    obtain ⟨c₁, hnext, hrest⟩ := Option.bind_eq_some_iff.mp h
    unfold next at hnext
    split at hnext
    · exact ih hrest (Option.some.inj hnext ▸ ‹_›)
    · exact absurd hnext (by simp)

/-- A cleaning that goes through leaves its text. -/
theorem exists_cleansTo {src : CString} {dst : CharArray} {dstLen : Nat} {c : Cleaning}
    (hcap : dstLen ≤ dst.cap) (htwo : 2 ≤ dstLen)
    (hc : cleaning (isAbsolute src) dstLen src.chars = some c) :
    ∃ t, CleansTo src dst dstLen t ∧ t.chars = c.text (isAbsolute src) ∧ t.length < dstLen := by
  have hspec := cleanPathInto_spec src dst hcap htwo
  rw [hc] at hspec
  obtain ⟨dst', hok, -, hbytes, hlen⟩ := hspec
  exact ⟨⟨c.text (isAbsolute src), nul_not_mem_text hc⟩, ⟨dst', hok, CharArray.string_spec hbytes⟩,
    rfl, hlen⟩

/-- A return of 0 leaves the text of the cleaning without limits. -/
theorem exists_string_of_ok {src : CString} {dst dst' : CharArray} {dstLen : Nat}
    (hcap : dstLen ≤ dst.cap) (h : cleanPathInto (some src) dst dstLen = .ok dst') :
    ∃ t, dst'.string = .ok t ∧ t.length < dstLen ∧
      t.chars = (wholeCleaning src).text (isAbsolute src) ∧
      (wholeCleaning src).Fits (isAbsolute src) dstLen := by
  have htwo := two_le_of_ok hcap h
  have hspec := cleanPathInto_spec src dst hcap htwo
  cases hc : cleaning (isAbsolute src) dstLen src.chars with
  | none =>
    rw [hc] at hspec
    rw [show cleanPathInto (some src) dst dstLen = .error .fail from hspec] at h
    exact absurd h (by simp)
  | some c =>
    obtain ⟨t, ⟨dst'', hok, hstring⟩, hchars, hlen⟩ := exists_cleansTo hcap htwo hc
    obtain rfl : dst' = dst'' := Except.ok.inj (h.symm.trans hok)
    have hwhole : c = wholeCleaning src := foldlM_next_eq hc
    have hstart : Cleaning.Fits (isAbsolute src) dstLen ⟨[], true⟩ := by
      refine ⟨?_, Nat.zero_le _⟩
      show (root (isAbsolute src)).length < dstLen
      cases isAbsolute src with
      | true => exact htwo
      | false => exact Nat.lt_of_lt_of_le Nat.zero_lt_two htwo
    rw [hwhole] at hchars
    exact ⟨t, hstring, hlen, hchars, hwhole ▸ fits_of_foldlM hc hstart⟩

theorem CleansTo.chars {src t : CString} {dst : CharArray} {dstLen : Nat}
    (h : CleansTo src dst dstLen t) (hcap : dstLen ≤ dst.cap) :
    t.chars = (wholeCleaning src).text (isAbsolute src) := by
  obtain ⟨dst', hok, hstring⟩ := h
  obtain ⟨t', hstring', -, hchars, -⟩ := exists_string_of_ok hcap hok
  obtain rfl : t = t' := Except.ok.inj (hstring.symm.trans hstring')
  exact hchars

/-! ## Absolute paths -/

/-- The text of an absolute path, in an array of any size. -/
theorem CleansTo.chars_absolute {src t : CString} {dst : CharArray} {dstLen : Nat}
    (h : CleansTo src dst dstLen t) (hcap : dstLen ≤ dst.cap) (habs : isAbsolute src = true) :
    t.chars = pathText (resolve src.chars) (leavesSlash src.chars) := by
  rw [h.chars hcap, wholeCleaning, habs]
  exact text_foldl_true src.chars

/-- What is cleaned has no more segments left than the loop can record. -/
theorem CleansTo.length_resolve_le {src t : CString} {dst : CharArray} {dstLen : Nat}
    (h : CleansTo src dst dstLen t) (hcap : dstLen ≤ dst.cap) (habs : isAbsolute src = true) :
    (resolve src.chars).length ≤ pathMax := by
  obtain ⟨dst', hok, -⟩ := h
  obtain ⟨-, -, -, -, -, hcount⟩ := exists_string_of_ok hcap hok
  have hwalk := (foldl_step_true (segments slash src.chars) (c := ⟨[], true⟩) fun _ => rfl).1
  rw [wholeCleaning, habs, ← List.length_reverse, hwalk] at hcount
  exact hcount

/-- A path leaves a separator behind when nothing of it is left, or when its
    last segment but for dots is a `..`. -/
theorem leavesSlash_iff (path : List Byte) :
    leavesSlash path = true ↔ resolve path = [] ∨
      ((segments slash path).filter (· ≠ [dot])).getLast? = some [dot, dot] := by
  have key : ∀ segs : List Segment, (segs.foldl (step true) ⟨[], true⟩).atSlash = true ↔
      (segs.foldl (step true) ⟨[], true⟩).stack = [] ∨
        (segs.filter (· ≠ [dot])).getLast? = some [dot, dot] := by
    intro segs
    -- the last segment decides, unless it is a dot
    induction segs using List.reverseRecOn with
    | nil => simp
    | append_singleton segs seg ih =>
      rw [List.foldl_append, List.foldl_cons, List.foldl_nil, List.filter_append, step]
      by_cases hdot : seg = [dot]
      · have htail : [seg].filter (· ≠ [dot]) = [] := by simp [hdot]
        rw [if_pos hdot, ih, htail, List.append_nil]
      · have htail : [seg].filter (· ≠ [dot]) = [seg] := by simp [hdot]
        rw [if_neg hdot, htail, List.getLast?_append_of_ne_nil _ (by simp), List.getLast?_singleton]
        by_cases hdots : seg = [dot, dot]
        · have hroot := (foldl_step_true segs (c := ⟨[], true⟩) fun _ => rfl).2
          rw [if_pos hdots]
          cases hstack : (segs.foldl (step true) ⟨[], true⟩).stack with
          | nil => simp [hdots, hroot hstack]
          | cons top below => simp [hdots]
        · simp [hdots]
  have hstack : (((segments slash path).foldl (step true) ⟨[], true⟩).stack = []) ↔
      resolve path = [] := by
    rw [← List.reverse_eq_nil_iff,
      (foldl_step_true (segments slash path) (c := ⟨[], true⟩) fun _ => rfl).1]
    rfl
  rw [leavesSlash, key, hstack]

/-! ## Names -/

/-- A stack takes no more bytes than a higher one. -/
theorem length_closed_le_append (absolute : Bool) (above stack : List Segment) :
    (closed absolute stack).length ≤ (closed absolute (above ++ stack)).length := by
  induction above with
  | nil => exact Nat.le_refl _
  | cons seg above ih =>
    have hopen := (closed_prefix_opened absolute (above ++ stack)).length_le
    rw [List.cons_append, closed_cons, List.length_append]
    omega

/-- Names go through when all of them fit in the end. -/
theorem foldlM_next_of_names {absolute atSlash : Bool} {dstLen : Nat} {segs : List Segment}
    {c : Cleaning} (hsegs : ∀ s ∈ segs, s ≠ [dot] ∧ s ≠ [dot, dot])
    (hfits : Cleaning.Fits absolute dstLen ⟨segs.reverse ++ c.stack, atSlash⟩) :
    segs.foldlM (next absolute dstLen) c = some (segs.foldl (step absolute) c) := by
  induction segs generalizing c with
  | nil => rfl
  | cons seg segs ih =>
    obtain ⟨hdot, hdots⟩ := hsegs seg (List.mem_cons_self ..)
    have hstep : c.step absolute seg = ⟨seg :: c.stack, false⟩ := by
      rw [step, if_neg hdot, if_neg hdots]
    rw [List.reverse_cons, List.append_assoc, List.singleton_append] at hfits
    have hnow : Cleaning.Fits absolute dstLen ⟨seg :: c.stack, false⟩ := by
      refine ⟨Nat.lt_of_le_of_lt (length_closed_le_append absolute segs.reverse _) hfits.1, ?_⟩
      have hcount := hfits.2
      rw [List.length_append] at hcount
      exact Nat.le_trans (Nat.le_add_left ..) hcount
    rw [List.foldlM_cons, next, hstep, if_pos hnow, List.foldl_cons, hstep]
    exact ih (fun s hs => hsegs s (List.mem_cons_of_mem _ hs)) hfits

/-! ## Relative paths -/

/-- On a relative path the stack holds what the path goes down by.  A `..` at
    its bottom stands for an odd number of levels: the next one takes it
    away. -/
theorem stack_foldl_false (segs : List Segment) :
    (segs.foldl (step false) ⟨[], true⟩).stack.reverse =
      (if (course segs).up % 2 = 1 then [[dot, dot]] else []) ++ (course segs).down := by
  unfold course Lexical.course
  induction segs using List.reverseRecOn with
  | nil => rfl
  | append_singleton segs seg ih =>
    rw [List.foldl_append, List.foldl_append, List.foldl_cons, List.foldl_nil, List.foldl_cons,
      List.foldl_nil, step, Course.step]
    generalize segs.foldl (step false) ⟨[], true⟩ = c at ih ⊢
    generalize segs.foldl (Course.step [dot] [dot, dot]) ⟨0, []⟩ = k at ih ⊢
    obtain ⟨stack, atSlash⟩ := c
    obtain ⟨up, down⟩ := k
    simp only at ih ⊢
    split
    · exact ih
    · split
      · next hdots =>
        -- a `..` pops the stack, or goes to its bottom
        cases stack with
        | nil =>
          obtain ⟨hup, hdown⟩ := List.append_eq_nil_iff.mp ih.symm
          have heven : ¬ up % 2 = 1 := fun hodd => by simp [hodd] at hup
          rw [if_pos hdown]
          show [seg] = (if (up + 1) % 2 = 1 then [[dot, dot]] else []) ++ []
          rw [if_pos (by omega), hdots]
          rfl
        | cons top below =>
          rw [List.reverse_cons] at ih
          by_cases hdown : down = []
          · have hodd : up % 2 = 1 := by
              by_contra heven
              rw [if_neg heven, hdown] at ih
              exact absurd ih (by simp)
            rw [if_pos hodd, hdown, List.append_nil] at ih
            have hone : below.reverse ++ [top] = [] ++ [[dot, dot]] := ih
            have hbelow : below.reverse = [] := List.append_inj_left' hone rfl
            rw [if_pos hdown]
            show below.reverse = (if (up + 1) % 2 = 1 then [[dot, dot]] else []) ++ []
            rw [if_neg (by omega), hbelow]
            rfl
          · rw [if_neg hdown]
            have hpop := congrArg List.dropLast ih
            rw [List.dropLast_concat, List.dropLast_append_of_ne_nil hdown] at hpop
            exact hpop
      · rw [List.reverse_cons, ih, List.append_assoc]

theorem segments_closed_false {stack : List Segment} (h : ∀ s ∈ stack, IsSegment slash s) :
    segments slash (closed false stack) = stack.reverse := by
  induction stack with
  | nil => exact segments_nil
  | cons seg below ih =>
    have hseg := h seg (List.mem_cons_self ..)
    rw [closed_cons, List.reverse_cons]
    by_cases hnil : below = []
    · subst hnil
      exact segments_of_isSegment hseg
    · rw [opened_of_ne_nil hnil, List.append_assoc, List.singleton_append, segments_append_sep,
        ih fun s hs => h s (List.mem_cons_of_mem _ hs), segments_of_isSegment hseg]

/-- The text of a relative path has the segments of the stack, or is `.`. -/
theorem segments_text_false {c : Cleaning} (h : ∀ s ∈ c.stack, IsSegment slash s) :
    segments slash (c.text false) = if c.stack = [] then [[dot]] else c.stack.reverse := by
  by_cases hnil : c.stack = []
  · have hshown : c.shown false = [] := by
      rw [shown, hnil]
      cases c.atSlash <;> rfl
    rw [Cleaning.text, if_pos hshown, if_pos hnil]
    exact segments_of_isSegment (by decide)
  · have hsegs : segments slash (c.shown false) = c.stack.reverse := by
      rw [shown]
      split
      · rw [opened_of_ne_nil hnil, segments_append_singleton, segments_closed_false h]
      · exact segments_closed_false h
    have hshown : c.shown false ≠ [] := by
      intro hempty
      rw [hempty, segments_nil] at hsegs
      exact hnil (List.reverse_eq_nil_iff.mp hsegs.symm)
    rw [Cleaning.text, if_neg hshown, if_neg hnil, hsegs]

/-- The cleaned text of a relative path takes the same names down, and of the
    levels up it keeps one if their number is odd, and none if it is even. -/
theorem course_of_relative {src t : CString} {dst : CharArray} {dstLen : Nat}
    (h : CleansTo src dst dstLen t) (hcap : dstLen ≤ dst.cap) (hrel : isAbsolute src = false) :
    course (segments slash t.chars) =
      ⟨(course (segments slash src.chars)).up % 2, (course (segments slash src.chars)).down⟩ := by
  have hstack := stack_foldl_false (segments slash src.chars)
  have hchars := h.chars hcap
  rw [wholeCleaning, hrel] at hchars
  have hsegs : ∀ s ∈ ((segments slash src.chars).foldl (step false) ⟨[], true⟩).stack,
      IsSegment slash s := by
    intro s hs
    rcases mem_stack_foldl hs with hs | hs
    · exact absurd hs List.not_mem_nil
    · exact isSegment_of_mem_segments hs
  have hnames : ∀ s ∈ (course (segments slash src.chars)).down, s ≠ [dot] ∧ s ≠ [dot, dot] :=
    fun s hs => (mem_down_course hs).2
  rw [hchars, segments_text_false hsegs]
  generalize course (segments slash src.chars) = k at hstack hnames ⊢
  obtain ⟨up, down⟩ := k
  simp only at hstack hnames ⊢
  split
  · next hnil =>
    rw [hnil, List.reverse_nil] at hstack
    obtain ⟨hup, rfl⟩ := List.append_eq_nil_iff.mp hstack.symm
    have heven : up % 2 = 0 := by
      by_contra hodd
      rw [if_pos (by omega)] at hup
      exact absurd hup (by simp)
    rw [heven]
    rfl
  · rw [hstack, course, Lexical.course]
    split
    · next hodd =>
      rw [List.singleton_append, List.foldl_cons, Course.foldl_step_of_names hnames, hodd]
      rfl
    · next heven =>
      have hzero : up % 2 = 0 := by omega
      rw [List.nil_append, Course.foldl_step_of_names hnames, hzero]
      rfl

end LdPreload
