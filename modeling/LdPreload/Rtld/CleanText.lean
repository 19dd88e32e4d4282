/-
  LdPreload.Rtld.CleanText

  Cleaned texts.  `cleaned` is the string that `clean_path_into` leaves in an
  array of `PATH_MAX` bytes.  For an absolute path it spells the lexical
  resolution of the path, with one more separator when the last segment to act
  was a `..` or nothing is left (`cleaned_absolute`).  Whether that separator
  is there depends on the spelling of the path only; `leavesSlash` computes it.
-/

import LdPreload.Rtld.CleanSound

namespace LdPreload

open CMem Lexical Cleaning

/-- Where a text leads from the root. -/
def resolve (path : List Byte) : List Segment := Lexical.resolve slash [dot] [dot, dot] path

/-- Where segments lead from a directory. -/
abbrev walk (dir segs : List Segment) : List Segment := Lexical.walk [dot] [dot, dot] dir segs

/-- A segment other than `.` and `..`. -/
abbrev IsName (s : Segment) : Prop := Lexical.IsName slash [dot] [dot, dot] s

/-- The cleaned text of an absolute path ends in `/`: nothing is left of the
    path, or its last segment but for dots is a `..` that removed one. -/
def leavesSlash (path : List Byte) : Bool :=
  ((segments slash path).foldl (step true) ⟨[], true⟩).atSlash

/-- A directory spelled out, with or without a separator behind it. -/
def pathText (dirs : List Segment) (atSlash : Bool) : List Byte :=
  spell slash dirs ++ if atSlash then [slash] else []

/-- The string that `clean_path_into (src, dst, PATH_MAX)` leaves in `dst`. -/
def cleaned (src : CString) : Option CString :=
  (cleanPathInto (some src) (CharArray.uninit pathMax) pathMax >>= CharArray.string).toOption

/-! ## Cleaning without limits -/

theorem isAbsolute_iff {path : CString} :
    isAbsolute path = true ↔ ∃ rest, path.chars = slash :: rest := by
  obtain ⟨chars, hnul⟩ := path
  cases chars with
  | nil => simp [isAbsolute, CString.charAt, slash, nul]
  | cons b rest => simp [isAbsolute, CString.charAt]

theorem foldlM_next_eq {absolute : Bool} {dstLen : Nat} {segs : List Segment} {c c' : Cleaning}
    (h : segs.foldlM (next absolute dstLen) c = some c') : c' = segs.foldl (step absolute) c := by
  induction segs generalizing c with
  | nil => exact (Option.some.inj h).symm
  | cons seg segs ih =>
    rw [List.foldlM_cons] at h
    obtain ⟨c₁, hnext, hrest⟩ := Option.bind_eq_some_iff.mp h
    unfold next at hnext
    split at hnext
    · rw [List.foldl_cons, Option.some.inj hnext]
      exact ih hrest
    · exact absurd hnext (by simp)

theorem mem_stack_foldl {absolute : Bool} {segs : List Segment} {c : Cleaning} {s : Segment}
    (h : s ∈ (segs.foldl (step absolute) c).stack) : s ∈ c.stack ∨ s ∈ segs := by
  induction segs generalizing c with
  | nil => exact Or.inl h
  | cons seg segs ih =>
    rcases ih h with h | h
    · have hstep : s ∈ c.stack ∨ s = seg := by
        unfold step at h
        split at h
        · exact Or.inl h
        · split at h
          · obtain ⟨stack, atSlash⟩ := c
            cases stack with
            | cons top below => exact Or.inl (List.mem_cons_of_mem _ h)
            | nil => cases absolute <;> simp_all
          · rcases List.mem_cons.mp h with h | h
            · exact Or.inr h
            · exact Or.inl h
      rcases hstep with h | rfl
      · exact Or.inl h
      · exact Or.inr (List.mem_cons_self ..)
    · exact Or.inr (List.mem_cons_of_mem _ h)

theorem mem_opened {absolute : Bool} {stack : List Segment} {b : Byte} :
    b ∈ opened absolute stack → b = slash ∨ ∃ s ∈ stack, b ∈ s := by
  induction stack with
  | nil =>
    intro h
    cases absolute <;> simp_all [root]
  | cons seg below ih =>
    intro h
    rw [opened_of_ne_nil (List.cons_ne_nil seg below), closed_cons, List.append_assoc,
      List.mem_append, List.mem_append, List.mem_singleton] at h
    rcases h with h | h | h
    · rcases ih h with h | ⟨s, hs, hb⟩
      · exact Or.inl h
      · exact Or.inr ⟨s, List.mem_cons_of_mem _ hs, hb⟩
    · exact Or.inr ⟨seg, List.mem_cons_self .., h⟩
    · exact Or.inl h

theorem nul_not_mem_text {absolute : Bool} {dstLen : Nat} {src : CString} {c : Cleaning}
    (h : cleaning absolute dstLen src.chars = some c) : nul ∉ c.text absolute := by
  intro hmem
  have hshown : nul ∈ c.shown absolute := by
    unfold Cleaning.text at hmem
    split at hmem
    · exact absurd (List.mem_singleton.mp hmem) (by decide)
    · exact hmem
  -- a NUL in the text would be one in a kept segment
  have hopen : nul ∈ opened absolute c.stack := by
    unfold shown at hshown
    split at hshown
    · exact hshown
    · exact (closed_prefix_opened absolute c.stack).subset hshown
  rcases mem_opened hopen with h0 | ⟨s, hs, hb⟩
  · exact absurd h0 (by decide)
  · rw [foldlM_next_eq h] at hs
    rcases mem_stack_foldl hs with hs | hs
    · exact absurd hs (List.not_mem_nil)
    · exact src.noNul (subset_of_mem_segments hs hb)

/-! ## The string left behind -/

theorem cleaned_spec (src : CString) :
    match cleaning (isAbsolute src) pathMax src.chars with
    | some c => ∃ t, cleaned src = some t ∧ t.chars = c.text (isAbsolute src) ∧ t.length < pathMax
    | none => cleaned src = none := by
  have hspec := cleanPathInto_spec src (CharArray.uninit pathMax) (Nat.le_refl pathMax)
    (by decide)
  cases hc : cleaning (isAbsolute src) pathMax src.chars with
  | none =>
    rw [hc] at hspec
    show cleaned src = none
    rw [cleaned, show cleanPathInto (some src) _ _ = .error .fail from hspec]
    rfl
  | some c =>
    rw [hc] at hspec
    obtain ⟨dst', hok, -, hbytes, hlen⟩ := hspec
    refine ⟨⟨c.text (isAbsolute src), nul_not_mem_text hc⟩, ?_, rfl, hlen⟩
    rw [cleaned, hok]
    show (dst'.string).toOption = _
    rw [CharArray.string_spec (s := ⟨c.text (isAbsolute src), nul_not_mem_text hc⟩) hbytes]
    rfl

/-- Into any array of `PATH_MAX` bytes, whatever it holds, `clean_path_into`
    writes the same string, or returns -1 in the same cases. -/
theorem cleanPathInto_pathMax (src : CString) (dst : CharArray) (hcap : dst.cap = pathMax) :
    match cleaned src with
    | some t => ∃ dst', cleanPathInto (some src) dst pathMax = .ok dst' ∧ dst'.cap = pathMax ∧
        dst'.string = .ok t
    | none => cleanPathInto (some src) dst pathMax = .error .fail := by
  have hspec := cleanPathInto_spec src dst (Nat.le_of_eq hcap.symm) (by decide)
  have hclean := cleaned_spec src
  cases hc : cleaning (isAbsolute src) pathMax src.chars with
  | none =>
    rw [hc] at hspec hclean
    rw [show cleaned src = none from hclean]
    exact hspec
  | some c =>
    rw [hc] at hspec hclean
    obtain ⟨t, ht, hchars, -⟩ := hclean
    obtain ⟨dst', hok, hcap', hbytes, -⟩ := hspec
    rw [ht]
    exact ⟨dst', hok, hcap'.trans hcap, CharArray.string_spec (hchars ▸ hbytes)⟩

/-! ## Absolute paths -/

theorem opened_true (stack : List Segment) :
    opened true stack = spell slash stack.reverse ++ [slash] := by
  induction stack with
  | nil => rfl
  | cons seg below ih =>
    rw [opened_of_ne_nil (List.cons_ne_nil seg below), closed_cons, ih, List.reverse_cons,
      spell_append]
    simp

theorem shown_true {c : Cleaning} (h : c.stack = [] → c.atSlash = true) :
    c.shown true = pathText c.stack.reverse c.atSlash := by
  unfold shown pathText
  cases hslash : c.atSlash with
  | true => exact opened_true c.stack
  | false =>
    cases hstack : c.stack with
    | nil =>
      rw [h hstack] at hslash
      exact absurd hslash (by decide)
    | cons seg below =>
      simp [closed_cons, opened_true, spell_append]

/-- On an absolute path the stack follows the lexical walk, and an empty stack
    stands behind the root's separator. -/
theorem foldl_step_true (segs : List Segment) {c : Cleaning}
    (h : c.stack = [] → c.atSlash = true) :
    (segs.foldl (step true) c).stack.reverse = walk c.stack.reverse segs ∧
      ((segs.foldl (step true) c).stack = [] → (segs.foldl (step true) c).atSlash = true) := by
  induction segs generalizing c with
  | nil => exact ⟨rfl, h⟩
  | cons seg segs ih =>
    -- one segment: `.` keeps the stack, `..` pops it, a name goes on top
    have hstep : (c.step true seg).stack.reverse = walkStep [dot] [dot, dot] c.stack.reverse seg ∧
        ((c.step true seg).stack = [] → (c.step true seg).atSlash = true) := by
      unfold step walkStep
      split
      · exact ⟨rfl, h⟩
      · split
        · obtain ⟨stack, atSlash⟩ := c
          cases stack with
          | cons top below => simp
          | nil => exact ⟨rfl, h⟩
        · simp
    obtain ⟨hwalk, hroot⟩ := ih hstep.2
    rw [List.foldl_cons]
    refine ⟨?_, hroot⟩
    rw [hwalk, hstep.1]
    rfl

/-- Without limits, the text of an absolute path spells its resolution. -/
theorem text_foldl_true (path : List Byte) :
    Cleaning.text true ((segments slash path).foldl (step true) ⟨[], true⟩) =
      pathText (resolve path) (leavesSlash path) := by
  obtain ⟨hwalk, hroot⟩ := foldl_step_true (segments slash path) (c := ⟨[], true⟩) (fun _ => rfl)
  have hshown := shown_true hroot
  have hne : Cleaning.shown true ((segments slash path).foldl (step true) ⟨[], true⟩) ≠ [] := by
    rw [hshown, pathText]
    cases hstack : ((segments slash path).foldl (step true) ⟨[], true⟩).stack with
    | nil => simp [hroot hstack]
    | cons seg below => simp [spell_append]
  rw [Cleaning.text, if_neg hne, hshown, hwalk, leavesSlash]
  rfl

/-- The cleaned text of an absolute path. -/
theorem cleaned_absolute {src t : CString} (habs : isAbsolute src = true)
    (h : cleaned src = some t) :
    t.chars = pathText (resolve src.chars) (leavesSlash src.chars) ∧ t.length < pathMax := by
  have hspec := cleaned_spec src
  rw [habs] at hspec
  cases hc : cleaning true pathMax src.chars with
  | none =>
    rw [hc] at hspec
    rw [show cleaned src = none from hspec] at h
    exact absurd h (by simp)
  | some c =>
    rw [hc] at hspec
    obtain ⟨t', ht', hchars, hlen⟩ := hspec
    obtain rfl : t = t' := Option.some.inj (h.symm.trans ht')
    refine ⟨?_, hlen⟩
    rw [hchars, foldlM_next_eq hc]
    exact text_foldl_true src.chars

theorem isName_of_mem_resolve {path : List Byte} :
    ∀ s ∈ resolve path, IsName s := Lexical.isName_of_mem_resolve path

/-- Without anything left, the text ends behind the root's separator. -/
theorem leavesSlash_of_resolve_nil {path : List Byte} (h : resolve path = []) :
    leavesSlash path = true := by
  obtain ⟨hwalk, hroot⟩ := foldl_step_true (segments slash path)
    (c := ⟨[], true⟩) (fun _ => rfl)
  rw [List.reverse_nil, show walk [] (segments slash path) = [] from h,
    List.reverse_eq_nil_iff] at hwalk
  exact hroot hwalk

/-! ## Cleaning succeeds -/

theorem length_stack_le (absolute : Bool) {stack : List Segment} (h : ∀ s ∈ stack, s ≠ []) :
    stack.length ≤ (closed absolute stack).length := by
  induction stack with
  | nil => exact Nat.zero_le _
  | cons seg below ih =>
    have hbelow := ih fun s hs => h s (List.mem_cons_of_mem _ hs)
    have hopen := (closed_prefix_opened absolute below).length_le
    have hpos := List.length_pos_of_ne_nil (h seg (List.mem_cons_self ..))
    rw [closed_cons, List.length_append, List.length_cons]
    omega

/-- A cleaning that has room for everything that is left goes through. -/
theorem foldlM_next_of_room {absolute : Bool} {dstLen : Nat} (hmax : dstLen ≤ pathMax)
    {segs : List Segment} {c : Cleaning} (hsegs : ∀ s ∈ segs, s ≠ [])
    (hstack : ∀ s ∈ c.stack, s ≠ []) (hfits : c.Fits absolute dstLen)
    (hroom : (opened absolute c.stack).length + (segs.map (·.length + 1)).sum ≤ dstLen) :
    segs.foldlM (next absolute dstLen) c = some (segs.foldl (step absolute) c) := by
  induction segs generalizing c with
  | nil => rfl
  | cons seg segs ih =>
    rw [List.map_cons, List.sum_cons] at hroom
    -- a push takes the bytes of the segment and one separator
    have hpush : Cleaning.Fits absolute dstLen ⟨seg :: c.stack, false⟩ ∧
        (opened absolute (seg :: c.stack)).length =
          (opened absolute c.stack).length + (seg.length + 1) := by
      have hlen : (closed absolute (seg :: c.stack)).length < dstLen := by
        rw [closed_cons, List.length_append]
        omega
      have hne : ∀ s ∈ seg :: c.stack, s ≠ [] := by
        intro s hs
        rcases List.mem_cons.mp hs with rfl | hs
        · exact hsegs s (List.mem_cons_self ..)
        · exact hstack s hs
      have hcount := length_stack_le absolute hne
      refine ⟨⟨hlen, by show (seg :: c.stack).length ≤ pathMax; omega⟩, ?_⟩
      rw [opened_of_ne_nil (List.cons_ne_nil seg c.stack), closed_cons, List.length_append,
        List.length_append, List.length_singleton, Nat.add_assoc]
    -- so does every step at most, and a pop gives bytes back
    have hstep : (c.step absolute seg).Fits absolute dstLen ∧
        (∀ s ∈ (c.step absolute seg).stack, s ≠ []) ∧
        (opened absolute (c.step absolute seg).stack).length ≤
          (opened absolute c.stack).length + (seg.length + 1) := by
      unfold step
      split
      · exact ⟨hfits, hstack, by omega⟩
      · split
        · obtain ⟨stack, atSlash⟩ := c
          cases stack with
          | cons top below =>
            have hle := (closed_prefix_opened absolute below).length_le
            have hopen : (opened absolute below).length ≤
                (closed absolute (top :: below)).length := by
              rw [closed_cons, List.length_append]
              omega
            have hopen' := (closed_prefix_opened absolute (top :: below)).length_le
            have hlt : (closed absolute (top :: below)).length < dstLen := hfits.1
            have hcount : below.length + 1 ≤ pathMax := hfits.2
            refine ⟨⟨?_, ?_⟩, fun s hs => hstack s (List.mem_cons_of_mem _ hs), ?_⟩
            · show (closed absolute below).length < dstLen
              omega
            · show below.length ≤ pathMax
              omega
            · show (opened absolute below).length ≤
                (opened absolute (top :: below)).length + (seg.length + 1)
              omega
          | nil =>
            cases absolute with
            | true => exact ⟨hfits, hstack, by simp⟩
            | false =>
              refine ⟨hpush.1, ?_, Nat.le_of_eq hpush.2⟩
              intro s hs
              rw [show s = seg from List.mem_singleton.mp hs]
              exact hsegs seg (List.mem_cons_self ..)
        · refine ⟨hpush.1, ?_, Nat.le_of_eq hpush.2⟩
          intro s hs
          rcases List.mem_cons.mp hs with rfl | hs
          · exact hsegs s (List.mem_cons_self ..)
          · exact hstack s hs
    obtain ⟨hfits', hstack', hopen'⟩ := hstep
    rw [List.foldlM_cons, next, if_pos hfits', List.foldl_cons]
    exact ih (fun s hs => hsegs s (List.mem_cons_of_mem _ hs)) hstack' hfits' (by omega)

/-- A path shorter than the array is cleaned without a limit in the way. -/
theorem cleaning_of_short {src : CString} {dstLen : Nat} (h : src.length < dstLen)
    (hmax : dstLen ≤ pathMax) :
    cleaning (isAbsolute src) dstLen src.chars =
      some ((segments slash src.chars).foldl (step (isAbsolute src)) ⟨[], true⟩) := by
  -- the root and the segments with their separators take no more than the path
  have hroom : (opened (isAbsolute src) []).length +
      ((segments slash src.chars).map (·.length + 1)).sum ≤ src.length + 1 := by
    rw [CString.length_def]
    cases habs : isAbsolute src with
    | true =>
      obtain ⟨rest, hrest⟩ := isAbsolute_iff.mp habs
      have hle := sum_segments_le slash rest
      rw [hrest, segments_cons_sep, opened_nil, root, if_pos rfl, List.length_singleton,
        List.length_cons]
      omega
    | false =>
      have hle := sum_segments_le slash src.chars
      rw [opened_nil, root, if_neg (by decide), List.length_nil]
      omega
  have hfits : Cleaning.Fits (isAbsolute src) dstLen ⟨[], true⟩ := by
    refine ⟨?_, Nat.zero_le _⟩
    rw [opened_nil] at hroom
    show (root (isAbsolute src)).length < dstLen
    cases habs : isAbsolute src with
    | true =>
      obtain ⟨rest, hrest⟩ := isAbsolute_iff.mp habs
      rw [CString.length_def, hrest, List.length_cons] at h
      show 1 < dstLen
      omega
    | false => exact Nat.zero_lt_of_lt h
  exact foldlM_next_of_room hmax (fun s hs => (isSegment_of_mem_segments hs).1) (by simp) hfits
    (Nat.le_trans hroom h)

/-- A path shorter than the array is always cleaned. -/
theorem cleaned_of_short {src : CString} (h : src.length < pathMax) :
    ∃ t, cleaned src = some t := by
  have hspec := cleaned_spec src
  rw [cleaning_of_short h (Nat.le_refl _)] at hspec
  obtain ⟨t, ht, -⟩ := hspec
  exact ⟨t, ht⟩

theorem head?_opened_false {stack : List Segment} (h : ∀ s ∈ stack, IsSegment slash s) :
    (opened false stack).head? ≠ some slash := by
  induction stack with
  | nil => simp [root]
  | cons seg below ih =>
    have hbelow := ih fun s hs => h s (List.mem_cons_of_mem _ hs)
    have hseg := h seg (List.mem_cons_self ..)
    obtain ⟨b, rest, rfl⟩ := List.exists_cons_of_ne_nil hseg.1
    have hb : b ≠ slash := fun hEq => hseg.2 (by simp [hEq])
    rw [opened_of_ne_nil (List.cons_ne_nil _ below), closed_cons, List.append_assoc,
      List.head?_append]
    cases hhead : (opened false below).head? with
    | none => simpa using hb
    | some x => simpa [hhead] using hbelow

/-- Without a `/` in front, the cleaned text has none in front either. -/
theorem cleaned_relative {src t : CString} (hrel : isAbsolute src = false)
    (h : cleaned src = some t) : isAbsolute t = false := by
  have hspec := cleaned_spec src
  rw [hrel] at hspec
  cases hc : cleaning false pathMax src.chars with
  | none =>
    rw [hc] at hspec
    rw [show cleaned src = none from hspec] at h
    exact absurd h (by simp)
  | some c =>
    rw [hc] at hspec
    obtain ⟨t', ht', hchars, -⟩ := hspec
    obtain rfl : t = t' := Option.some.inj (h.symm.trans ht')
    -- the text starts with the first byte of a segment, or with `.`
    have hopen : (opened false c.stack).head? ≠ some slash := by
      apply head?_opened_false
      intro s hs
      rw [foldlM_next_eq hc] at hs
      rcases mem_stack_foldl hs with hs | hs
      · exact absurd hs List.not_mem_nil
      · exact isSegment_of_mem_segments hs
    by_contra habs
    obtain ⟨rest, hrest⟩ := isAbsolute_iff.mp (Bool.of_not_eq_false habs)
    rw [hchars, Cleaning.text] at hrest
    split at hrest
    · exact absurd (List.head_eq_of_cons_eq hrest) (by decide)
    · apply hopen
      have hshown : c.shown false <+: opened false c.stack := by
        unfold shown
        split
        · exact List.prefix_refl _
        · exact closed_prefix_opened false c.stack
      rw [hrest] at hshown
      obtain ⟨tail, htail⟩ := hshown
      rw [← htail]
      rfl

/-! ## Cleaned texts again -/

/-- Names spelled out are their own resolution. -/
theorem resolve_pathText {dirs : List Segment} (h : ∀ s ∈ dirs, IsName s) (atSlash : Bool) :
    resolve (pathText dirs atSlash) = dirs := by
  unfold resolve pathText
  cases atSlash with
  | true => exact resolve_spell_append h (Or.inr rfl)
  | false => exact resolve_spell_append h (Or.inl rfl)

theorem segments_pathText {dirs : List Segment} (h : ∀ s ∈ dirs, IsName s) (atSlash : Bool) :
    segments slash (pathText dirs atSlash) = dirs := by
  unfold pathText
  cases atSlash with
  | true => rw [if_pos rfl, segments_append_singleton, segments_spell fun s hs => (h s hs).1]
  | false => rw [if_neg (by decide), List.append_nil, segments_spell fun s hs => (h s hs).1]

theorem exists_pathText_eq_cons {dirs : List Segment} {atSlash : Bool}
    (h : dirs = [] → atSlash = true) : ∃ rest, pathText dirs atSlash = slash :: rest := by
  cases dirs with
  | nil => exact ⟨[], by rw [pathText, h rfl]; rfl⟩
  | cons s dirs => exact ⟨_, rfl⟩

theorem length_pathText (dirs : List Segment) (atSlash : Bool) :
    (pathText dirs atSlash).length =
      (dirs.map (·.length + 1)).sum + if atSlash then 1 else 0 := by
  unfold pathText
  rw [List.length_append, length_spell]
  cases atSlash <;> rfl

/-- What an absolute path leads to takes no more bytes than the path. -/
theorem sum_resolve_le {path : CString} (h : isAbsolute path = true) :
    ((resolve path.chars).map (·.length + 1)).sum ≤ path.length := by
  obtain ⟨rest, hrest⟩ := isAbsolute_iff.mp h
  have hwalk : ((resolve path.chars).map (·.length + 1)).sum ≤
      _ + ((segments slash path.chars).map (·.length + 1)).sum := sum_walk_le [] _
  have hsegs := sum_segments_le slash rest
  rw [CString.length_def]
  rw [hrest, segments_cons_sep] at hwalk
  rw [hrest, List.length_cons]
  simp only [List.map_nil, List.sum_nil] at hwalk
  omega

/-- Segments without `..` close the text, unless all of them are dots. -/
theorem atSlash_foldl_of_not_parent {segs : List Segment} (h : [dot, dot] ∉ segs) (c : Cleaning) :
    (segs.foldl (step true) c).atSlash = (c.atSlash && decide (segs.filter (· ≠ [dot]) = [])) := by
  induction segs generalizing c with
  | nil => simp
  | cons seg segs ih =>
    rw [List.mem_cons, not_or] at h
    rw [List.foldl_cons, ih h.2, step, if_neg (Ne.symm h.1)]
    by_cases hdot : seg = [dot]
    · simp [hdot]
    · simp [hdot]

/-- Behind a path, a relative path without `..` keeps what the path ends in
    when it goes nowhere, and ends in a segment otherwise. -/
theorem leavesSlash_append_sep (a : List Byte) {b : List Byte} (h : [dot, dot] ∉ segments slash b) :
    leavesSlash (a ++ slash :: b) =
      (leavesSlash a && decide ((segments slash b).filter (· ≠ [dot]) = [])) := by
  rw [leavesSlash, segments_append_sep, List.foldl_append, atSlash_foldl_of_not_parent h]
  rfl

/-- A separator behind names does not survive cleaning, but for the root's. -/
theorem leavesSlash_of_names {path : List Byte} (h : ∀ s ∈ segments slash path, IsName s) :
    leavesSlash path = decide (segments slash path = []) := by
  have hfilter : (segments slash path).filter (· ≠ [dot]) = segments slash path :=
    List.filter_eq_self.mpr fun s hs => decide_eq_true (h s hs).2.1
  rw [leavesSlash, atSlash_foldl_of_not_parent fun hmem => (h _ hmem).2.2 rfl, Bool.true_and,
    hfilter]

/-- A text whose segments are names resolves to its segments. -/
theorem resolve_of_names {path : List Byte} (h : ∀ s ∈ segments slash path, IsName s) :
    resolve path = segments slash path := by
  rw [resolve, Lexical.resolve, walk_of_names fun s hs => (h s hs).2, List.nil_append]

/-- Spelled names, with a separator behind them only when there are none, are
    the text that they are cleaned to. -/
theorem pathText_of_names {path : CString} {dirs : List Segment} (hnames : ∀ s ∈ dirs, IsName s)
    (hchars : path.chars = pathText dirs (decide (dirs = []))) :
    isAbsolute path = true ∧
      pathText (resolve path.chars) (leavesSlash path.chars) = path.chars := by
  have hsegs : segments slash path.chars = dirs := by
    rw [hchars, segments_pathText hnames]
  have hroot : dirs = [] → decide (dirs = []) = true := decide_eq_true
  refine ⟨?_, ?_⟩
  · obtain ⟨rest, hrest⟩ := exists_pathText_eq_cons hroot
    exact isAbsolute_iff.mpr ⟨rest, hchars.trans hrest⟩
  · rw [leavesSlash_of_names (by rw [hsegs]; exact hnames), hsegs, hchars,
      resolve_pathText hnames]

theorem cleaned_of_names {path : CString} {dirs : List Segment} (hnames : ∀ s ∈ dirs, IsName s)
    (hchars : path.chars = pathText dirs (decide (dirs = []))) (hshort : path.length < pathMax) :
    cleaned path = some path := by
  obtain ⟨habs, htext⟩ := pathText_of_names hnames hchars
  obtain ⟨t, ht⟩ := cleaned_of_short hshort
  rw [ht, Option.some.injEq]
  exact CString.ext ((cleaned_absolute habs ht).1.trans htext)

end LdPreload
