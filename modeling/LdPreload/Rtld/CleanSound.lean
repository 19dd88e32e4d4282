/-
  LdPreload.Rtld.CleanSound

  What `clean_path_into` computes.  `Cleaning` is the loop without its memory:
  the stack of segments kept so far and whether the text ends behind a
  separator that a `..` has left.  `Shows` ties it to the locals of the C
  function: the bytes of the array, the recorded offsets and `out` are all
  determined by the stack.  One round of the loop keeps the tie or returns -1
  exactly when the new segment does not fit (`cleanSegment_agrees`), and the
  whole function follows by induction on the rounds (`cleanPathInto_spec`).
-/

import LdPreload.Path.Resolve
import LdPreload.Rtld.Clean

namespace LdPreload

open CMem Lexical

abbrev Segment := List Byte

/-- The kept segments, innermost first; `atSlash` tells that the last one to
    act on them was a `..`. -/
structure Cleaning where
  stack : List Segment
  atSlash : Bool

namespace Cleaning

variable {absolute : Bool} {dstLen : Nat}

/-- One segment, without any limit on the length. -/
def step (absolute : Bool) (c : Cleaning) (seg : Segment) : Cleaning :=
  if seg = [dot] then c
  else if seg = [dot, dot] then
    match c.stack with
    | _ :: below => ⟨below, true⟩
    | [] => if absolute then c else ⟨[seg], false⟩
  else ⟨seg :: c.stack, false⟩

def root (absolute : Bool) : List Byte := if absolute then [slash] else []

/-- The text of a stack, without a separator behind it. -/
def closed (absolute : Bool) : List Segment → List Byte
  | [] => root absolute
  | seg :: below => (if below = [] then root absolute else closed absolute below ++ [slash]) ++ seg

/-- The text of a stack, ready for one more segment. -/
def opened (absolute : Bool) (stack : List Segment) : List Byte :=
  if stack = [] then root absolute else closed absolute stack ++ [slash]

def shown (absolute : Bool) (c : Cleaning) : List Byte :=
  if c.atSlash then opened absolute c.stack else closed absolute c.stack

/-- The offsets at which the segments of a stack start. -/
def starts (absolute : Bool) : List Segment → List Nat
  | [] => []
  | _ :: below => (opened absolute below).length :: starts absolute below

def Fits (absolute : Bool) (dstLen : Nat) (c : Cleaning) : Prop :=
  (closed absolute c.stack).length < dstLen ∧ c.stack.length ≤ pathMax

instance (c : Cleaning) : Decidable (c.Fits absolute dstLen) :=
  inferInstanceAs (Decidable (_ ∧ _))

/-- One segment, as far as it fits. -/
def next (absolute : Bool) (dstLen : Nat) (c : Cleaning) (seg : Segment) : Option Cleaning :=
  if (c.step absolute seg).Fits absolute dstLen then some (c.step absolute seg) else none

@[simp] theorem opened_nil : opened absolute [] = root absolute := rfl

@[simp] theorem closed_nil : closed absolute [] = root absolute := rfl

theorem closed_cons (seg : Segment) (below : List Segment) :
    closed absolute (seg :: below) = opened absolute below ++ seg := rfl

theorem opened_of_ne_nil {stack : List Segment} (h : stack ≠ []) :
    opened absolute stack = closed absolute stack ++ [slash] := if_neg h

theorem closed_prefix_opened (absolute : Bool) (stack : List Segment) :
    closed absolute stack <+: opened absolute stack := by
  unfold opened
  split
  · subst stack
    exact List.prefix_refl _
  · exact List.prefix_append _ _

theorem closed_prefix_shown (c : Cleaning) : closed absolute c.stack <+: c.shown absolute := by
  unfold shown
  split
  · exact closed_prefix_opened absolute c.stack
  · exact List.prefix_refl _

theorem length_starts (stack : List Segment) : (starts absolute stack).length = stack.length := by
  induction stack with
  | nil => rfl
  | cons seg below ih => simp [starts, ih]

end Cleaning

/-! ## The scan -/

/-- The scan at the head of the outer loop: the next segment, and the text
    behind it. -/
def scan (src : List Byte) : Option (Segment × List Byte) :=
  match src.dropWhile (· == slash) with
  | [] => none
  | c :: rest => some ((c :: rest).takeWhile (· ≠ slash), (c :: rest).dropWhile (· ≠ slash))

theorem segments_of_scan_none {src : List Byte} (h : scan src = none) :
    segments slash src = [] := by
  unfold scan at h
  rw [← segments_dropWhile_sep]
  split at h
  · next hsrc => rw [hsrc, segments_nil]
  · exact absurd h (by simp)

/-- A scan finds the first segment, and goes on with the others. -/
theorem scan_spec {src rest : List Byte} {seg : Segment} (h : scan src = some (seg, rest)) :
    IsSegment slash seg ∧ rest.length < src.length ∧
      segments slash src = seg :: segments slash rest := by
  have hdrop := (List.dropWhile_sublist (· == slash) (l := src)).length_le
  unfold scan at h
  rw [← segments_dropWhile_sep]
  split at h
  · exact absurd h (by simp)
  · next c tail hsrc =>
    have hc : c ≠ slash := by
      have := List.head_dropWhile_not (· == slash) (l := src) (by simp [hsrc])
      simpa [hsrc] using this
    obtain ⟨rfl, rfl⟩ := Prod.mk.inj (Option.some.inj h)
    refine ⟨isSegment_takeWhile hc tail, ?_, by rw [hsrc, segments_scan hc]⟩
    -- at least the byte that the scan stands on is taken off
    have hrest := (List.dropWhile_sublist (· ≠ slash) (l := tail)).length_le
    rw [hsrc, List.length_cons] at hdrop
    rw [List.dropWhile_cons_of_pos (by simp [hc])]
    omega

theorem cleanLoop_succ (absolute : Bool) (dstLen fuel : Nat) (src : List Byte) (st : CleanState) :
    st.cleanLoop absolute dstLen (fuel + 1) src =
      match scan src with
      | none => .ok st
      | some (seg, rest) => st.cleanSegment absolute dstLen seg >>= fun st =>
          st.cleanLoop absolute dstLen fuel rest := by
  rw [CleanState.cleanLoop, scan]
  cases src.dropWhile (· == slash) <;> rfl

open Cleaning

/-- The locals `st` hold what the stack of `c` determines, in an array of
    `cap` bytes. -/
structure Shows (absolute : Bool) (dstLen cap : Nat) (c : Cleaning) (st : CleanState) : Prop where
  segments : ∀ s ∈ c.stack, IsSegment slash s
  segStarts : st.segStarts = starts absolute c.stack
  out : st.out = (c.shown absolute).length
  bytes : c.shown absolute <+: st.dst.bytes
  fits : c.Fits absolute dstLen
  room : st.out < dstLen
  cap : st.dst.cap = cap

namespace Shows

variable {absolute : Bool} {dstLen cap : Nat} {c : Cleaning} {st : CleanState}

/-! ## The helpers of one round -/

theorem needsSeparator_concat {l : List Byte} {b : Byte} (hbytes : l ++ [b] <+: st.dst.bytes)
    (hout : st.out = l.length + 1) : st.needsSeparator = .ok (b != slash) := by
  have hread : st.dst.read (st.out - 1) = .ok b := by
    rw [hout, Nat.add_sub_cancel]
    exact CharArray.read_spec hbytes
  rw [CleanState.needsSeparator, if_neg (by omega), hread]
  rfl

/-- Behind a separator, or at the very start, no separator is asked for. -/
theorem needsSeparator_opened (hbytes : opened absolute c.stack <+: st.dst.bytes)
    (hout : st.out = (opened absolute c.stack).length) : st.needsSeparator = .ok false := by
  by_cases hnil : c.stack = []
  · rw [hnil, opened_nil, root] at hbytes hout
    cases absolute with
    | false =>
      have hzero : st.out = 0 := hout
      rw [CleanState.needsSeparator, if_pos hzero]
      rfl
    | true => exact needsSeparator_concat (l := []) hbytes hout
  · rw [opened_of_ne_nil hnil] at hbytes hout
    rw [needsSeparator_concat hbytes (by simpa using hout)]
    rfl

/-- Behind a segment, a separator is asked for. -/
theorem needsSeparator_closed (h : Shows absolute dstLen cap c st) (hslash : c.atSlash = false)
    (hne : c.stack ≠ []) : st.needsSeparator = .ok true := by
  obtain ⟨seg, below, hstack⟩ := List.exists_cons_of_ne_nil hne
  have hseg := h.segments seg (by rw [hstack]; exact List.mem_cons_self ..)
  -- the byte in front of `out` is the last one of the innermost segment
  obtain ⟨init, b, rfl⟩ : ∃ init b, seg = init ++ [b] :=
    ⟨_, _, (List.dropLast_append_getLast hseg.1).symm⟩
  have hb : b ≠ slash := fun hEq => hseg.2 (by simp [hEq])
  have hshown : c.shown absolute = (opened absolute below ++ init) ++ [b] := by
    rw [shown, hslash, hstack]
    simp [closed_cons]
  have hbytes := h.bytes
  have hout := h.out
  rw [hshown] at hbytes hout
  rw [needsSeparator_concat hbytes (by simpa [Nat.add_assoc] using hout)]
  simp [hb]

/-- After the separator the array holds the opened text, unless it would not
    fit. -/
theorem addSeparator_cases (h : Shows absolute dstLen cap c st) (hcap : dstLen ≤ cap) :
    (∃ st', st.addSeparator dstLen = .ok st' ∧ st'.segStarts = st.segStarts ∧
      st'.out = (opened absolute c.stack).length ∧
      opened absolute c.stack <+: st'.dst.bytes ∧ st'.dst.cap = cap) ∨
    (st.addSeparator dstLen = .error .fail ∧ dstLen ≤ (opened absolute c.stack).length) := by
  by_cases hopen : c.shown absolute = opened absolute c.stack
  · -- nothing to do: the text is open already
    have hbytes := h.bytes
    have hout := h.out
    rw [hopen] at hbytes hout
    refine Or.inl ⟨st, ?_, rfl, hout, hbytes, h.cap⟩
    rw [CleanState.addSeparator, needsSeparator_opened hbytes hout]
    rfl
  · -- the text ends in a segment, and `/` goes behind it if there is room
    have hslash : c.atSlash = false := by
      by_contra hs
      exact hopen (by simp [shown, hs])
    have hne : c.stack ≠ [] := by
      intro hnil
      exact hopen (by simp [shown, hslash, hnil])
    have hshown : c.shown absolute = closed absolute c.stack := by simp [shown, hslash]
    have hneeds := h.needsSeparator_closed hslash hne
    have hlen : (opened absolute c.stack).length = st.out + 1 := by
      rw [opened_of_ne_nil hne, h.out, hshown, List.length_append, List.length_singleton]
    by_cases hroom : st.out + 1 ≥ dstLen
    · refine Or.inr ⟨?_, by omega⟩
      rw [CleanState.addSeparator, hneeds]
      exact if_pos hroom
    · obtain ⟨dst', hwrite, hcap', hdst'⟩ := CharArray.write_spec h.bytes [slash]
        (by rw [← h.out, h.cap]; simp; omega)
      rw [← h.out] at hwrite
      refine Or.inl ⟨{ st with dst := dst', out := st.out + 1 }, ?_, rfl, hlen.symm, ?_,
        hcap'.trans h.cap⟩
      · rw [CleanState.addSeparator, hneeds]
        show (if st.out + 1 ≥ dstLen then _ else st.put slash) = _
        rw [if_neg hroom, CleanState.put, hwrite]
        rfl
      · rw [opened_of_ne_nil hne, ← hshown]
        exact hdst'

/-- A push ends with the segment on the stack, or returns -1 because it does
    not fit there. -/
theorem pushSegment_agrees (h : Shows absolute dstLen cap c st) (hcap : dstLen ≤ cap)
    {seg : Segment} (hseg : IsSegment slash seg) :
    (∃ st', st.pushSegment dstLen seg = .ok st' ∧
      Shows absolute dstLen cap ⟨seg :: c.stack, false⟩ st') ∨
    (st.pushSegment dstLen seg = .error .fail ∧
      ¬ Fits absolute dstLen ⟨seg :: c.stack, false⟩) := by
  have hcount : st.segStarts.length = c.stack.length := by rw [h.segStarts, length_starts]
  have hpos := List.length_pos_of_ne_nil hseg.1
  by_cases hfull : st.segStarts.length ≥ pathMax
  · -- the limit on segments, which the limit on bytes makes unreachable
    refine Or.inr ⟨if_pos hfull, fun hfits => ?_⟩
    have := hfits.2
    simp only [List.length_cons] at this
    omega
  have hpush : st.pushSegment dstLen seg = (st.addSeparator dstLen >>= fun st =>
      st.recordStart >>= fun st => st.copySegment dstLen seg) := if_neg hfull
  rcases h.addSeparator_cases hcap with ⟨st₁, hsep, hstarts₁, hout₁, hbytes₁, hcap₁⟩ | ⟨hsep, hlong⟩
  · have hrecord : st₁.recordStart = .ok { st₁ with segStarts := st₁.out :: st₁.segStarts } := by
      rw [CleanState.recordStart, if_pos (by rw [hstarts₁]; omega)]
      rfl
    rw [hpush, hsep]
    by_cases hlen : st₁.out + seg.length ≥ dstLen
    · -- the segment is too long, and so is the text with it
      refine Or.inr ⟨?_, fun hfits => ?_⟩
      · show (st₁.recordStart >>= fun st => st.copySegment dstLen seg) = _
        rw [hrecord]
        exact if_pos hlen
      · have := hfits.1
        rw [closed_cons, List.length_append] at this
        omega
    · obtain ⟨dst', hwrite, hcap', hdst'⟩ := CharArray.write_spec hbytes₁ seg
        (by rw [← hout₁, hcap₁]; omega)
      rw [← hout₁] at hwrite
      refine Or.inl ⟨⟨dst', st₁.out :: st₁.segStarts, st₁.out + seg.length⟩, ?_, ?_⟩
      · show (st₁.recordStart >>= fun st => st.copySegment dstLen seg) = _
        rw [hrecord]
        show CleanState.copySegment dstLen seg
          { st₁ with segStarts := st₁.out :: st₁.segStarts } = _
        rw [CleanState.copySegment, if_neg hlen]
        show (st₁.dst.write st₁.out seg >>= fun dst => _) = _
        rw [hwrite]
        rfl
      · -- the tie, field by field
        refine ⟨?_, ?_, ?_, ?_, ⟨?_, ?_⟩, ?_, hcap'.trans hcap₁⟩
        · intro s hs
          rcases List.mem_cons.mp hs with rfl | hs
          · exact hseg
          · exact h.segments s hs
        · simp [starts, hstarts₁, h.segStarts, hout₁]
        · simp [shown, closed_cons, hout₁]
        · simpa [shown, closed_cons] using hdst'
        · simp only [closed_cons, List.length_append]
          omega
        · simp only [List.length_cons]
          omega
        · show st₁.out + seg.length < dstLen
          omega
  · -- not even the separator fits
    refine Or.inr ⟨by rw [hpush, hsep]; rfl, fun hfits => ?_⟩
    have := hfits.1
    rw [closed_cons, List.length_append] at this
    omega

/-- A pop ends at the opened text of the remaining stack. -/
theorem popSegment_spec {seg : Segment} {below : List Segment} {atSlash : Bool}
    (h : Shows absolute dstLen cap ⟨seg :: below, atSlash⟩ st) :
    ∃ st', st.popSegment absolute (opened absolute below).length (starts absolute below) = .ok st' ∧
      Shows absolute dstLen cap ⟨below, true⟩ st' := by
  have hseg := h.segments seg (List.mem_cons_self ..)
  have hpos := List.length_pos_of_ne_nil hseg.1
  -- an absolute text never gets shorter than its root, so `out` is not 0 here
  have hroot : ¬ ((opened absolute below).length = 0 ∧ absolute = true) := by
    rintro ⟨hzero, rfl⟩
    rw [List.length_eq_zero_iff] at hzero
    unfold opened root at hzero
    split at hzero <;> simp at hzero
  have hfits := h.fits.1
  rw [closed_cons, List.length_append] at hfits
  refine ⟨{ st with segStarts := starts absolute below, out := (opened absolute below).length },
    if_neg hroot, ?_⟩
  refine ⟨?_, rfl, rfl, ?_, ⟨?_, ?_⟩, ?_, h.cap⟩
  · exact fun s hs => h.segments s (List.mem_cons_of_mem _ hs)
  · -- the popped text is still in the array, in front of what was cut off
    have hclosed : closed absolute (seg :: below) <+: st.dst.bytes :=
      (closed_prefix_shown ⟨seg :: below, atSlash⟩).trans h.bytes
    rw [closed_cons] at hclosed
    exact (List.prefix_append _ _).trans hclosed
  · have := (closed_prefix_opened absolute below).length_le
    show (closed absolute below).length < dstLen
    omega
  · have := h.fits.2
    simp only [List.length_cons] at this
    show below.length ≤ pathMax
    omega
  · show (opened absolute below).length < dstLen
    omega

/-! ## One round, and all of them -/

/-- A run of the code ends as the cleaning without memory does. -/
def Agrees (absolute : Bool) (dstLen cap : Nat) (o : Option Cleaning)
    (r : Except Stop CleanState) : Prop :=
  match o with
  | some c => ∃ st, r = .ok st ∧ Shows absolute dstLen cap c st
  | none => r = .error .fail

theorem cleanSegment_agrees (h : Shows absolute dstLen cap c st) (hcap : dstLen ≤ cap)
    {seg : Segment} (hseg : IsSegment slash seg) :
    Agrees absolute dstLen cap (c.next absolute dstLen seg)
      (st.cleanSegment absolute dstLen seg) := by
  -- two of the four cases end in a push
  have hpush : c.step absolute seg = ⟨seg :: c.stack, false⟩ →
      Agrees absolute dstLen cap (c.next absolute dstLen seg) (st.pushSegment dstLen seg) := by
    intro hstep
    rcases h.pushSegment_agrees hcap hseg with ⟨st', hok, hshows⟩ | ⟨hfail, hnot⟩
    · rw [next, hstep, if_pos hshows.fits]
      exact ⟨st', hok, hshows⟩
    · rw [next, hstep, if_neg hnot]
      exact hfail
  unfold CleanState.cleanSegment
  by_cases hdot : seg = [dot]
  · rw [if_pos hdot, next, step, if_pos hdot, if_pos h.fits]
    exact ⟨st, rfl, h⟩
  rw [if_neg hdot]
  by_cases hdots : seg = [dot, dot]
  · rw [if_pos hdots]
    obtain ⟨stack, atSlash⟩ := c
    cases stack with
    | cons top below =>
      -- a pop shortens the text, so it fits as well
      obtain ⟨st', hok, hshows⟩ := h.popSegment_spec
      rw [h.segStarts, next, step, if_neg hdot, if_pos hdots, if_pos hshows.fits]
      exact ⟨st', hok, hshows⟩
    | nil =>
      -- nothing to pop: `..` is dropped at the root, and pushed elsewhere
      rw [h.segStarts]
      cases habs : absolute with
      | true =>
        subst habs
        rw [next, step, if_neg hdot, if_pos hdots]
        exact (if_pos h.fits).symm ▸ ⟨st, rfl, h⟩
      | false =>
        subst habs
        exact hpush (by rw [step, if_neg hdot, if_pos hdots]; rfl)
  · rw [if_neg hdots]
    exact hpush (by rw [step, if_neg hdot, if_neg hdots])

/-- The loop runs the rounds of its segments. -/
theorem cleanLoop_agrees (h : Shows absolute dstLen cap c st) (hcap : dstLen ≤ cap) :
    ∀ (fuel : Nat) (src : List Byte), src.length < fuel →
      Agrees absolute dstLen cap ((Lexical.segments slash src).foldlM (next absolute dstLen) c)
        (st.cleanLoop absolute dstLen fuel src) := by
  -- every round takes at least one byte off the text
  intro fuel
  induction fuel generalizing c st with
  | zero => exact fun src hlt => absurd hlt (Nat.not_lt_zero _)
  | succ fuel ih =>
    intro src hlt
    rw [cleanLoop_succ]
    cases hscan : scan src with
    | none =>
      rw [segments_of_scan_none hscan]
      exact ⟨st, rfl, h⟩
    | some found =>
      obtain ⟨seg, rest⟩ := found
      obtain ⟨hseg, hless, hsegs⟩ := scan_spec hscan
      have hround := h.cleanSegment_agrees hcap hseg
      rw [hsegs, List.foldlM_cons]
      cases hnext : c.next absolute dstLen seg with
      | none =>
        -- the round returns -1, and so does the loop
        rw [hnext] at hround
        show (_ >>= fun st => _) = _
        rw [show st.cleanSegment absolute dstLen seg = .error .fail from hround]
        rfl
      | some c' =>
        -- the rest of the loop starts from a tie again
        rw [hnext] at hround
        obtain ⟨st', hok, hshows⟩ := hround
        have hrest := ih hshows rest (by omega)
        show Agrees _ _ _ _ (_ >>= fun st => _)
        rw [hok]
        exact hrest

/-- `dst[out] = '\0'` behind a text that leaves room for it. -/
theorem terminate_spec {l : List Byte} (hbytes : l <+: st.dst.bytes) (hout : st.out = l.length)
    (hroom : st.out < st.dst.cap) :
    ∃ dst', st.terminate = .ok dst' ∧ dst'.cap = st.dst.cap ∧ l ++ [nul] <+: dst'.bytes := by
  obtain ⟨dst', hwrite, hcap, hdst'⟩ := CharArray.write_spec hbytes [nul]
    (by simp; omega)
  rw [← hout] at hwrite
  exact ⟨dst', hwrite, hcap, hdst'⟩

end Shows

/-! ## The whole function -/

/-- The cleaning of a text, as far as every step of it fits. -/
def cleaning (absolute : Bool) (dstLen : Nat) (src : List Byte) : Option Cleaning :=
  (segments slash src).foldlM (next absolute dstLen) ⟨[], true⟩

/-- The text that stands in the array at the end. -/
def Cleaning.text (absolute : Bool) (c : Cleaning) : List Byte :=
  if c.shown absolute = [] then [dot] else c.shown absolute

theorem Shows.finish_spec {absolute : Bool} {dstLen cap : Nat} {c : Cleaning} {st : CleanState}
    (h : Shows absolute dstLen cap c st) (hcap : dstLen ≤ cap) (htwo : 2 ≤ dstLen) :
    ∃ dst', (st.nameEmpty absolute dstLen >>= fun st => st.terminate) = .ok dst' ∧
      dst'.cap = cap ∧ c.text absolute ++ [nul] <+: dst'.bytes ∧
      (c.text absolute).length < dstLen := by
  have hroom := h.room
  have hstcap := h.cap
  by_cases hempty : c.shown absolute = []
  · -- only a relative path leaves nothing; it is spelled `.`
    have hout : st.out = 0 := by rw [h.out, hempty, List.length_nil]
    have habs : absolute = false := by
      cases absolute with
      | false => rfl
      | true =>
        exfalso
        have hclosed := List.prefix_nil.mp (hempty ▸ closed_prefix_shown c)
        cases hstack : c.stack <;> simp [hstack, closed, root] at hclosed
        have := h.segments _ (by rw [hstack]; exact List.mem_cons_self ..)
        exact this.1 hclosed.2
    obtain ⟨dst₁, hwrite, hcap₁, hdst₁⟩ := CharArray.write_spec (a := st.dst) (l := [])
      List.nil_prefix [dot] (by simp; omega)
    have hname : st.nameEmpty absolute dstLen = .ok { st with dst := dst₁, out := 1 } := by
      rw [CleanState.nameEmpty, if_pos hout, if_neg (by omega), habs, CleanState.put, hout]
      show (st.dst.write 0 [dot] >>= fun dst => _) = _
      rw [show st.dst.write 0 [dot] = .ok dst₁ from hwrite]
      rfl
    obtain ⟨dst', hterm, hcap', hdst'⟩ := Shows.terminate_spec
      (show [dot] <+: (CleanState.mk dst₁ st.segStarts 1).dst.bytes from hdst₁) rfl
      (by show 1 < dst₁.cap; omega)
    refine ⟨dst', ?_, by rw [hcap', ← hstcap, ← hcap₁], ?_, ?_⟩
    · rw [hname]
      exact hterm
    · rw [Cleaning.text, if_pos hempty]
      exact hdst'
    · rw [Cleaning.text, if_pos hempty]
      exact htwo
  · have hout : ¬ st.out = 0 := by
      rw [h.out, List.length_eq_zero_iff]
      exact hempty
    obtain ⟨dst', hterm, hcap', hdst'⟩ := Shows.terminate_spec h.bytes h.out (by omega)
    refine ⟨dst', ?_, hcap'.trans hstcap, ?_, ?_⟩
    · rw [CleanState.nameEmpty, if_neg hout]
      exact hterm
    · rw [Cleaning.text, if_neg hempty]
      exact hdst'
    · rw [Cleaning.text, if_neg hempty, ← h.out]
      exact hroom

/-- A start that does not fail shows the empty stack. -/
theorem Shows.of_start {absolute : Bool} {dst : CharArray} {dstLen : Nat} {st : CleanState}
    (hcap : dstLen ≤ dst.cap) (hpos : 0 < dstLen)
    (h : CleanState.start absolute dst dstLen = .ok st) :
    Shows absolute dstLen dst.cap ⟨[], true⟩ st := by
  cases absolute with
  | false =>
    -- a relative path starts with nothing written
    obtain rfl := Except.ok.inj h
    exact ⟨by simp, rfl, rfl, List.nil_prefix, ⟨hpos, Nat.zero_le _⟩, hpos, rfl⟩
  | true =>
    -- an absolute one with the root
    rw [CleanState.start, if_pos rfl] at h
    split at h
    · exact absurd h (by simp)
    · obtain ⟨dst', hwrite, hcap', hdst'⟩ := CharArray.write_spec (a := dst) (l := [])
        List.nil_prefix [slash] (by simp; omega)
      have hput : CleanState.put slash ⟨dst, [], 0⟩ = .ok ⟨dst', [], 1⟩ := by
        show (dst.write 0 [slash] >>= fun dst => _) = _
        rw [show dst.write 0 [slash] = .ok dst' from hwrite]
        rfl
      obtain rfl := Except.ok.inj (hput.symm.trans h)
      have hroom : 1 < dstLen := by omega
      exact ⟨by simp, rfl, rfl, hdst', ⟨hroom, Nat.zero_le _⟩, hroom, hcap'⟩

theorem exists_start (absolute : Bool) {dst : CharArray} {dstLen : Nat} (hcap : dstLen ≤ dst.cap)
    (htwo : 2 ≤ dstLen) : ∃ st, CleanState.start absolute dst dstLen = .ok st := by
  cases absolute with
  | false => exact ⟨_, rfl⟩
  | true =>
    obtain ⟨dst', hwrite, -, -⟩ := CharArray.write_spec (a := dst) (l := []) List.nil_prefix
      [slash] (by simp; omega)
    refine ⟨⟨dst', [], 1⟩, ?_⟩
    rw [CleanState.start, if_pos rfl, if_neg (by omega), CleanState.put]
    show (dst.write 0 [slash] >>= fun dst => _) = _
    rw [show dst.write 0 [slash] = .ok dst' from hwrite]
    rfl

/-- Behind its start, the function is the loop and the end. -/
theorem cleanPathInto_of_start {src : CString} {dst : CharArray} {dstLen : Nat} {st : CleanState}
    (hpos : 0 < dstLen) (h : CleanState.start (isAbsolute src) dst dstLen = .ok st) :
    cleanPathInto (some src) dst dstLen =
      (st.cleanLoop (isAbsolute src) dstLen (src.length + 1) src.chars >>= fun st =>
        st.nameEmpty (isAbsolute src) dstLen >>= fun st => st.terminate) := by
  rw [cleanPathInto, if_neg (by omega), h]
  rfl

/-- `clean_path_into` on any array of at least `dst_len` bytes: it terminates
    the cleaned text there, or returns -1 when a step does not fit.  It never
    faults. -/
theorem cleanPathInto_spec (src : CString) (dst : CharArray) {dstLen : Nat}
    (hcap : dstLen ≤ dst.cap) (htwo : 2 ≤ dstLen) :
    match cleaning (isAbsolute src) dstLen src.chars with
    | some c => ∃ dst', cleanPathInto (some src) dst dstLen = .ok dst' ∧ dst'.cap = dst.cap ∧
        c.text (isAbsolute src) ++ [nul] <+: dst'.bytes ∧
        (c.text (isAbsolute src)).length < dstLen
    | none => cleanPathInto (some src) dst dstLen = .error .fail := by
  obtain ⟨st, hst⟩ := exists_start (isAbsolute src) hcap htwo
  have hshows := Shows.of_start hcap (by omega) hst
  have hloop := hshows.cleanLoop_agrees hcap (src.length + 1) src.chars (Nat.lt_succ_self _)
  rw [cleanPathInto_of_start (by omega) hst]
  show match cleaning (isAbsolute src) dstLen src.chars with | some c => _ | none => _
  rw [cleaning]
  cases hc : (segments slash src.chars).foldlM (next (isAbsolute src) dstLen) ⟨[], true⟩ with
  | none =>
    rw [hc] at hloop
    rw [show st.cleanLoop _ _ _ _ = .error .fail from hloop]
    rfl
  | some c =>
    rw [hc] at hloop
    obtain ⟨st', hok, hshows'⟩ := hloop
    rw [hok]
    exact hshows'.finish_spec hcap htwo

end LdPreload
