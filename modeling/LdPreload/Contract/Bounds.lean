/-
  LdPreload.Contract.Bounds

  `clean_path_into` in an array of exactly `dst_len` bytes.  The states that
  the outer loop goes through are told apart by `Visits`: one `Round` after
  another from what is in hand before the first.  In every one of them the
  locals show the text of a stack that fits (`exists_shows_of_visits`), so the
  recorded offsets never fill `seg_starts`, and the only thing that can go
  wrong in a round is that the text gets too long.
-/

import LdPreload.Rtld.CleanLimits

namespace LdPreload

open CMem Lexical Cleaning Relation

/-! ## Rounds -/

/-- One round of the outer loop, from the text in front of it and the locals
    to those behind it. -/
def Round (absolute : Bool) (dstLen : Nat) (x y : List Byte × CleanState) : Prop :=
  ∃ seg, scan x.1 = some (seg, y.1) ∧ x.2.cleanSegment absolute dstLen seg = .ok y.2

/-- In `clean_path_into (src, dst, dst_len)` the outer loop stands in front of
    the text `rest`, with the locals `st`. -/
def Visits (src : CString) (dst : CharArray) (dstLen : Nat) (rest : List Byte)
    (st : CleanState) : Prop :=
  ∃ st₀, CleanState.start (isAbsolute src) dst dstLen = .ok st₀ ∧
    ReflTransGen (Round (isAbsolute src) dstLen) (src.chars, st₀) (rest, st)

variable {absolute : Bool} {dstLen cap : Nat}

/-- The loop is where its rounds take it. -/
theorem cleanLoop_of_rounds {x y : List Byte × CleanState}
    (h : ReflTransGen (Round absolute dstLen) x y) {fuel : Nat} (hfuel : x.1.length < fuel) :
    ∃ fuel', y.1.length < fuel' ∧
      x.2.cleanLoop absolute dstLen fuel x.1 = y.2.cleanLoop absolute dstLen fuel' y.1 := by
  induction h with
  | refl => exact ⟨fuel, hfuel, rfl⟩
  | tail _ hround ih =>
    obtain ⟨fuel', hlt, heq⟩ := ih
    obtain ⟨seg, hscan, hok⟩ := hround
    have hless := (scan_spec hscan).2.1
    obtain ⟨fuel', rfl⟩ : ∃ n, fuel' = n + 1 := ⟨fuel' - 1, by omega⟩
    refine ⟨fuel', by omega, ?_⟩
    rw [heq, cleanLoop_succ, hscan]
    simp only [hok]
    rfl

/-- Wherever the loop stands, what is left to do is done from there. -/
theorem cleanPathInto_of_visits {src : CString} {dst : CharArray} {rest : List Byte}
    {st : CleanState} (h : Visits src dst dstLen rest st) (hpos : 0 < dstLen) :
    ∃ fuel, rest.length < fuel ∧ cleanPathInto (some src) dst dstLen =
      (st.cleanLoop (isAbsolute src) dstLen fuel rest >>= fun st =>
        st.nameEmpty (isAbsolute src) dstLen >>= fun st => st.terminate) := by
  obtain ⟨st₀, hstart, hrounds⟩ := h
  obtain ⟨fuel, hfuel, hloop⟩ := cleanLoop_of_rounds hrounds (Nat.lt_succ_self src.length)
  refine ⟨fuel, hfuel, ?_⟩
  rw [cleanPathInto_of_start hpos hstart]
  exact congrArg (· >>= _) hloop

/-- A loop that does not come to its end stops in a round. -/
theorem exists_rounds_of_error {fuel : Nat} {src : List Byte} {st : CleanState} {stop : Stop}
    (hfuel : src.length < fuel) (h : st.cleanLoop absolute dstLen fuel src = .error stop) :
    ∃ rest st' seg rest', ReflTransGen (Round absolute dstLen) (src, st) (rest, st') ∧
      scan rest = some (seg, rest') ∧ st'.cleanSegment absolute dstLen seg = .error stop := by
  induction fuel generalizing src st with
  | zero => exact absurd hfuel (Nat.not_lt_zero _)
  | succ fuel ih =>
    rw [cleanLoop_succ] at h
    cases hscan : scan src with
    | none =>
      rw [hscan] at h
      exact absurd h (by exact fun h => by cases h)
    | some found =>
      obtain ⟨seg, rest⟩ := found
      have hless := (scan_spec hscan).2.1
      rw [hscan] at h
      cases hround : st.cleanSegment absolute dstLen seg with
      | error stop' =>
        simp only [hround] at h
        obtain rfl : stop' = stop := Except.error.inj h
        exact ⟨src, st, seg, rest, .refl, hscan, hround⟩
      | ok st' =>
        simp only [hround] at h
        obtain ⟨rest₁, st₁, seg₁, rest₂, hrounds, hfound⟩ := ih (by omega) h
        exact ⟨rest₁, st₁, seg₁, rest₂, .head ⟨seg, hscan, hround⟩ hrounds, hfound⟩

/-! ## The locals -/

/-- A round keeps the locals in step with a stack. -/
theorem Round.shows {x y : List Byte × CleanState} (h : Round absolute dstLen x y)
    (hcap : dstLen ≤ cap) {c : Cleaning} (hshows : Shows absolute dstLen cap c x.2) :
    ∃ c', Shows absolute dstLen cap c' y.2 := by
  obtain ⟨seg, hscan, hok⟩ := h
  have hagrees := hshows.cleanSegment_agrees hcap (scan_spec hscan).1
  cases hnext : c.next absolute dstLen seg with
  | none =>
    rw [hnext] at hagrees
    exact absurd (hok.symm.trans hagrees) (by simp)
  | some c' =>
    rw [hnext] at hagrees
    obtain ⟨st', hok', hshows'⟩ := hagrees
    obtain rfl : y.2 = st' := Except.ok.inj (hok.symm.trans hok')
    exact ⟨c', hshows'⟩

/-- So do all rounds of the loop. -/
theorem exists_shows_of_visits {src : CString} {dst : CharArray} {rest : List Byte}
    {st : CleanState} (h : Visits src dst dstLen rest st) (hcap : dstLen ≤ dst.cap)
    (hpos : 0 < dstLen) : ∃ c, Shows (isAbsolute src) dstLen dst.cap c st := by
  obtain ⟨st₀, hstart, hrounds⟩ := h
  have key : ∀ y : List Byte × CleanState,
      ReflTransGen (Round (isAbsolute src) dstLen) (src.chars, st₀) y →
        ∃ c, Shows (isAbsolute src) dstLen dst.cap c y.2 := by
    intro y hy
    induction hy with
    | refl => exact ⟨_, Shows.of_start hcap hpos hstart⟩
    | tail _ hround ih =>
      obtain ⟨c, hshows⟩ := ih
      exact hround.shows hcap hshows
  exact key _ hrounds

/-- Every recorded segment takes a byte of a text that leaves room for the
    terminator. -/
theorem Shows.length_segStarts_lt {c : Cleaning} {st : CleanState}
    (h : Shows absolute dstLen cap c st) : st.segStarts.length < dstLen := by
  have hcount := length_stack_le absolute fun s hs => (h.segments s hs).1
  have hfits := h.fits.1
  rw [h.segStarts, length_starts]
  omega

/-! ## Bounds -/

/-- In an array of exactly `dst_len` bytes `clean_path_into` never leaves the
    array nor `seg_starts`, never reads what has not been written, and leaves
    a terminated string when it returns 0.  It returns -1 only out of a round
    that starts with room in `seg_starts`, and never for a path shorter than
    the array. -/
theorem cleanPathInto_in_bounds (src : CString) (dstLen : Nat) (hmin : 2 ≤ dstLen)
    (hmax : dstLen ≤ pathMax) (dst : CharArray) (hcap : dst.cap = dstLen) :
    cleanPathInto (some src) dst dstLen ≠ .error .fault ∧
      (∀ rest st, Visits src dst dstLen rest st → st.segStarts.length < pathMax) ∧
      (cleanPathInto (some src) dst dstLen = .error .fail → ∃ rest st seg rest',
        Visits src dst dstLen rest st ∧ scan rest = some (seg, rest') ∧
          st.cleanSegment (isAbsolute src) dstLen seg = .error .fail) ∧
      (∀ dst', cleanPathInto (some src) dst dstLen = .ok dst' →
        ∃ t, dst'.string = .ok t ∧ t.length < dstLen) ∧
      (src.length < dstLen → ∃ dst', cleanPathInto (some src) dst dstLen = .ok dst') := by
  have hle : dstLen ≤ dst.cap := Nat.le_of_eq hcap.symm
  have hpos : 0 < dstLen := Nat.lt_of_lt_of_le Nat.zero_lt_two hmin
  have hspec := cleanPathInto_spec src dst hle hmin
  refine ⟨?_, ?_, ?_, ?_, ?_⟩
  · intro hfault
    cases hc : cleaning (isAbsolute src) dstLen src.chars with
    | none =>
      rw [hc] at hspec
      exact absurd (hfault.symm.trans hspec) (by simp)
    | some c =>
      rw [hc] at hspec
      obtain ⟨dst', hok, -⟩ := hspec
      exact absurd (hfault.symm.trans hok) (by simp)
  · intro rest st hvisits
    obtain ⟨c, hshows⟩ := exists_shows_of_visits hvisits hle hpos
    exact Nat.lt_of_lt_of_le hshows.length_segStarts_lt hmax
  · intro hfail
    obtain ⟨st₀, hstart⟩ := exists_start (isAbsolute src) hle hmin
    have hshows := Shows.of_start hle hpos hstart
    have hloop := hshows.cleanLoop_agrees hle (src.length + 1) src.chars (Nat.lt_succ_self _)
    rw [cleanPathInto_of_start hpos hstart] at hfail
    cases hc : (segments slash src.chars).foldlM (next (isAbsolute src) dstLen) ⟨[], true⟩ with
    | none =>
      rw [hc] at hloop
      obtain ⟨rest, st, seg, rest', hrounds, hfound⟩ :=
        exists_rounds_of_error (Nat.lt_succ_self _) hloop
      exact ⟨rest, st, seg, rest', ⟨st₀, hstart, hrounds⟩, hfound⟩
    | some c =>
      -- behind the loop there is room for what is still to be written
      rw [hc] at hloop
      obtain ⟨st', hok, hshows'⟩ := hloop
      obtain ⟨dst', hfinish, -⟩ := hshows'.finish_spec hle hmin
      rw [hok] at hfail
      exact absurd (hfail.symm.trans hfinish) (by simp)
  · intro dst' hok
    obtain ⟨t, hstring, hlen, -⟩ := exists_string_of_ok hle hok
    exact ⟨t, hstring, hlen⟩
  · intro hshort
    obtain ⟨t, ⟨dst', hok, -⟩, -⟩ := exists_cleansTo hle hmin (cleaning_of_short hshort hmax)
    exact ⟨dst', hok⟩

/-- `a/..` is as long as an array of five bytes allows. -/
theorem four_bytes_in_bounds :
    let src : CString := .ofAscii ['a', '/', '.', '.']
    let dst : CharArray := .uninit 5
    cleanPathInto (some src) dst 5 ≠ .error .fault ∧
      (∀ rest st, Visits src dst 5 rest st → st.segStarts.length < pathMax) ∧
      (cleanPathInto (some src) dst 5 = .error .fail → ∃ rest st seg rest',
        Visits src dst 5 rest st ∧ scan rest = some (seg, rest') ∧
          st.cleanSegment (isAbsolute src) 5 seg = .error .fail) ∧
      (∀ dst', cleanPathInto (some src) dst 5 = .ok dst' →
        ∃ t, dst'.string = .ok t ∧ t.length < 5) ∧
      (src.length < 5 → ∃ dst', cleanPathInto (some src) dst 5 = .ok dst') :=
  cleanPathInto_in_bounds (.ofAscii ['a', '/', '.', '.']) 5 (by decide) (by decide) (.uninit 5) rfl

end LdPreload
