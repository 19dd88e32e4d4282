/-
  LdPreload.Path.Segments

  Texts cut at a separator.  A *segment* is a non-empty run without the
  separator; `segments` lists the maximal ones of a text from left to right,
  so runs of separators and separators at either end leave no trace.  `spell`
  is the way back: every segment behind one separator.

  The last section compares spelled texts: a spelled text is a textual prefix
  of another one, and ends there at a segment boundary, exactly when its
  segments are a prefix of the other's segments.  Nothing here fixes the
  alphabet or the separator.
-/

import Mathlib

namespace Lexical

variable {α : Type*} {sep : α}

/-- A non-empty run without the separator. -/
def IsSegment (sep : α) (s : List α) : Prop := s ≠ [] ∧ sep ∉ s

instance [DecidableEq α] (sep : α) (s : List α) : Decidable (IsSegment sep s) :=
  inferInstanceAs (Decidable (_ ∧ _))

/-- The maximal separator-free runs of a text, in order. -/
def segments [DecidableEq α] (sep : α) (l : List α) : List (List α) :=
  (l.splitOn sep).filter (· ≠ [])

/-- Each segment behind one separator. -/
def spell (sep : α) (segs : List (List α)) : List α := segs.flatMap (sep :: ·)

/-- A text that is empty or starts with the separator. -/
def AtBoundary (sep : α) : List α → Prop
  | [] => True
  | c :: _ => c = sep

/-! ## Spelling -/

@[simp] theorem spell_nil : spell sep ([] : List (List α)) = [] := rfl

@[simp] theorem spell_cons (s : List α) (segs : List (List α)) :
    spell sep (s :: segs) = sep :: (s ++ spell sep segs) := rfl

theorem spell_append (xs ys : List (List α)) :
    spell sep (xs ++ ys) = spell sep xs ++ spell sep ys := by
  simp [spell, List.flatMap_append]

theorem spell_eq_nil {segs : List (List α)} : spell sep segs = [] ↔ segs = [] := by
  cases segs <;> simp

theorem atBoundary_spell (segs : List (List α)) (l : List α) (hl : AtBoundary sep l) :
    AtBoundary sep (spell sep segs ++ l) := by
  cases segs with
  | nil => exact hl
  | cons s segs => exact rfl

theorem length_spell (segs : List (List α)) :
    (spell sep segs).length = (segs.map (·.length + 1)).sum := by
  induction segs with
  | nil => rfl
  | cons s segs ih =>
    rw [spell_cons, List.length_cons, List.length_append, ih, List.map_cons, List.sum_cons]
    omega

/-- Behind its first separator, a spelled text is its segments joined. -/
theorem spell_eq_cons_intercalate {segs : List (List α)} (h : segs ≠ []) :
    spell sep segs = sep :: [sep].intercalate segs := by
  induction segs with
  | nil => exact absurd rfl h
  | cons s segs ih =>
    cases segs with
    | nil => simp [List.intercalate]
    | cons s' segs =>
      rw [spell_cons, ih (by simp)]
      simp [List.intercalate]

/-- The last character of a spelled text is not the separator. -/
theorem getLast?_spell_ne_sep {segs : List (List α)} (h : ∀ s ∈ segs, IsSegment sep s) :
    (spell sep segs).getLast? ≠ some sep := by
  induction segs with
  | nil => simp
  | cons s segs ih =>
    have hs := h s (List.mem_cons_self ..)
    by_cases hnil : segs = []
    · subst hnil
      rw [spell_cons, spell_nil, List.append_nil, List.getLast?_cons_of_ne_nil hs.1]
      exact fun hlast => hs.2 (List.mem_of_getLast? hlast)
    · have hne : spell sep segs ≠ [] := fun h0 => hnil (spell_eq_nil.mp h0)
      rw [spell_cons, List.getLast?_cons_of_ne_nil (by simp [hs.1]),
        List.getLast?_append_of_ne_nil _ hne]
      exact ih fun t ht => h t (List.mem_cons_of_mem _ ht)

/-! ## Cutting -/

section Cutting

variable [DecidableEq α]

@[simp] theorem segments_nil : segments sep ([] : List α) = [] := by
  simp [segments, List.splitOn_nil]

/-- A separator cuts a text in two. -/
theorem segments_append_sep (sep : α) (a b : List α) :
    segments sep (a ++ sep :: b) = segments sep a ++ segments sep b := by
  simp only [segments, List.splitOn_append_cons_self, List.filter_append]

@[simp] theorem segments_cons_sep (l : List α) :
    segments sep (sep :: l) = segments sep l := by
  simpa using segments_append_sep sep [] l

@[simp] theorem segments_append_singleton (l : List α) :
    segments sep (l ++ [sep]) = segments sep l := by
  simpa using segments_append_sep sep l []

theorem segments_of_isSegment {s : List α} (h : IsSegment sep s) :
    segments sep s = [s] := by
  simp [segments, List.splitOn_eq_singleton h.2, h.1]

/-- A run in front of a boundary is the first segment. -/
theorem segments_run_append {run l : List α} (h : IsSegment sep run) (hl : AtBoundary sep l) :
    segments sep (run ++ l) = run :: segments sep l := by
  cases l with
  | nil => rw [List.append_nil, segments_of_isSegment h, segments_nil]
  | cons c l =>
    rw [show c = sep from hl, segments_append_sep, segments_of_isSegment h, segments_cons_sep,
      List.singleton_append]

theorem atBoundary_dropWhile (sep : α) (l : List α) : AtBoundary sep (l.dropWhile (· ≠ sep)) := by
  induction l with
  | nil => trivial
  | cons c l ih =>
    by_cases hc : c = sep
    · simp [hc, AtBoundary]
    · simpa [hc] using ih

theorem isSegment_takeWhile {c : α} (hc : c ≠ sep) (l : List α) :
    IsSegment sep ((c :: l).takeWhile (· ≠ sep)) := by
  refine ⟨by simp [hc], fun hmem => ?_⟩
  simpa using List.mem_takeWhile_imp hmem

/-- Scanning: off a separator, the first segment is the run up to the next
    separator. -/
theorem segments_scan {c : α} (hc : c ≠ sep) (l : List α) :
    segments sep (c :: l) =
      (c :: l).takeWhile (· ≠ sep) :: segments sep ((c :: l).dropWhile (· ≠ sep)) := by
  conv_lhs => rw [← List.takeWhile_append_dropWhile (p := (· ≠ sep)) (l := c :: l)]
  exact segments_run_append (isSegment_takeWhile hc l) (atBoundary_dropWhile sep (c :: l))

/-- Separators in front of a text do not matter. -/
theorem segments_dropWhile_sep (l : List α) :
    segments sep (l.dropWhile (· == sep)) = segments sep l := by
  induction l with
  | nil => rfl
  | cons c l ih =>
    by_cases hc : c = sep
    · simpa [hc] using ih
    · simp [hc]

/-- Induction along the scan of a text: by one separator, or by one run up to
    a boundary. -/
theorem scanInduction (sep : α) {motive : List α → Prop} (nil : motive [])
    (cons_sep : ∀ l, motive l → motive (sep :: l))
    (run_append : ∀ run l, IsSegment sep run → AtBoundary sep l → motive l → motive (run ++ l))
    (l : List α) : motive l := by
  -- on the length: a run is taken off in one piece
  induction hn : l.length using Nat.strongRecOn generalizing l with
  | _ n ih =>
    cases l with
    | nil => exact nil
    | cons c l =>
      simp only [List.length_cons] at hn
      by_cases hc : c = sep
      · subst hc
        exact cons_sep l (ih l.length (by omega) l rfl)
      · rw [← List.takeWhile_append_dropWhile (p := (· ≠ sep)) (l := c :: l)]
        refine run_append _ _ (isSegment_takeWhile hc l) (atBoundary_dropWhile sep (c :: l))
          (ih _ ?_ _ rfl)
        have : ((c :: l).dropWhile (· ≠ sep)).length ≤ l.length := by
          simpa [List.dropWhile_cons, hc] using
            (List.dropWhile_sublist (· ≠ sep) (l := l)).length_le
        omega

theorem isSegment_of_mem_segments {l s : List α} (h : s ∈ segments sep l) :
    IsSegment sep s := by
  induction l using scanInduction sep with
  | nil => simp at h
  | cons_sep l ih => exact ih (by simpa using h)
  | run_append run l hrun hl ih =>
    rw [segments_run_append hrun hl, List.mem_cons] at h
    rcases h with rfl | h
    · exact hrun
    · exact ih h

/-- A segment is made of characters of the text. -/
theorem subset_of_mem_segments {l s : List α} (h : s ∈ segments sep l) : s ⊆ l := by
  induction l using scanInduction sep with
  | nil => simp at h
  | cons_sep l ih => exact List.subset_cons_of_subset _ (ih (by simpa using h))
  | run_append run l hrun hl ih =>
    rw [segments_run_append hrun hl, List.mem_cons] at h
    rcases h with rfl | h
    · exact List.subset_append_left ..
    · exact List.subset_append_of_subset_right _ (ih h)

/-- The segments and one separator for each but the first fit in the text. -/
theorem sum_segments_le (sep : α) (l : List α) :
    ((segments sep l).map (·.length + 1)).sum ≤ l.length + 1 := by
  -- behind a run stands the end of the text or a separator that is counted
  have key : ((segments sep l).map (·.length + 1)).sum ≤ l.length + 1 ∧
      (AtBoundary sep l → ((segments sep l).map (·.length + 1)).sum ≤ l.length) := by
    induction l using scanInduction sep with
    | nil => simp
    | cons_sep l ih =>
      rw [segments_cons_sep, List.length_cons]
      exact ⟨by omega, fun _ => ih.1⟩
    | run_append run l hrun hl ih =>
      have hsum := ih.2 hl
      rw [segments_run_append hrun hl, List.map_cons, List.sum_cons, List.length_append]
      refine ⟨by omega, fun hb => ?_⟩
      obtain ⟨c, run', rfl⟩ := List.exists_cons_of_ne_nil hrun.1
      exact absurd (show c = sep from hb) (fun hc => hrun.2 (by simp [hc]))
  exact key.1

/-- Spelled segments are read back in front of any text at a boundary. -/
theorem segments_spell_append {segs : List (List α)} (h : ∀ s ∈ segs, IsSegment sep s)
    {l : List α} (hl : AtBoundary sep l) :
    segments sep (spell sep segs ++ l) = segs ++ segments sep l := by
  induction segs with
  | nil => rfl
  | cons s segs ih =>
    have hs := h s (List.mem_cons_self ..)
    have ih := ih fun t ht => h t (List.mem_cons_of_mem _ ht)
    rw [spell_cons, List.cons_append, segments_cons_sep, List.append_assoc,
      segments_run_append hs (atBoundary_spell segs l hl), ih, List.cons_append]

theorem segments_spell {segs : List (List α)} (h : ∀ s ∈ segs, IsSegment sep s) :
    segments sep (spell sep segs) = segs := by
  simpa using segments_spell_append h (l := []) trivial

end Cutting

/-! ## Prefixes of spelled texts -/

/-- Two separator-free runs in front of boundaries are equal, and so is what
    follows. -/
theorem run_append_inj [DecidableEq α] {x y u v : List α} (hx : sep ∉ x) (hy : sep ∉ y)
    (hu : AtBoundary sep u) (hv : AtBoundary sep v) (h : x ++ u = y ++ v) :
    x = y ∧ u = v := by
  have key : ∀ (z w : List α), sep ∉ z → AtBoundary sep w →
      (z ++ w).takeWhile (· ≠ sep) = z := by
    intro z w hz hw
    rw [List.takeWhile_append_of_pos (fun a ha => by simpa using ne_of_mem_of_not_mem ha hz)]
    cases w with
    | nil => simp
    | cons c w =>
      have hc : c = sep := hw
      simp [hc]
  have hxy : x = y := by rw [← key x u hx hu, h, key y v hy hv]
  subst hxy
  exact ⟨rfl, List.append_cancel_left h⟩

/-- A spelled text that is a prefix of a spelled text up to an optional final
    separator, and stops at a boundary there, covers whole segments. -/
theorem spell_append_eq_spell_append [DecidableEq α] {F P : List (List α)} {t suffix : List α}
    (hF : ∀ s ∈ F, IsSegment sep s) (hP : ∀ s ∈ P, IsSegment sep s)
    (ht : t = [] ∨ t = [sep]) (hsuf : AtBoundary sep suffix)
    (h : spell sep F ++ suffix = spell sep P ++ t) :
    ∃ rest, P = F ++ rest ∧ suffix = spell sep rest ++ t := by
  induction F generalizing P with
  | nil => exact ⟨P, rfl, h⟩
  | cons f F ih =>
    have hf := hF f (List.mem_cons_self ..)
    cases P with
    | nil =>
      exfalso
      have hlen := congrArg List.length h
      have hpos := List.length_pos_of_ne_nil hf.1
      rcases ht with rfl | rfl <;>
        simp only [spell_cons, spell_nil, List.cons_append, List.length_cons, List.length_append,
          List.length_nil] at hlen <;> omega
    | cons p P =>
      have hp := hP p (List.mem_cons_self ..)
      have htb : AtBoundary sep t := by rcases ht with rfl | rfl <;> exact by trivial
      simp only [spell_cons, List.cons_append, List.append_assoc, List.cons.injEq, true_and] at h
      obtain ⟨rfl, hrest⟩ := run_append_inj hf.2 hp.2 (atBoundary_spell F suffix hsuf)
        (atBoundary_spell P t htb) h
      obtain ⟨rest, rfl, hs⟩ := ih (fun s hs => hF s (List.mem_cons_of_mem _ hs))
        (fun s hs => hP s (List.mem_cons_of_mem _ hs)) hrest
      exact ⟨rest, rfl, hs⟩

end Lexical
