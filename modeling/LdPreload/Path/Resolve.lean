/-
  LdPreload.Path.Resolve

  Lexical resolution.  Two segment names have a meaning of their own: `here`
  stays in a directory and `parent` leaves it, or stays when there is nothing
  to leave.  `walk` follows a list of segments from a directory, `resolve`
  follows a whole text from the root.  No file system is looked at, so the
  results are what a system without symbolic links would find.
-/

import LdPreload.Path.Segments

namespace Lexical

variable {α : Type*} [DecidableEq α] {sep : α} {here parent : List α}

/-- A segment that names an entry of a directory. -/
def IsName (sep : α) (here parent s : List α) : Prop :=
  IsSegment sep s ∧ s ≠ here ∧ s ≠ parent

instance (sep : α) (here parent s : List α) : Decidable (IsName sep here parent s) :=
  inferInstanceAs (Decidable (_ ∧ _))

/-- One segment followed from the directory `dir`. -/
def walkStep (here parent : List α) (dir : List (List α)) (s : List α) : List (List α) :=
  if s = here then dir else if s = parent then dir.dropLast else dir ++ [s]

/-- A list of segments followed from the directory `dir`. -/
def walk (here parent : List α) (dir segs : List (List α)) : List (List α) :=
  segs.foldl (walkStep here parent) dir

/-- A text followed from the root. -/
def resolve (sep : α) (here parent l : List α) : List (List α) :=
  walk here parent [] (segments sep l)

/-! ## Walking -/

@[simp] theorem walk_nil (dir : List (List α)) : walk here parent dir [] = dir := rfl

theorem walk_cons (dir : List (List α)) (s : List α) (segs : List (List α)) :
    walk here parent dir (s :: segs) = walk here parent (walkStep here parent dir s) segs := rfl

theorem walk_append (dir xs ys : List (List α)) :
    walk here parent dir (xs ++ ys) = walk here parent (walk here parent dir xs) ys :=
  List.foldl_append ..

/-- Names only go down. -/
theorem walk_of_names {segs : List (List α)} (h : ∀ s ∈ segs, s ≠ here ∧ s ≠ parent)
    (dir : List (List α)) : walk here parent dir segs = dir ++ segs := by
  induction segs generalizing dir with
  | nil => simp
  | cons s segs ih =>
    obtain ⟨hhere, hparent⟩ := h s (List.mem_cons_self ..)
    rw [walk_cons, walkStep, if_neg hhere, if_neg hparent,
      ih (fun t ht => h t (List.mem_cons_of_mem _ ht)), List.append_assoc,
      List.singleton_append]

/-- Without `parent` a walk from a directory stays below it, and what it adds
    does not depend on the directory. -/
theorem walk_of_not_parent {segs : List (List α)} (h : parent ∉ segs) (dir : List (List α)) :
    walk here parent dir segs = dir ++ segs.filter (· ≠ here) := by
  induction segs generalizing dir with
  | nil => simp
  | cons s segs ih =>
    rw [List.mem_cons, not_or] at h
    rw [walk_cons, ih h.2, walkStep, List.filter_cons]
    by_cases hs : s = here
    · simp [hs]
    · simp [hs, Ne.symm h.1]

/-- A walk does not add to what it is told. -/
theorem sum_walk_le (dir segs : List (List α)) :
    ((walk here parent dir segs).map (·.length + 1)).sum ≤
      (dir.map (·.length + 1)).sum + (segs.map (·.length + 1)).sum := by
  induction segs generalizing dir with
  | nil => simp
  | cons s segs ih =>
    have hstep : ((walkStep here parent dir s).map (·.length + 1)).sum ≤
        (dir.map (·.length + 1)).sum + (s.length + 1) := by
      rw [walkStep]
      split
      · omega
      · split
        · rcases dir.eq_nil_or_concat with rfl | ⟨init, last, rfl⟩
          · simp
          · rw [List.concat_eq_append, List.dropLast_concat, List.map_append, List.sum_append]
            omega
        · simp
    have := ih (walkStep here parent dir s)
    rw [walk_cons, List.map_cons, List.sum_cons]
    omega

theorem isName_of_mem_walk {dir segs : List (List α)}
    (hdir : ∀ s ∈ dir, IsName sep here parent s) (hsegs : ∀ s ∈ segs, IsSegment sep s) :
    ∀ s ∈ walk here parent dir segs, IsName sep here parent s := by
  induction segs generalizing dir with
  | nil => exact hdir
  | cons s segs ih =>
    rw [walk_cons]
    refine ih ?_ fun t ht => hsegs t (List.mem_cons_of_mem _ ht)
    intro t ht
    rw [walkStep] at ht
    split at ht
    · exact hdir t ht
    · split at ht
      · exact hdir t (List.dropLast_subset _ ht)
      · rcases List.mem_append.mp ht with ht | ht
        · exact hdir t ht
        · rw [List.mem_singleton] at ht
          subst ht
          exact ⟨hsegs t (List.mem_cons_self ..), ‹_›, ‹_›⟩

/-! ## Courses

What a list of segments does from a start that is not known: it climbs some
levels above the start and goes down by some names from there. -/

/-- Levels above the start, and the names below the place reached by them. -/
structure Course (α : Type*) where
  up : Nat
  down : List (List α)

namespace Course

/-- One segment more. -/
def step (here parent : List α) (c : Course α) (s : List α) : Course α :=
  if s = here then c
  else if s = parent then if c.down = [] then ⟨c.up + 1, []⟩ else ⟨c.up, c.down.dropLast⟩
  else ⟨c.up, c.down ++ [s]⟩

/-- Where a course leads from a directory. -/
def follow (c : Course α) (dir : List (List α)) : List (List α) :=
  dir.take (dir.length - c.up) ++ c.down

/-- Names only go down. -/
theorem foldl_step_of_names {segs : List (List α)} (h : ∀ s ∈ segs, s ≠ here ∧ s ≠ parent)
    (c : Course α) : segs.foldl (step here parent) c = ⟨c.up, c.down ++ segs⟩ := by
  induction segs generalizing c with
  | nil => rw [List.append_nil, List.foldl_nil]
  | cons s segs ih =>
    obtain ⟨hhere, hparent⟩ := h s (List.mem_cons_self ..)
    rw [List.foldl_cons, step, if_neg hhere, if_neg hparent,
      ih fun t ht => h t (List.mem_cons_of_mem _ ht), List.append_assoc, List.singleton_append]

theorem follow_step (c : Course α) (dir : List (List α)) (s : List α) :
    (c.step here parent s).follow dir = walkStep here parent (c.follow dir) s := by
  unfold step walkStep
  split
  · rfl
  · split
    · by_cases hdown : c.down = []
      · -- one more level of the directory goes
        rw [if_pos hdown, follow, follow, hdown, List.append_nil, List.append_nil,
          List.dropLast_eq_take, List.take_take, List.length_take]
        congr 1
        show dir.length - (c.up + 1) = _
        omega
      · rw [if_neg hdown, follow, follow, List.dropLast_append_of_ne_nil hdown]
    · rw [follow, follow, List.append_assoc]

omit [DecidableEq α] in
theorem length_follow (c : Course α) (dir : List (List α)) :
    (c.follow dir).length = dir.length - c.up + c.down.length := by
  rw [follow, List.length_append, List.length_take, Nat.min_eq_left (Nat.sub_le ..)]

end Course

/-- The course of a list of segments. -/
def course (here parent : List α) (segs : List (List α)) : Course α :=
  segs.foldl (Course.step here parent) ⟨0, []⟩

/-- A walk follows the course of its segments. -/
theorem walk_eq_follow (dir segs : List (List α)) :
    walk here parent dir segs = (course here parent segs).follow dir := by
  have key : ∀ c : Course α, walk here parent (c.follow dir) segs =
      (segs.foldl (Course.step here parent) c).follow dir := by
    induction segs with
    | nil => exact fun c => rfl
    | cons s segs ih =>
      intro c
      rw [walk_cons, ← Course.follow_step, ih, List.foldl_cons]
  have hstart : (⟨0, []⟩ : Course α).follow dir = dir := by
    rw [Course.follow, List.append_nil, Nat.sub_zero, List.take_length]
  have hwalk := key ⟨0, []⟩
  rw [hstart] at hwalk
  exact hwalk

/-- What a course goes down by are segments other than the two special ones. -/
theorem mem_down_course {segs : List (List α)} {s : List α}
    (h : s ∈ (course here parent segs).down) : s ∈ segs ∧ s ≠ here ∧ s ≠ parent := by
  unfold course at h
  induction segs using List.reverseRecOn with
  | nil => exact absurd h List.not_mem_nil
  | append_singleton segs seg ih =>
    have hold : s ∈ (segs.foldl (Course.step here parent) ⟨0, []⟩).down →
        s ∈ segs ++ [seg] ∧ s ≠ here ∧ s ≠ parent :=
      fun hs => ⟨List.mem_append_left _ (ih hs).1, (ih hs).2⟩
    rw [List.foldl_append, List.foldl_cons, List.foldl_nil, Course.step] at h
    split at h
    · exact hold h
    · split at h
      · split at h
        · exact absurd h List.not_mem_nil
        · exact hold (List.dropLast_subset _ h)
      · rcases List.mem_append.mp h with h | h
        · exact hold h
        · rw [List.mem_singleton] at h
          subst h
          exact ⟨List.mem_append_right _ (List.mem_singleton_self _), ‹_›, ‹_›⟩

/-! ## Resolving -/

theorem isName_of_mem_resolve (l : List α) :
    ∀ s ∈ resolve sep here parent l, IsName sep here parent s :=
  isName_of_mem_walk (by simp) fun _ hs => isSegment_of_mem_segments hs

/-- What follows a separator is walked from where the text before it leads. -/
theorem resolve_append_sep (a b : List α) :
    resolve sep here parent (a ++ sep :: b) =
      walk here parent (resolve sep here parent a) (segments sep b) := by
  rw [resolve, segments_append_sep, walk_append, resolve]

/-- A text that spells names leads to just these names, also with one
    separator behind it. -/
theorem resolve_spell_append {segs : List (List α)}
    (h : ∀ s ∈ segs, IsName sep here parent s) {t : List α} (ht : t = [] ∨ t = [sep]) :
    resolve sep here parent (spell sep segs ++ t) = segs := by
  have hsegs : segments sep (spell sep segs ++ t) = segs := by
    rcases ht with rfl | rfl
    · rw [List.append_nil, segments_spell fun s hs => (h s hs).1]
    · rw [segments_append_singleton, segments_spell fun s hs => (h s hs).1]
  rw [resolve, hsegs, walk_of_names fun s hs => (h s hs).2, List.nil_append]

end Lexical
