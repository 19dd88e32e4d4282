/-
  LdPreload.Path.Relocate

  Relocation of a tree: every node at or below `src` is sent to the same place
  below `dst`, every other node stays.  A node is the list of names that leads
  to it.  The facts here are about lists only; they say when relocating moves
  nothing, that relocating back undoes it, that a tree that is moved away from
  is never reached again, and that a tree that is moved meanwhile is moved
  behind the relocation as well.
-/

import LdPreload.Path.Resolve

namespace Lexical

variable {β : Type*} {src dst p rest : List β}

/-- Send the tree at `src` to `dst`. -/
def relocate [DecidableEq β] (src dst p : List β) : List β :=
  if src <+: p then dst ++ p.drop src.length else p

/-- Neither of two trees contains the other. -/
def Unrelated (src dst : List β) : Prop := ¬ src <+: dst ∧ ¬ dst <+: src

/-- A tree unrelated to `src` holds no node of `src`. -/
theorem Unrelated.outside_append (h : Unrelated src dst) (rest : List β) :
    ¬ src <+: dst ++ rest := by
  intro hp
  rcases List.prefix_or_prefix_of_prefix hp (List.prefix_append dst rest) with h' | h'
  · exact h.1 h'
  · exact h.2 h'

variable [DecidableEq β]

@[simp] theorem relocate_append (src dst rest : List β) :
    relocate src dst (src ++ rest) = dst ++ rest := by
  simp [relocate]

theorem relocate_of_outside (h : ¬ src <+: p) : relocate src dst p = p :=
  if_neg h

/-- What is sent outside of `src`, or stays there, is there. -/
theorem Unrelated.outside_relocate {old new : List β} (h : Unrelated src new) (hp : ¬ src <+: p) :
    ¬ src <+: relocate old new p := by
  by_cases hbelow : old <+: p
  · obtain ⟨rest, rfl⟩ := hbelow
    rw [relocate_append]
    exact h.outside_append rest
  · rwa [relocate_of_outside hbelow]

theorem relocate_self (src p : List β) : relocate src src p = p := by
  by_cases h : src <+: p
  · obtain ⟨rest, rfl⟩ := h
    exact relocate_append src src rest
  · exact relocate_of_outside h

/-- A relocation moves what it applies to, unless it goes nowhere. -/
theorem relocate_eq_self_iff : relocate src dst p = p ↔ ¬ src <+: p ∨ src = dst := by
  refine ⟨fun h => ?_, ?_⟩
  · rw [or_iff_not_imp_left, not_not]
    rintro ⟨rest, rfl⟩
    rw [relocate_append] at h
    exact (List.append_cancel_right h).symm
  · rintro (h | rfl)
    · exact relocate_of_outside h
    · exact relocate_self src p

/-- Relocating back undoes a relocation that applied. -/
theorem relocate_relocate_back (h : src <+: p) : relocate dst src (relocate src dst p) = p := by
  obtain ⟨rest, rfl⟩ := h
  rw [relocate_append, relocate_append]

/-- Below a place that holds nothing of `src`, relocation goes on. -/
theorem relocate_append_of_not_above (h : ¬ p <+: src) (rest : List β) :
    relocate src dst (p ++ rest) = relocate src dst p ++ rest := by
  by_cases hsrc : src <+: p
  · obtain ⟨mid, rfl⟩ := hsrc
    rw [List.append_assoc, relocate_append, relocate_append, List.append_assoc]
  · have hout : ¬ src <+: p ++ rest := by
      intro hp
      rcases List.prefix_or_prefix_of_prefix hp (List.prefix_append p rest) with h' | h'
      · exact hsrc h'
      · exact h h'
    rw [relocate_of_outside hsrc, relocate_of_outside hout]

section Between

variable {old new : List β}

/-- Below a relocated place is what was below it before. -/
theorem relocate_prefix_relocate_iff (hold : ¬ old <+: src) (hdst : Unrelated dst old)
    (hp : ¬ dst <+: p) : relocate src dst old <+: relocate src dst p ↔ old <+: p := by
  refine ⟨fun h => ?_, ?_⟩
  swap
  · rintro ⟨rest, rfl⟩
    rw [relocate_append_of_not_above hold]
    exact List.prefix_append _ _
  by_cases hsrc : src <+: old
  · obtain ⟨mid, rfl⟩ := hsrc
    rw [relocate_append] at h
    by_cases hsrc' : src <+: p
    · obtain ⟨rest, rfl⟩ := hsrc'
      rw [relocate_append, List.prefix_append_right_inj] at h
      rwa [List.prefix_append_right_inj]
    · rw [relocate_of_outside hsrc'] at h
      exact absurd ((List.prefix_append dst mid).trans h) hp
  · rw [relocate_of_outside hsrc] at h
    by_cases hsrc' : src <+: p
    · obtain ⟨rest, rfl⟩ := hsrc'
      rw [relocate_append] at h
      rcases List.prefix_or_prefix_of_prefix h (List.prefix_append dst rest) with h' | h'
      · exact absurd h' hdst.2
      · exact absurd h' hdst.1
    · rwa [relocate_of_outside hsrc'] at h

/-- A relocation from `old` to `new` that stays clear of `src` and `dst`, or
    goes on between them, has the same effect behind the relocation from `src`
    to `dst`. -/
theorem relocate_relocate (hold : ¬ old <+: src) (hnew : ¬ new <+: src)
    (hdst : Unrelated dst old) (hp : ¬ dst <+: p) :
    relocate src dst (relocate old new p) =
      relocate (relocate src dst old) (relocate src dst new) (relocate src dst p) := by
  by_cases hbelow : old <+: p
  · obtain ⟨rest, rfl⟩ := hbelow
    rw [relocate_append, relocate_append_of_not_above hnew, relocate_append_of_not_above hold,
      relocate_append]
  · have hout : ¬ relocate src dst old <+: relocate src dst p := fun h =>
      hbelow ((relocate_prefix_relocate_iff hold hdst hp).mp h)
    rw [relocate_of_outside hbelow, relocate_of_outside hout]

/-- Send the trees at `old` and at `new` to each other's place. -/
def exchange (old new p : List β) : List β :=
  if old <+: p then relocate old new p else relocate new old p

/-- An exchange that stays clear of `src` and `dst`, or goes on between them,
    has the same effect behind the relocation, too. -/
theorem relocate_exchange (hold : ¬ old <+: src) (hnew : ¬ new <+: src)
    (hdst : Unrelated dst old) (hdst' : Unrelated dst new) (hp : ¬ dst <+: p) :
    relocate src dst (exchange old new p) =
      exchange (relocate src dst old) (relocate src dst new) (relocate src dst p) := by
  have hiff := relocate_prefix_relocate_iff hold hdst hp
  unfold exchange
  by_cases hbelow : old <+: p
  · rw [if_pos hbelow, if_pos (hiff.mpr hbelow), relocate_relocate hold hnew hdst hp]
  · rw [if_neg hbelow, if_neg fun h => hbelow (hiff.mp h), relocate_relocate hnew hold hdst' hp]

end Between

/-- Relocation goes along with a course that does not climb out of the tree
    that is relocated. -/
theorem relocate_follow {src dst dir : List (List β)} {c : Course β} (hdir : src <+: dir)
    (hstay : src.length + c.up ≤ dir.length) :
    src <+: c.follow dir ∧ relocate src dst (c.follow dir) = c.follow (relocate src dst dir) := by
  obtain ⟨rest, rfl⟩ := hdir
  rw [List.length_append] at hstay
  have htake : ∀ top : List (List β), c.follow (top ++ rest) =
      top ++ (rest.take (rest.length - c.up) ++ c.down) := by
    intro top
    rw [Course.follow, List.length_append, List.take_append,
      List.take_of_length_le (by omega), List.append_assoc]
    congr 3
    omega
  rw [htake, relocate_append, relocate_append, htake]
  exact ⟨List.prefix_append _ _, rfl⟩

end Lexical
