/-
  LdPreload.Contract.Climb

  Relative paths through `clean_path_into`.  A `..` that has nothing to take
  away is stored like a name, and the next `..` takes it away: of the levels
  that a path climbs above its start, the cleaned text keeps one when their
  number is odd and none when it is even.  What is cleaned still leads to the
  same place when at most one level is climbed, and from a base so near to the
  root that the other levels have no effect.
-/

import LdPreload.Rtld.Arguments
import LdPreload.Rtld.CleanLimits

namespace LdPreload

open CMem Lexical

/-- A path behind a base goes up first, and then down. -/
theorem resolve_joinText_follow (base path : CString) :
    resolve (joinText base path).chars =
      (course (segments slash path.chars)).follow (resolve base.chars) := by
  rw [resolve_joinText]
  exact walk_eq_follow _ _

/-- Behind a base directory the cleaned text of a relative path leads where
    the path leads exactly when the path climbs one level at most, or the base
    is no deeper than what is left of the climb. -/
theorem leads_same_iff (src : CString) (hrel : isAbsolute src = false) (dst : CharArray)
    (dstLen : Nat) (hcap : dstLen ≤ dst.cap) (t : CString) (h : CleansTo src dst dstLen t)
    (base : CString) :
    resolve (joinText base t).chars = resolve (joinText base src).chars ↔
      climbs src ≤ 1 ∨ (resolve base.chars).length ≤ climbs src % 2 := by
  have hcourse := course_of_relative h hcap hrel
  rw [resolve_joinText_follow, resolve_joinText_follow, hcourse, climbs]
  generalize course (segments slash src.chars) = c
  generalize resolve base.chars = dir
  refine ⟨fun hsame => ?_, fun hcond => ?_⟩
  · -- the lengths tell how many levels were left
    have hlen := congrArg List.length hsame
    rw [Course.length_follow, Course.length_follow] at hlen
    simp only at hlen
    omega
  · have hlevels : dir.length - c.up % 2 = dir.length - c.up := by omega
    rw [Course.follow, Course.follow, hlevels]

/-- `./../x` from `/a/b` -/
theorem one_level_leads_same :
    let src : CString := .ofAscii ['.', '/', '.', '.', '/', 'x']
    let t : CString := .ofAscii ['.', '.', '/', 'x']
    let base : CString := .ofAscii ['/', 'a', '/', 'b']
    resolve (joinText base t).chars = resolve (joinText base src).chars ↔
      climbs src ≤ 1 ∨ (resolve base.chars).length ≤ climbs src % 2 :=
  leads_same_iff (.ofAscii ['.', '/', '.', '.', '/', 'x']) rfl (.uninit 8) 8 (Nat.le_refl _)
    (.ofAscii ['.', '.', '/', 'x']) ⟨⟨8, [46, 46, 47, 120, 0], by decide⟩, rfl, rfl⟩
    (.ofAscii ['/', 'a', '/', 'b'])

/-- `../..` is cleaned to `.`, and leads from `/a/b` to the root no more. -/
theorem two_levels_lost :
    let src : CString := .ofAscii ['.', '.', '/', '.', '.']
    let t : CString := .ofAscii ['.']
    let base : CString := .ofAscii ['/', 'a', '/', 'b']
    isAbsolute src = false ∧ CleansTo src (.uninit 8) 8 t ∧ isAbsolute base = true ∧
      resolve (joinText base t).chars ≠ resolve (joinText base src).chars :=
  ⟨rfl, ⟨⟨8, [46, 0], by decide⟩, rfl, rfl⟩, rfl, by decide⟩

end LdPreload
