/-
  LdPreload.Contract.Bases

  The three ways to the text that is matched against FROM.  An absolute path
  is cleaned, a path from the current directory is joined to its name and then
  cleaned, and a path from another directory is joined to the cleaned link of
  the descriptor and cleaned again.  Below a directory whose name is in
  canonical form they meet: cleaning keeps such a name, and the join is the
  absolute path.
-/

import LdPreload.Contract.Canonical
import LdPreload.System.Kernel

namespace LdPreload

open CMem Once

variable {libc : Libc} {base : CString}

/-- The name of the current directory is the base as it stands. -/
theorem base_of_getcwd (hsym : libc.resolves .getcwd = true)
    (hget : libc.getcwd pathMax = some base) : libc.base atFdcwd = some base := by
  rw [Libc.base, if_pos rfl, if_pos hsym, hget]

/-- A link in canonical form is the base as it stands, although it has been
    cleaned. -/
theorem base_of_readlink {dirfd : Int32} (hdirfd : dirfd ≠ atFdcwd)
    (hsym : libc.resolves .readlink = true)
    (hread : libc.readlink (fdPath dirfd) (pathMax - 1) = some base) (hcanonical : Canonical base)
    (hshort : base.length < pathMax - 1) : libc.base dirfd = some base := by
  rw [Libc.base, if_neg hdirfd, if_pos hsym, hread]
  simp only
  rw [if_pos ⟨hshort, hcanonical.isAbsolute⟩, cleaned_of_canonical hcanonical (by omega)]

/-- With room for the join, what is cleaned is the absolute path. -/
theorem relativeText_of_base {dirfd : Int32} {path : CString}
    (hbase : libc.base dirfd = some base) (hfits : base.length + 1 + path.length < pathMax) :
    libc.relativeText dirfd path = cleaned (joinText base path) := by
  have hjoined : joined base path = some (joinText base path) :=
    joined_eq_some_iff.mpr (Or.inl ⟨by rw [length_joinText]; exact hfits, rfl⟩)
  rw [Libc.relativeText, hbase, Option.bind_some, hjoined, Option.bind_some]

/-- Below a directory in canonical form, the path from the current directory,
    the path from a descriptor and the absolute path are rewritten alike. -/
theorem bases_agree (env : Environ) (rp : RewritePolicy) (hinit : initRewritePolicy env = .ok rp)
    (henabled : rp.enabled = true) (base : CString) (hcanonical : Canonical base)
    (hshort : base.length < pathMax - 1) (path : CString) (hrel : isAbsolute path = false)
    (hfits : base.length + 1 + path.length < pathMax) (dst : CharArray) (dstLen : Nat)
    (hcap : dstLen ≤ dst.cap) :
    ∃ result, (∀ libc, eval libc rp
        (rewriteAbsolutePath (some (joinText base path)) dst dstLen) = .ok result) ∧
      (∀ libc : Libc, libc.resolves .getcwd = true → libc.getcwd pathMax = some base →
        eval libc rp (rewriteRelativePathFromDirfd atFdcwd (some path) dst dstLen) =
          .ok result) ∧
      (∀ (libc : Libc) dirfd, dirfd ≠ atFdcwd → libc.resolves .readlink = true →
        libc.readlink (fdPath dirfd) (pathMax - 1) = some base →
        eval libc rp (rewriteRelativePathFromDirfd dirfd (some path) dst dstLen) =
          .ok result) := by
  obtain ⟨m, rfl, -, -⟩ := exists_mapping hinit henabled
  obtain ⟨result, hok⟩ := (answers_concluded m (cleaned (joinText base path)) hcap).exists_ok
  have habs := isAbsolute_joinText hcanonical.isAbsolute path
  refine ⟨result, fun libc => ?_, fun libc hsym hget => ?_, fun libc dirfd hdirfd hsym hread => ?_⟩
  · rw [eval_rewriteAbsolutePath_eq, if_pos habs]
    exact hok
  · rw [eval_rewriteRelativePathFromDirfd_eq, if_neg (by simp [hrel]),
      relativeText_of_base (base_of_getcwd hsym hget) hfits]
    exact hok
  · rw [eval_rewriteRelativePathFromDirfd_eq, if_neg (by simp [hrel]),
      relativeText_of_base (base_of_readlink hdirfd hsym hread hcanonical hshort) hfits]
    exact hok

/-- `../a//x/` below `/a` -/
theorem bases_agree_below_a :
    let base : CString := .ofAscii ['/', 'a']
    let path : CString := .ofAscii ['.', '.', '/', 'a', '/', '/', 'x', '/']
    ∃ result, (∀ libc, eval libc .aToB
        (rewriteAbsolutePath (some (joinText base path)) (.uninit 8) 8) = .ok result) ∧
      (∀ libc : Libc, libc.resolves .getcwd = true → libc.getcwd pathMax = some base →
        eval libc .aToB (rewriteRelativePathFromDirfd atFdcwd (some path) (.uninit 8) 8) =
          .ok result) ∧
      (∀ (libc : Libc) dirfd, dirfd ≠ atFdcwd → libc.resolves .readlink = true →
        libc.readlink (fdPath dirfd) (pathMax - 1) = some base →
        eval libc .aToB (rewriteRelativePathFromDirfd dirfd (some path) (.uninit 8) 8) =
          .ok result) :=
  bases_agree .aToB .aToB init_aToB rfl (.ofAscii ['/', 'a']) ⟨[97], rfl, Or.inr (by decide)⟩
    (by decide) (.ofAscii ['.', '.', '/', 'a', '/', '/', 'x', '/']) rfl (by decide) (.uninit 8) 8
    (Nat.le_refl _)

end LdPreload
