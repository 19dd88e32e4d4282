/-
  LdPreload.Contract.Dispatch

  The copies of the dispatch between absolute and relative paths.  Eleven
  wrappers spell it out, the wrappers with two descriptors call a helper, and
  those without a descriptor another one.  Under any policy all of them turn
  the same argument into the same pair, because all of them compute what the
  policy makes of the argument.
-/

import LdPreload.System.Kernel

namespace LdPreload

open CMem Once

/-- The calls, by descriptor and path, whose wrappers spell the dispatch out. -/
inductive SpellsOut : (Int32 → Option CString → Call) → Prop where
  | __fxstatat (ver : Int32) (cstat : Ptr) (flags : Int32) :
      SpellsOut fun dirfd pathname => .__fxstatat ver dirfd pathname cstat flags
  | newfstatat (statbuf : Ptr) (flags : Int32) :
      SpellsOut fun dirfd pathname => .newfstatat dirfd pathname statbuf flags
  | faccessat (mode flags : Int32) :
      SpellsOut fun dirfd pathname => .faccessat dirfd pathname mode flags
  | fchmodat (mode : UInt32) (flags : Int32) :
      SpellsOut fun dirfd pathname => .fchmodat dirfd pathname mode flags
  | mkdirat (mode : UInt32) : SpellsOut fun dirfd pathname => .mkdirat dirfd pathname mode
  | openat (flags : Int32) (mode : UInt32) :
      SpellsOut fun dirfd pathname => .openat dirfd pathname flags mode
  | openat2 (how : Option OpenHow) (size : UInt64) :
      SpellsOut fun dirfd pathname => .openat2 dirfd pathname how size
  | readlinkat (buf : Ptr) (bufsiz : UInt64) :
      SpellsOut fun dirfd pathname => .readlinkat dirfd pathname buf bufsiz
  | statx (flags : Int32) (mask : UInt32) (statxbuf : Ptr) :
      SpellsOut fun dirfd pathname => .statx dirfd pathname flags mask statxbuf
  | unlinkat (flags : Int32) : SpellsOut fun dirfd pathname => .unlinkat dirfd pathname flags
  | utimensat (times : Ptr) (flags : Int32) :
      SpellsOut fun dirfd pathname => .utimensat dirfd pathname times flags

namespace Follows

variable {libc : Libc} {rp : RewritePolicy} {f : PathArg → PathArg}

/-- A wrapper that spells the dispatch out hands on what the helper computes. -/
theorem spellsOut (h : Follows libc rp f) {call : Int32 → Option CString → Call}
    (hcall : SpellsOut call) (dirfd : Int32) (pathname : Option CString) :
    ∃ d p, eval libc rp (rewriteAtArgument dirfd pathname (.uninit pathMax) pathMax) = .ok (d, p) ∧
      eval libc rp (interpose (call dirfd pathname)) =
        .ok (libc.outcome (call d p).effective) := by
  refine ⟨_, _, h.rewrites.atPath dirfd pathname, ?_⟩
  rw [h.forwarded]
  cases hcall <;> rfl

/-- What is given at `AT_FDCWD` stays there. -/
theorem dirfd_of_cwd (h : Follows libc rp f) (relative : Bool) (path : Option CString) :
    (f ⟨relative, atFdcwd, path⟩).dirfd = atFdcwd := (h.keepsCwd _).2 rfl

end Follows

/-- Under every policy, each wrapper that spells the dispatch out forwards the
    pair that `rewrite_at_argument` computes, and the calls at `AT_FDCWD` forward
    the targets of those without a descriptor. -/
theorem dispatch_agrees (env : Environ) (rp : RewritePolicy)
    (hinit : initRewritePolicy env = .ok rp) (libc : Libc) :
    (∀ call, SpellsOut call → ∀ dirfd pathname, ∃ d p,
      eval libc rp (rewriteAtArgument dirfd pathname (.uninit pathMax) pathMax) = .ok (d, p) ∧
        eval libc rp (interpose (call dirfd pathname)) =
          .ok (libc.outcome (call d p).effective)) ∧
      (∀ a b, ∃ x y,
        eval libc rp (interpose (.rename a b)) = .ok (libc.outcome (.rename x y)) ∧
        eval libc rp (interpose (.renameat atFdcwd a atFdcwd b)) =
          .ok (libc.outcome (.renameat atFdcwd x atFdcwd y)) ∧
        eval libc rp (interpose (.renameat2 atFdcwd a atFdcwd b 0)) =
          .ok (libc.outcome (.renameat2 atFdcwd x atFdcwd y 0))) ∧
      (∀ a b, ∃ x y,
        eval libc rp (interpose (.link a b)) = .ok (libc.outcome (.link x y)) ∧
        eval libc rp (interpose (.linkat atFdcwd a atFdcwd b 0)) =
          .ok (libc.outcome (.linkat atFdcwd x atFdcwd y 0))) ∧
      ∀ target linkpath, ∃ x y,
        eval libc rp (interpose (.symlink target linkpath)) = .ok (libc.outcome (.symlink x y)) ∧
        eval libc rp (interpose (.symlinkat target atFdcwd linkpath)) =
          .ok (libc.outcome (.symlinkat x atFdcwd y)) := by
  obtain ⟨f, hf⟩ := exists_follows hinit libc
  have hcwd := hf.dirfd_of_cwd
  refine ⟨fun call hcall => hf.spellsOut hcall, fun a b => ?_, fun a b => ?_,
    fun target linkpath => ?_⟩
  · refine ⟨_, _, hf.forwarded (.rename a b), ?_, ?_⟩
    · simp only [hf.forwarded, Call.effective, Call.mapArgs, hcwd]
    · simp only [hf.forwarded, Call.effective, Call.mapArgs, hcwd]
  · refine ⟨_, _, hf.forwarded (.link a b), ?_⟩
    simp only [hf.forwarded, Call.effective, Call.mapArgs, hcwd]
  · refine ⟨_, _, hf.forwarded (.symlink target linkpath), ?_⟩
    simp only [hf.forwarded, Call.effective, Call.mapArgs, hcwd]

theorem dispatch_agrees_aToB :
    let libc := Kernel.libc ⟨.a, []⟩
    (∀ call, SpellsOut call → ∀ dirfd pathname, ∃ d p,
      eval libc .aToB (rewriteAtArgument dirfd pathname (.uninit pathMax) pathMax) = .ok (d, p) ∧
        eval libc .aToB (interpose (call dirfd pathname)) =
          .ok (libc.outcome (call d p).effective)) ∧
      (∀ a b, ∃ x y,
        eval libc .aToB (interpose (.rename a b)) = .ok (libc.outcome (.rename x y)) ∧
        eval libc .aToB (interpose (.renameat atFdcwd a atFdcwd b)) =
          .ok (libc.outcome (.renameat atFdcwd x atFdcwd y)) ∧
        eval libc .aToB (interpose (.renameat2 atFdcwd a atFdcwd b 0)) =
          .ok (libc.outcome (.renameat2 atFdcwd x atFdcwd y 0))) ∧
      (∀ a b, ∃ x y,
        eval libc .aToB (interpose (.link a b)) = .ok (libc.outcome (.link x y)) ∧
        eval libc .aToB (interpose (.linkat atFdcwd a atFdcwd b 0)) =
          .ok (libc.outcome (.linkat atFdcwd x atFdcwd y 0))) ∧
      ∀ target linkpath, ∃ x y,
        eval libc .aToB (interpose (.symlink target linkpath)) = .ok (libc.outcome (.symlink x y)) ∧
        eval libc .aToB (interpose (.symlinkat target atFdcwd linkpath)) =
          .ok (libc.outcome (.symlinkat x atFdcwd y)) :=
  dispatch_agrees .aToB .aToB init_aToB (Kernel.libc ⟨.a, []⟩)

end LdPreload
