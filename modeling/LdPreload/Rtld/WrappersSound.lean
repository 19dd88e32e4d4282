/-
  LdPreload.Rtld.WrappersSound

  Every wrapper treats each of its path arguments in one of two ways, and does
  nothing else to the call: `PathArg` is such an argument, and
  `Mapping.forwardArg` is what becomes of it.  `eval_interpose` reduces all
  wrappers to that one function, so that a property of the interposed surface
  is a property of one argument.

  All of them consult the policy before they peek at it (`guarded_interpose`,
  `guarded_getcwd`), hence they may be evaluated under the policy in force.
-/

import LdPreload.Rtld.RewriteSound
import LdPreload.Rtld.Wrappers

namespace LdPreload

open CMem Once

/-! ## Path arguments -/

/-- A path argument: whether its wrapper rewrites relative paths, the
    descriptor that they are relative to, and the path. -/
@[ext] structure PathArg where
  relative : Bool
  dirfd : Int32
  path : Option CString
deriving DecidableEq

namespace Call

/-- The path arguments of a call, from left to right. -/
def args : Call → List PathArg
  | .__fxstatat _ dirfd pathname _ _ | .newfstatat dirfd pathname _ _
  | .faccessat dirfd pathname _ _ | .fchmodat dirfd pathname _ _ | .mkdirat dirfd pathname _
  | .openat dirfd pathname _ _ | .openat2 dirfd pathname _ _ | .readlinkat dirfd pathname _ _
  | .statx dirfd pathname _ _ _ | .unlinkat dirfd pathname _ | .utimensat dirfd pathname _ _ =>
    [⟨true, dirfd, pathname⟩]
  | .access pathname _ | .chdir pathname | .execve pathname _ _ | .euidaccess pathname _
  | .statfs pathname _ => [⟨true, atFdcwd, pathname⟩]
  | .__lxstat _ pathname _ | .__xstat _ pathname _ | .creat pathname _ | .mkdir pathname _
  | .open pathname _ _ | .readlink pathname _ _ | .lstat pathname _ | .rmdir pathname
  | .stat pathname _ | .truncate pathname _ | .unlink pathname => [⟨false, atFdcwd, pathname⟩]
  | .link oldpath newpath | .rename oldpath newpath =>
    [⟨true, atFdcwd, oldpath⟩, ⟨true, atFdcwd, newpath⟩]
  | .linkat olddirfd oldpath newdirfd newpath _ | .renameat olddirfd oldpath newdirfd newpath
  | .renameat2 olddirfd oldpath newdirfd newpath _ =>
    [⟨true, olddirfd, oldpath⟩, ⟨true, newdirfd, newpath⟩]
  | .symlink target linkpath => [⟨false, atFdcwd, target⟩, ⟨true, atFdcwd, linkpath⟩]
  | .symlinkat target newdirfd linkpath => [⟨false, atFdcwd, target⟩, ⟨true, newdirfd, linkpath⟩]
  | .close _ => []

/-- The call with its path arguments changed by `f`, where its signature has
    room for the change. -/
def mapArgs (f : PathArg → PathArg) : Call → Call
  | .__fxstatat ver dirfd pathname cstat flags =>
    let a := f ⟨true, dirfd, pathname⟩
    .__fxstatat ver a.dirfd a.path cstat flags
  | .newfstatat dirfd pathname statbuf flags =>
    let a := f ⟨true, dirfd, pathname⟩
    .newfstatat a.dirfd a.path statbuf flags
  | .faccessat dirfd pathname mode flags =>
    let a := f ⟨true, dirfd, pathname⟩
    .faccessat a.dirfd a.path mode flags
  | .fchmodat dirfd pathname mode flags =>
    let a := f ⟨true, dirfd, pathname⟩
    .fchmodat a.dirfd a.path mode flags
  | .mkdirat dirfd pathname mode =>
    let a := f ⟨true, dirfd, pathname⟩
    .mkdirat a.dirfd a.path mode
  | .openat dirfd pathname flags mode =>
    let a := f ⟨true, dirfd, pathname⟩
    .openat a.dirfd a.path flags mode
  | .openat2 dirfd pathname how size =>
    let a := f ⟨true, dirfd, pathname⟩
    .openat2 a.dirfd a.path how size
  | .readlinkat dirfd pathname buf bufsiz =>
    let a := f ⟨true, dirfd, pathname⟩
    .readlinkat a.dirfd a.path buf bufsiz
  | .statx dirfd pathname flags mask statxbuf =>
    let a := f ⟨true, dirfd, pathname⟩
    .statx a.dirfd a.path flags mask statxbuf
  | .unlinkat dirfd pathname flags =>
    let a := f ⟨true, dirfd, pathname⟩
    .unlinkat a.dirfd a.path flags
  | .utimensat dirfd pathname times flags =>
    let a := f ⟨true, dirfd, pathname⟩
    .utimensat a.dirfd a.path times flags
  | .access pathname mode => .access (f ⟨true, atFdcwd, pathname⟩).path mode
  | .chdir path => .chdir (f ⟨true, atFdcwd, path⟩).path
  | .execve pathname argv envp => .execve (f ⟨true, atFdcwd, pathname⟩).path argv envp
  | .euidaccess pathname mode => .euidaccess (f ⟨true, atFdcwd, pathname⟩).path mode
  | .statfs path buf => .statfs (f ⟨true, atFdcwd, path⟩).path buf
  | .__lxstat ver pathname cstat => .__lxstat ver (f ⟨false, atFdcwd, pathname⟩).path cstat
  | .__xstat ver pathname cstat => .__xstat ver (f ⟨false, atFdcwd, pathname⟩).path cstat
  | .creat pathname mode => .creat (f ⟨false, atFdcwd, pathname⟩).path mode
  | .mkdir pathname mode => .mkdir (f ⟨false, atFdcwd, pathname⟩).path mode
  | .open pathname flags mode => .open (f ⟨false, atFdcwd, pathname⟩).path flags mode
  | .readlink pathname buf bufsiz => .readlink (f ⟨false, atFdcwd, pathname⟩).path buf bufsiz
  | .lstat pathname cstat => .lstat (f ⟨false, atFdcwd, pathname⟩).path cstat
  | .rmdir pathname => .rmdir (f ⟨false, atFdcwd, pathname⟩).path
  | .stat pathname cstat => .stat (f ⟨false, atFdcwd, pathname⟩).path cstat
  | .truncate pathname length => .truncate (f ⟨false, atFdcwd, pathname⟩).path length
  | .unlink pathname => .unlink (f ⟨false, atFdcwd, pathname⟩).path
  | .link oldpath newpath =>
    .link (f ⟨true, atFdcwd, oldpath⟩).path (f ⟨true, atFdcwd, newpath⟩).path
  | .rename oldpath newpath =>
    .rename (f ⟨true, atFdcwd, oldpath⟩).path (f ⟨true, atFdcwd, newpath⟩).path
  | .linkat olddirfd oldpath newdirfd newpath flags =>
    let a := f ⟨true, olddirfd, oldpath⟩
    let b := f ⟨true, newdirfd, newpath⟩
    .linkat a.dirfd a.path b.dirfd b.path flags
  | .renameat olddirfd oldpath newdirfd newpath =>
    let a := f ⟨true, olddirfd, oldpath⟩
    let b := f ⟨true, newdirfd, newpath⟩
    .renameat a.dirfd a.path b.dirfd b.path
  | .renameat2 olddirfd oldpath newdirfd newpath flags =>
    let a := f ⟨true, olddirfd, oldpath⟩
    let b := f ⟨true, newdirfd, newpath⟩
    .renameat2 a.dirfd a.path b.dirfd b.path flags
  | .symlink target linkpath =>
    .symlink (f ⟨false, atFdcwd, target⟩).path (f ⟨true, atFdcwd, linkpath⟩).path
  | .symlinkat target newdirfd linkpath =>
    let b := f ⟨true, newdirfd, linkpath⟩
    .symlinkat (f ⟨false, atFdcwd, target⟩).path b.dirfd b.path
  | .close fd => .close fd

/-- The call as it goes on when no path is rewritten: the variadic wrappers
    pass a mode only where the flags ask for one. -/
def effective : Call → Call
  | .open pathname flags mode => .open pathname flags (variadicMode flags mode)
  | .openat dirfd pathname flags mode => .openat dirfd pathname flags (variadicMode flags mode)
  | c => c

/-- A change of arguments that leaves descriptors alone where there is none. -/
def KeepsCwd (f : PathArg → PathArg) : Prop :=
  ∀ a, (f a).relative = a.relative ∧ (a.dirfd = atFdcwd → (f a).dirfd = atFdcwd)

theorem args_mapArgs {f : PathArg → PathArg} (hf : KeepsCwd f) (c : Call) :
    (c.mapArgs f).args = c.args.map f := by
  -- the call says of its arguments whether they are followed, and `f` keeps that
  have hrel : ∀ {relative dirfd path}, (⟨relative, (f ⟨relative, dirfd, path⟩).dirfd,
      (f ⟨relative, dirfd, path⟩).path⟩ : PathArg) = f ⟨relative, dirfd, path⟩ := by
    intro relative dirfd path
    exact PathArg.ext (hf ⟨relative, dirfd, path⟩).1.symm rfl rfl
  have hcwd : ∀ {relative path},
      (⟨relative, atFdcwd, (f ⟨relative, atFdcwd, path⟩).path⟩ : PathArg) =
        f ⟨relative, atFdcwd, path⟩ := by
    intro relative path
    have h := @hrel relative atFdcwd path
    rwa [(hf ⟨relative, atFdcwd, path⟩).2 rfl] at h
  cases c <;> simp [args, mapArgs, hrel, hcwd]

@[simp] theorem args_effective (c : Call) : c.effective.args = c.args := by
  cases c <;> rfl

@[simp] theorem symbol_effective (c : Call) : c.effective.symbol = c.symbol := by
  cases c <;> rfl

@[simp] theorem symbol_mapArgs (f : PathArg → PathArg) (c : Call) :
    (c.mapArgs f).symbol = c.symbol := by
  cases c <;> rfl

/-- A call whose arguments stay as they are, stays as it is. -/
theorem mapArgs_of_fixed {f : PathArg → PathArg} {c : Call} (h : ∀ a ∈ c.args, f a = a) :
    c.mapArgs f = c := by
  cases c <;> simp [args] at h <;> simp [mapArgs, h]

end Call

/-- The end of a wrapper. -/
def Libc.outcome (libc : Libc) (c : Call) : Outcome :=
  if libc.resolves c.symbol then .forwarded c else .enosys

theorem eval_orig (libc : Libc) (k : RewritePolicy) (c : Call) :
    eval libc k (orig c) = .ok (libc.outcome c) := by
  rw [orig, eval_bind_ok eval_look, Libc.outcome]
  split <;> rfl

/-! ## All wrappers at once -/

/-- Under the policy `k` the helpers of the wrappers change arguments by `f`. -/
structure Rewrites (libc : Libc) (k : RewritePolicy) (f : PathArg → PathArg) : Prop where
  path : ∀ p, eval libc k (rewritePathArgument p (.uninit pathMax) pathMax) =
    .ok (f ⟨false, atFdcwd, p⟩).path
  cwdPath : ∀ p, eval libc k (rewriteCwdRelativeArgument p (.uninit pathMax) pathMax) =
    .ok (f ⟨true, atFdcwd, p⟩).path
  atPath : ∀ d p, eval libc k (rewriteAtArgument d p (.uninit pathMax) pathMax) =
    .ok ((f ⟨true, d, p⟩).dirfd, (f ⟨true, d, p⟩).path)
  dirfdPath : ∀ d p call, eval libc k (Wrapper.onDirfdPath d p call) =
    .ok (libc.outcome (call (f ⟨true, d, p⟩).dirfd (f ⟨true, d, p⟩).path))
  payload : ∀ p, p.any (·.charAt 0 == slash) = false → (f ⟨false, atFdcwd, p⟩).path = p

namespace Rewrites

variable {libc : Libc} {k : RewritePolicy} {f : PathArg → PathArg}

theorem eval_onPath (h : Rewrites libc k f) (p : Option CString) (call : Option CString → Call) :
    eval libc k (Wrapper.onPath p call) =
      .ok (libc.outcome (call (f ⟨false, atFdcwd, p⟩).path)) := by
  rw [Wrapper.onPath, eval_bind_ok (h.path p), eval_orig]

theorem eval_onCwdPath (h : Rewrites libc k f) (p : Option CString)
    (call : Option CString → Call) :
    eval libc k (Wrapper.onCwdPath p call) =
      .ok (libc.outcome (call (f ⟨true, atFdcwd, p⟩).path)) := by
  rw [Wrapper.onCwdPath, eval_bind_ok (h.cwdPath p), eval_orig]

theorem eval_onDirfdPaths (h : Rewrites libc k f) (d d' : Int32) (p p' : Option CString)
    (call : Int32 → Option CString → Int32 → Option CString → Call) :
    eval libc k (Wrapper.onDirfdPaths d p d' p' call) =
      .ok (libc.outcome (call (f ⟨true, d, p⟩).dirfd (f ⟨true, d, p⟩).path
        (f ⟨true, d', p'⟩).dirfd (f ⟨true, d', p'⟩).path)) := by
  rw [Wrapper.onDirfdPaths, eval_bind_ok (h.atPath d p)]
  simp only
  rw [eval_bind_ok (h.atPath d' p'), eval_orig]

theorem eval_symlink (h : Rewrites libc k f) (target linkpath : Option CString) :
    eval libc k (Wrapper.symlink target linkpath) =
      .ok (libc.outcome (.symlink (f ⟨false, atFdcwd, target⟩).path
        (f ⟨true, atFdcwd, linkpath⟩).path)) := by
  unfold Wrapper.symlink
  cases habs : target.any (·.charAt 0 == slash) with
  | true =>
    simp only [if_true]
    rw [eval_bind_ok (h.path target), eval_bind_ok (h.cwdPath linkpath), eval_orig]
  -- a relative payload is passed by, which comes to the same
  | false =>
    simp only [Bool.false_eq_true, if_false]
    rw [eval_bind_ok (h.cwdPath linkpath), eval_orig, h.payload target habs]

theorem eval_symlinkat (h : Rewrites libc k f) (target : Option CString) (d : Int32)
    (linkpath : Option CString) :
    eval libc k (Wrapper.symlinkat target d linkpath) =
      .ok (libc.outcome (.symlinkat (f ⟨false, atFdcwd, target⟩).path
        (f ⟨true, d, linkpath⟩).dirfd (f ⟨true, d, linkpath⟩).path)) := by
  unfold Wrapper.symlinkat
  rw [eval_bind_ok (h.atPath d linkpath)]
  cases habs : target.any (·.charAt 0 == slash) with
  | true =>
    simp only [if_true]
    rw [eval_bind_ok (h.path target), eval_orig]
  | false =>
    simp only [Bool.false_eq_true, if_false]
    rw [eval_orig, h.payload target habs]

/-- A wrapper changes the path arguments of its call, and nothing else. -/
theorem eval_interpose (h : Rewrites libc k f) (c : Call) :
    eval libc k (interpose c) = .ok (libc.outcome (c.effective.mapArgs f)) := by
  -- the families one after the other; calls with a shape of their own first
  cases c with
  -- two paths from the current directory
  | link oldpath newpath =>
    show eval libc k (Wrapper.link oldpath newpath) = _
    rw [Wrapper.link, eval_bind_ok (h.cwdPath oldpath), eval_bind_ok (h.cwdPath newpath), eval_orig]
    rfl
  | rename oldpath newpath =>
    show eval libc k (Wrapper.rename oldpath newpath) = _
    rw [Wrapper.rename, eval_bind_ok (h.cwdPath oldpath), eval_bind_ok (h.cwdPath newpath),
      eval_orig]
    rfl
  -- two descriptors
  | linkat | renameat | renameat2 =>
    simp only [interpose, Wrapper.linkat, Wrapper.renameat, Wrapper.renameat2, h.eval_onDirfdPaths]
    rfl
  | symlink target linkpath => exact h.eval_symlink target linkpath
  | symlinkat target d linkpath => exact h.eval_symlinkat target d linkpath
  | close fd => exact eval_orig libc k (.close fd)
  -- one path: from the current directory, absolute only, from a descriptor
  | access | chdir | execve | euidaccess | statfs => exact h.eval_onCwdPath _ _
  | __lxstat | __xstat | creat | mkdir | «open» | readlink | lstat | rmdir | stat | truncate
  | unlink => exact h.eval_onPath _ _
  | __fxstatat | newfstatat | faccessat | fchmodat | mkdirat | openat | openat2 | readlinkat
  | statx | unlinkat | utimensat =>
    simp only [interpose, Wrapper.__fxstatat, Wrapper.newfstatat, Wrapper.faccessat,
      Wrapper.fchmodat, Wrapper.mkdirat, Wrapper.openat, Wrapper.openat2, Wrapper.readlinkat,
      Wrapper.statx, Wrapper.unlinkat, Wrapper.utimensat, h.dirfdPath]
    rfl

end Rewrites

/-! ## The two kinds of policies -/

namespace Mapping

/-- What takes the place of an argument, if anything does. -/
def argTarget (m : Mapping) (libc : Libc) (a : PathArg) : Option CString :=
  a.path.bind fun path =>
    if isAbsolute path then m.absoluteTarget path
    else if a.relative then m.relativeTarget libc a.dirfd path else none

/-- The argument that is handed on. -/
def forwardArg (m : Mapping) (libc : Libc) (a : PathArg) : PathArg :=
  match m.argTarget libc a with
  | some t => ⟨a.relative, if a.path.any isAbsolute then a.dirfd else atFdcwd, some t⟩
  | none => a

theorem keepsCwd_forwardArg (m : Mapping) (libc : Libc) : Call.KeepsCwd (m.forwardArg libc) := by
  intro a
  unfold forwardArg
  split
  · exact ⟨rfl, fun h => by rw [h, ite_self]⟩
  · exact ⟨rfl, id⟩

variable {libc : Libc} (m : Mapping)

theorem eval_rewritePathArgument (p : Option CString) (relative : Bool) (d : Int32)
    (h : relative = false ∨ p.any (·.charAt 0 == slash) = true) :
    eval libc m.policy (rewritePathArgument p (.uninit pathMax) pathMax) =
      .ok (m.forwardArg libc ⟨relative, d, p⟩).path := by
  cases p with
  | none => rfl
  | some path =>
    have hspec : Answers (m.absoluteTarget path)
        (eval libc m.policy (rewriteAbsolutePath (some path) (.uninit pathMax) pathMax)) :=
      eval_rewriteAbsolutePath m path rfl
    have htarget : m.argTarget libc ⟨relative, d, some path⟩ = m.absoluteTarget path := by
      rw [argTarget, Option.bind_some]
      -- the helper for absolute paths is called for no other argument
      by_cases habs : isAbsolute path = true
      · rw [if_pos habs]
      · rcases h with rfl | h
        · rw [if_neg habs, if_neg (by simp), absoluteTarget, if_neg habs]
        · exact absurd h habs
    rw [forwardArg, htarget]
    cases ht : m.absoluteTarget path with
    | none =>
      rw [ht] at hspec
      obtain ⟨dst, hok⟩ := hspec
      show eval libc m.policy (rewriteAbsolutePath (some path) (.uninit pathMax) pathMax >>= _) = _
      rw [eval_bind_ok hok]
      rfl
    | some t =>
      rw [ht] at hspec
      obtain ⟨dst, hok, hstring⟩ := hspec
      show eval libc m.policy (rewriteAbsolutePath (some path) (.uninit pathMax) pathMax >>= _) = _
      rw [eval_bind_ok hok]
      show eval libc m.policy (liftM dst.string >>= _) = _
      rw [eval_lift_bind_ok hstring]
      rfl

/-- A relative argument, as the helpers and the wrappers go on with it. -/
theorem eval_relative_bind {β : Type} (d : Int32) {path : CString} (hrel : ¬ isAbsolute path = true)
    (g : Int32 → Option CString → Interp β) :
    eval libc m.policy (rewriteRelativePathFromDirfd d (some path) (.uninit pathMax) pathMax >>=
      fun (status, buf) => if status ≠ 0 then do g atFdcwd (some (← buf.string))
        else g d (some path)) =
      eval libc m.policy (g (m.forwardArg libc ⟨true, d, some path⟩).dirfd
        (m.forwardArg libc ⟨true, d, some path⟩).path) := by
  have hspec : Answers (m.relativeTarget libc d path)
      (eval libc m.policy (rewriteRelativePathFromDirfd d (some path) (.uninit pathMax) pathMax)) :=
    eval_rewriteRelativePathFromDirfd m d path rfl
  have htarget : m.argTarget libc ⟨true, d, some path⟩ = m.relativeTarget libc d path := by
    rw [argTarget, Option.bind_some, if_neg hrel, if_pos rfl]
  have hany : (some path).any isAbsolute = false := by simpa using hrel
  rw [forwardArg, htarget]
  cases ht : m.relativeTarget libc d path with
  | none =>
    rw [ht] at hspec
    obtain ⟨dst, hok⟩ := hspec
    rw [eval_bind_ok hok]
    rfl
  | some t =>
    rw [ht] at hspec
    obtain ⟨dst, hok, hstring⟩ := hspec
    rw [eval_bind_ok hok]
    show eval libc m.policy (liftM dst.string >>= _) = _
    rw [eval_lift_bind_ok hstring]
    simp only [hany]
    rfl

/-- An enabled policy rewrites as its mapping says. -/
theorem rewrites (libc : Libc) : Rewrites libc m.policy (m.forwardArg libc) where
  path p := m.eval_rewritePathArgument p false atFdcwd (Or.inl rfl)
  cwdPath p := by
    cases p with
    | none => rfl
    | some path =>
      unfold rewriteCwdRelativeArgument
      by_cases habs : isAbsolute path = true
      · simp only [if_pos (charAt_zero_eq_slash.mpr habs)]
        exact m.eval_rewritePathArgument (some path) true atFdcwd (Or.inr habs)
      · have hslash : ¬ path.charAt 0 = slash := fun h => habs (charAt_zero_eq_slash.mp h)
        simp only [if_neg hslash]
        exact m.eval_relative_bind atFdcwd habs fun _ p => pure p
  atPath d p := by
    cases p with
    | none => rfl
    | some path =>
      unfold rewriteAtArgument
      by_cases habs : isAbsolute path = true
      · simp only [if_pos (charAt_zero_eq_slash.mpr habs)]
        rw [eval_bind_ok (m.eval_rewritePathArgument (some path) true d (Or.inr habs)), eval_pure]
        have hdirfd : (m.forwardArg libc ⟨true, d, some path⟩).dirfd = d := by
          unfold forwardArg
          split <;> simp [habs]
        rw [hdirfd]
      · have hslash : ¬ path.charAt 0 = slash := fun h => habs (charAt_zero_eq_slash.mp h)
        simp only [if_neg hslash]
        exact m.eval_relative_bind d habs fun d p => pure (d, p)
  dirfdPath d p call := by
    cases p with
    | none => exact eval_orig libc m.policy (call d none)
    | some path =>
      unfold Wrapper.onDirfdPath
      by_cases habs : isAbsolute path = true
      · -- an absolute path keeps the descriptor, rewritten or not
        have hdirfd : (m.forwardArg libc ⟨true, d, some path⟩).dirfd = d := by
          unfold forwardArg
          split <;> simp [habs]
        rw [if_pos (show (some path).any (·.charAt 0 == slash) = true from habs),
          eval_bind_ok (m.eval_rewritePathArgument (some path) true d (Or.inr habs)), eval_orig,
          hdirfd]
      · rw [if_neg (show ¬ (some path).any (·.charAt 0 == slash) = true from habs), ← eval_orig]
        exact m.eval_relative_bind d habs fun d p => orig (call d p)
  payload p hp := by
    cases p with
    | none => rfl
    | some path =>
      have habs : ¬ isAbsolute path = true := by
        intro h
        have hp' : isAbsolute path = false := hp
        rw [h] at hp'
        exact absurd hp' (by decide)
      rw [forwardArg, argTarget, Option.bind_some, if_neg habs, if_neg (by simp)]

end Mapping

theorem eval_rewriteAbsolutePath_of_disabled (libc : Libc) {k : RewritePolicy}
    (hk : k.enabled = false) (path : Option CString) (dst : CharArray) :
    eval libc k (rewriteAbsolutePath path dst pathMax) = .ok (0, dst) := by
  cases path with
  | none => rfl
  | some path => rw [eval_rewriteAbsolutePath_eq, concluded_of_disabled hk]

/-- A disabled policy leaves every argument alone. -/
theorem rewrites_of_disabled (libc : Libc) {k : RewritePolicy} (hk : k.enabled = false) :
    Rewrites libc k id := by
  have habsolute := eval_rewriteAbsolutePath_of_disabled libc hk
  -- both rewriting functions return 0 as soon as they have seen the policy
  have hrelative : ∀ d path dst,
      eval libc k (rewriteRelativePathFromDirfd d path dst pathMax) = .ok (0, dst) := by
    intro d path dst
    cases path with
    | none => rfl
    | some path => rw [eval_rewriteRelativePathFromDirfd_eq, concluded_of_disabled hk]
  have hpath : ∀ p, eval libc k (rewritePathArgument p (.uninit pathMax) pathMax) = .ok p := by
    intro p
    cases p with
    | none => rfl
    | some path =>
      show eval libc k (rewriteAbsolutePath (some path) (.uninit pathMax) pathMax >>= _) = _
      rw [eval_bind_ok (habsolute _ _)]
      rfl
  refine ⟨hpath, ?_, ?_, ?_, fun _ _ => rfl⟩
  -- the helpers and the wrappers then go on with what they were given
  · intro p
    cases p with
    | none => rfl
    | some path =>
      unfold rewriteCwdRelativeArgument
      simp only
      split
      · exact hpath _
      · rw [eval_bind_ok (hrelative _ _ _)]
        rfl
  · intro d p
    cases p with
    | none => rfl
    | some path =>
      unfold rewriteAtArgument
      simp only
      split
      · rw [eval_bind_ok (hpath _)]
        rfl
      · rw [eval_bind_ok (hrelative _ _ _)]
        rfl
  · intro d p call
    unfold Wrapper.onDirfdPath
    split
    · rw [eval_bind_ok (hpath _), eval_orig]
      rfl
    · rw [eval_bind_ok (hrelative _ _ _)]
      exact eval_orig libc k (call d p)

/-! ## Consulting first -/

section Guarded

variable {filled : Bool}

theorem guarded_orig (c : Call) : Guarded filled (orig c) := by
  refine Guarded.bind guarded_look fun libc => ?_
  split <;> exact guarded_pure _

theorem guarded_substitutePrefix (path : Option CString) (dst : CharArray) (n : Nat) :
    Guarded true (substitutePrefix path dst n) :=
  Guarded.bind guarded_peek fun _ => guarded_lift _

theorem guarded_rewriteAbsolutePath (path : Option CString) (dst : CharArray) (n : Nat) :
    Guarded filled (rewriteAbsolutePath path dst n) := by
  cases path with
  | none => exact guarded_pure _
  | some path =>
    unfold rewriteAbsolutePath
    simp only
    split
    · exact guarded_pure _
    refine guarded_consult_bind fun k => ?_
    split
    · exact guarded_pure _
    refine Guarded.bind (guarded_lift _) fun o => ?_
    cases o with
    | none => exact guarded_pure _
    | some cleaned =>
      refine Guarded.bind (guarded_lift _) fun text => ?_
      refine Guarded.bind (guarded_substitutePrefix _ _ _) fun r => ?_
      split <;> exact guarded_pure _

theorem guarded_rewriteRelativePathFromDirfd (d : Int32) (path : Option CString) (dst : CharArray)
    (n : Nat) : Guarded filled (rewriteRelativePathFromDirfd d path dst n) := by
  cases path with
  | none => exact guarded_pure _
  | some path =>
    unfold rewriteRelativePathFromDirfd
    simp only
    split
    · exact guarded_pure _
    refine guarded_consult_bind fun k => ?_
    split
    · exact guarded_pure _
    refine Guarded.bind guarded_look fun libc => ?_
    refine Guarded.bind (guarded_lift _) fun o => ?_
    cases o with
    | none => exact guarded_pure _
    | some arrays =>
      refine Guarded.bind (guarded_lift _) fun base => ?_
      refine Guarded.bind (guarded_lift _) fun o => ?_
      cases o with
      | none => exact guarded_pure _
      | some resolved =>
        refine Guarded.bind (guarded_lift _) fun text => ?_
        refine Guarded.bind (guarded_substitutePrefix _ _ _) fun r => ?_
        split <;> exact guarded_pure _

theorem guarded_rewritePathArgument (p : Option CString) (buf : CharArray) (n : Nat) :
    Guarded filled (rewritePathArgument p buf n) := by
  unfold rewritePathArgument
  split
  · exact guarded_pure _
  refine Guarded.bind (guarded_rewriteAbsolutePath _ _ _) fun r => ?_
  dsimp only
  split
  · exact Guarded.bind (guarded_lift _) fun _ => guarded_pure _
  · exact guarded_pure _

theorem guarded_rewriteCwdRelativeArgument (p : Option CString) (buf : CharArray) (n : Nat) :
    Guarded filled (rewriteCwdRelativeArgument p buf n) := by
  cases p with
  | none => exact guarded_pure _
  | some path =>
    unfold rewriteCwdRelativeArgument
    simp only
    split
    · exact guarded_rewritePathArgument _ _ _
    refine Guarded.bind (guarded_rewriteRelativePathFromDirfd _ _ _ _) fun r => ?_
    split
    · exact Guarded.bind (guarded_lift _) fun _ => guarded_pure _
    · exact guarded_pure _

theorem guarded_rewriteAtArgument (d : Int32) (p : Option CString) (buf : CharArray) (n : Nat) :
    Guarded filled (rewriteAtArgument d p buf n) := by
  cases p with
  | none => exact guarded_pure _
  | some path =>
    unfold rewriteAtArgument
    simp only
    split
    · exact Guarded.bind (guarded_rewritePathArgument _ _ _) fun _ => guarded_pure _
    refine Guarded.bind (guarded_rewriteRelativePathFromDirfd _ _ _ _) fun r => ?_
    split
    · exact Guarded.bind (guarded_lift _) fun _ => guarded_pure _
    · exact guarded_pure _

theorem guarded_onPath (p : Option CString) (call : Option CString → Call) :
    Guarded filled (Wrapper.onPath p call) :=
  Guarded.bind (guarded_rewritePathArgument _ _ _) fun _ => guarded_orig _

theorem guarded_onCwdPath (p : Option CString) (call : Option CString → Call) :
    Guarded filled (Wrapper.onCwdPath p call) :=
  Guarded.bind (guarded_rewriteCwdRelativeArgument _ _ _) fun _ => guarded_orig _

theorem guarded_onDirfdPath (d : Int32) (p : Option CString)
    (call : Int32 → Option CString → Call) : Guarded filled (Wrapper.onDirfdPath d p call) := by
  unfold Wrapper.onDirfdPath
  split
  · exact Guarded.bind (guarded_rewritePathArgument _ _ _) fun _ => guarded_orig _
  refine Guarded.bind (guarded_rewriteRelativePathFromDirfd _ _ _ _) fun r => ?_
  dsimp only
  split
  · exact Guarded.bind (guarded_lift _) fun _ => guarded_orig _
  · exact guarded_orig _

theorem guarded_onDirfdPaths (d d' : Int32) (p p' : Option CString)
    (call : Int32 → Option CString → Int32 → Option CString → Call) :
    Guarded filled (Wrapper.onDirfdPaths d p d' p' call) :=
  Guarded.bind (guarded_rewriteAtArgument _ _ _ _) fun _ =>
    Guarded.bind (guarded_rewriteAtArgument _ _ _ _) fun _ => guarded_orig _

/-- No wrapper reads the policy before it has consulted it. -/
theorem guarded_interpose (c : Call) : Guarded filled (interpose c) := by
  cases c with
  | link oldpath newpath | rename oldpath newpath =>
    exact Guarded.bind (guarded_rewriteCwdRelativeArgument _ _ _) fun _ =>
      Guarded.bind (guarded_rewriteCwdRelativeArgument _ _ _) fun _ => guarded_orig _
  | linkat | renameat | renameat2 =>
    simp only [interpose, Wrapper.linkat, Wrapper.renameat, Wrapper.renameat2, guarded_onDirfdPaths]
  | symlink target linkpath =>
    show Guarded filled (Wrapper.symlink target linkpath)
    unfold Wrapper.symlink
    split
    · exact Guarded.bind (guarded_rewritePathArgument _ _ _) fun _ =>
        Guarded.bind (guarded_rewriteCwdRelativeArgument _ _ _) fun _ => guarded_orig _
    · exact Guarded.bind (guarded_rewriteCwdRelativeArgument _ _ _) fun _ => guarded_orig _
  | symlinkat target d linkpath =>
    refine Guarded.bind (guarded_rewriteAtArgument _ _ _ _) fun r => ?_
    dsimp only
    split
    · exact Guarded.bind (guarded_rewritePathArgument _ _ _) fun _ => guarded_orig _
    · exact guarded_orig _
  | close fd => exact guarded_orig _
  | access | chdir | execve | euidaccess | statfs => exact guarded_onCwdPath _ _
  | __lxstat | __xstat | creat | mkdir | «open» | readlink | lstat | rmdir | stat | truncate
  | unlink => exact guarded_onPath _ _
  | __fxstatat | newfstatat | faccessat | fchmodat | mkdirat | openat | openat2 | readlinkat
  | statx | unlinkat | utimensat =>
    simp only [interpose, Wrapper.__fxstatat, Wrapper.newfstatat, Wrapper.faccessat,
      Wrapper.fchmodat, Wrapper.mkdirat, Wrapper.openat, Wrapper.openat2, Wrapper.readlinkat,
      Wrapper.statx, Wrapper.unlinkat, Wrapper.utimensat, guarded_onDirfdPath]

theorem guarded_getcwd (buf : Option CharArray) (size : Nat) :
    Guarded filled (getcwd buf size) := by
  have hreply : Guarded filled (origGetcwd buf size) := by
    refine Guarded.bind guarded_look fun libc => ?_
    split
    · exact guarded_pure _
    cases buf with
    | none =>
      simp only
      split <;> exact guarded_pure _
    | some buf =>
      simp only
      split
      · exact Guarded.bind (guarded_lift _) fun _ => guarded_pure _
      · exact guarded_pure _
  refine Guarded.bind hreply fun result => ?_
  split
  · exact guarded_pure _
  refine guarded_consult_bind fun k => ?_
  split
  · exact guarded_pure _
  refine Guarded.bind (guarded_lift _) fun path => ?_
  refine Guarded.bind (Guarded.bind guarded_peek fun _ => guarded_lift _) fun r => ?_
  dsimp only
  split
  · exact guarded_pure _
  refine Guarded.bind (guarded_lift _) fun text => ?_
  split
  · exact guarded_pure _
  · exact guarded_lift _

end Guarded

end LdPreload
