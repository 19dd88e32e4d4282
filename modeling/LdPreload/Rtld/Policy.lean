/-
  LdPreload.Rtld.Policy

  The global `rewrite_policy` of `rtld_linux.c`, the routine that fills it
  from the environment, and the world that an interposed function sees: the
  real functions behind `dlsym (RTLD_NEXT, ..)`, as far as their results are
  used.  The code under `pthread_once` is a `Once.Prog` over this global.
-/

import LdPreload.C.OnceCell
import LdPreload.Rtld.Clean

namespace LdPreload

open CMem Once

/-- The values of `LD_PRELOAD_REWRITE_FROM` and `LD_PRELOAD_REWRITE_TO`. -/
structure Environ where
  fromEnv : Option CString
  toEnv : Option CString
deriving DecidableEq

/-- `struct rewrite_policy`, all zero at the start. -/
structure RewritePolicy where
  enabled : Bool := false
  fromLen : Nat := 0
  toLen : Nat := 0
  fromPath : CString := default
  toPath : CString := default
deriving DecidableEq

/-- The end of `init_rewrite_policy`: both values are cleaned and installed. -/
def installPolicy (fromEnv toEnv : CString) : Except Stop RewritePolicy := do
  let some cleanedFrom ← attempt (cleanPathInto (some fromEnv) (.uninit pathMax) pathMax)
    | return {}
  let some cleanedTo ← attempt (cleanPathInto (some toEnv) (.uninit pathMax) pathMax)
    | return {}
  -- never the case: what is cleaned from an absolute value is absolute
  if (← cleanedFrom.read 0) ≠ slash ∨ (← cleanedTo.read 0) ≠ slash then
    return {}
  else
    let fromPath ← cleanedFrom.string
    let toPath ← cleanedTo.string
    return { enabled := true, fromLen := fromPath.length, toLen := toPath.length,
             fromPath := fromPath, toPath := toPath }

/-- `init_rewrite_policy` -/
def initRewritePolicy (env : Environ) : Except Stop RewritePolicy :=
  match env.fromEnv, env.toEnv with
  | some fromEnv, some toEnv =>
    if fromEnv.charAt 0 = nul ∨ toEnv.charAt 0 = nul then return {}
    else if fromEnv.charAt 0 ≠ slash ∨ toEnv.charAt 0 ≠ slash then return {}
    else installPolicy fromEnv toEnv
  | _, _ => return {}

/-- The functions that `resolve_symbols` looks up: those that take a path, and
    `close`. -/
inductive Symbol where
  | __fxstatat | newfstatat | __lxstat | __xstat | access | chdir | creat | execve | euidaccess
  | faccessat | fchmodat | link | linkat | mkdir | mkdirat | «open» | openat | openat2 | getcwd
  | readlink | readlinkat | rename | renameat | renameat2 | lstat | rmdir | stat | statx | statfs
  | symlink | symlinkat | truncate | unlink | unlinkat | utimensat | close
deriving DecidableEq

/-- The C library behind the interposer, at one moment. -/
structure Libc where
  /-- `dlsym` finds the function. -/
  resolves : Symbol → Bool
  /-- `getcwd (buf, size)`: the string that it puts into `buf`, if any. -/
  getcwd : Nat → Option CString
  /-- `getcwd (NULL, size)`: the string that it allocates, if any. -/
  getcwdAlloc : Nat → Option CString
  /-- `readlink (path, buf, size)`: the bytes that it puts into `buf`, if any. -/
  readlink : CString → Nat → Option CString
  getcwd_lt : ∀ {size s}, getcwd size = some s → s.length < size
  readlink_le : ∀ {path size s}, readlink path size = some s → s.length ≤ size

/-- The code of the interposer: it looks at the library, reads the policy, and
    may stop. -/
abbrev Interp (α : Type) : Type := Prog Libc RewritePolicy Stop α

/-- `get_rewrite_policy` -/
def getRewritePolicy : Interp RewritePolicy := consult

end LdPreload
