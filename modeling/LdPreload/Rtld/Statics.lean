/-
  LdPreload.Rtld.Statics

  The static variables of `rtld_linux.c`: the `real_` pointers, filled by
  `resolve_symbols` under `resolve_once`, and `rewrite_policy`, filled by
  `init_rewrite_policy` under `rewrite_once`, each by one store after another.
  `Interp.toJob` takes a function of the interposer down to the accesses of
  these two.  The exported functions on descriptors alone need nothing else,
  and are here as well.
-/

import LdPreload.C.OnceMoments
import LdPreload.C.OnceRoutine
import LdPreload.Rtld.Wrappers

namespace LdPreload

open CMem Once

/-! ## The two routines -/

/-- The functions on descriptors that `resolve_symbols` looks up, `close` apart. -/
inductive FdSymbol where
  | __fxstat | fstat | lseek | pread | pwrite | read | write
deriving DecidableEq

/-- The `real_` pointers. -/
inductive Real where
  | path (sym : Symbol)
  | fd (sym : FdSymbol)
deriving DecidableEq

/-- What `dlsym (RTLD_NEXT, ..)` has found, or `NULL`. -/
abbrev RealTable : Type := Real → Option Ptr

/-- What the two routines look at: the environment of the process, and what
    `dlsym` finds. -/
structure Surroundings where
  environ : Environ
  dlsym : RealTable

/-- `real_X = dlsym (RTLD_NEXT, "X");` -/
def resolveSymbol (real : Real) (rest : Routine Surroundings RealTable Stop) :
    Routine Surroundings RealTable Stop :=
  .query fun s => .store (fun table => Function.update table real (s.dlsym real)) rest

/-- The names in `resolve_symbols`, in this order. -/
def realNames : List Real :=
  [.fd .__fxstat, .path .__fxstatat, .path .newfstatat, .path .__lxstat, .path .__xstat,
    .path .access, .path .chdir, .path .execve, .path .close, .path .creat, .fd .fstat,
    .path .faccessat, .path .fchmodat, .path .link, .path .linkat, .fd .lseek, .path .mkdir,
    .path .mkdirat, .path .open, .path .openat, .path .openat2, .fd .pread, .fd .pwrite,
    .path .getcwd, .fd .read, .path .readlink, .path .readlinkat, .path .rename, .path .renameat,
    .path .renameat2, .path .rmdir, .path .lstat, .path .stat, .path .statx, .path .statfs,
    .path .symlink, .path .symlinkat, .path .truncate, .path .unlink, .path .unlinkat,
    .path .utimensat, .path .euidaccess, .fd .write]

/-- `resolve_symbols` -/
def resolveSymbols : Routine Surroundings RealTable Stop := realNames.foldr resolveSymbol .done

/-- The locals of `init_rewrite_policy`: the strings in `cleaned_from` and
    `cleaned_to`, unless one of the checks returns. -/
def cleanedPaths (fromEnv toEnv : Option CString) : Except Stop (Option (CString × CString)) :=
  match fromEnv, toEnv with
  | some fromEnv, some toEnv =>
    if fromEnv.charAt 0 = nul ∨ toEnv.charAt 0 = nul then return none
    else if fromEnv.charAt 0 ≠ slash ∨ toEnv.charAt 0 ≠ slash then return none
    else do
      let some cleanedFrom ← attempt (cleanPathInto (some fromEnv) (.uninit pathMax) pathMax)
        | return none
      let some cleanedTo ← attempt (cleanPathInto (some toEnv) (.uninit pathMax) pathMax)
        | return none
      if (← cleanedFrom.read 0) ≠ slash ∨ (← cleanedTo.read 0) ≠ slash then
        return none
      else
        return some (← cleanedFrom.string, ← cleanedTo.string)
  | _, _ => return none

/-- The stores from the two `memcpy` on.  The lengths are taken of what is in
    the global by then. -/
def storePolicy (fromPath toPath : CString) : Routine Surroundings RewritePolicy Stop :=
  .store (fun rp => { rp with fromPath := fromPath }) <|
  .store (fun rp => { rp with toPath := toPath }) <|
  .store (fun rp => { rp with fromLen := rp.fromPath.length }) <|
  .store (fun rp => { rp with toLen := rp.toPath.length }) <|
  .store (fun rp => { rp with enabled := true }) .done

/-- `init_rewrite_policy`, store by store.  The two variables are read one
    after the other. -/
def initRewritePolicyStores : Routine Surroundings RewritePolicy Stop :=
  .store (fun rp => { rp with enabled := false }) <|
  .store (fun rp => { rp with fromPath := default }) <|
  .store (fun rp => { rp with toPath := default }) <|
  .store (fun rp => { rp with fromLen := 0 }) <|
  .store (fun rp => { rp with toLen := 0 }) <|
  .query fun s => .query fun s' =>
  match cleanedPaths s.environ.fromEnv s'.environ.toEnv with
  | .error e => .stop e
  | .ok none => .done
  | .ok (some (fromPath, toPath)) => storePolicy fromPath toPath

/-! ## The cells -/

/-- The cells, named by what they hold. -/
inductive Static where
  | symbols
  | policy
deriving DecidableEq

namespace Static

instance : Fintype Static := ⟨{symbols, policy}, fun i => by cases i <;> decide⟩

abbrev Value : Static → Type
  | symbols => RealTable
  | policy => RewritePolicy

def routine : ∀ i : Static, Routine Surroundings i.Value Stop
  | symbols => resolveSymbols
  | policy => initRewritePolicyStores

/-- Static variables are zero at the start. -/
def zero : ∀ i : Static, i.Value
  | symbols => fun _ => none
  | policy => {}

end Static

/-- The C library at one moment, but for what `dlsym` finds of it. -/
structure World where
  getcwd : Nat → Option CString
  getcwdAlloc : Nat → Option CString
  readlink : CString → Nat → Option CString
  getcwd_lt : ∀ {size s}, getcwd size = some s → s.length < size
  readlink_le : ∀ {path size s}, readlink path size = some s → s.length ≤ size

/-- The library behind the pointers of the table. -/
def World.libc (w : World) (table : RealTable) : Libc where
  resolves sym := (table (.path sym)).isSome
  getcwd := w.getcwd
  getcwdAlloc := w.getcwdAlloc
  readlink := w.readlink
  getcwd_lt := w.getcwd_lt
  readlink_le := w.readlink_le

/-- The library, but for what `dlsym` finds of it. -/
def Libc.world (libc : Libc) : World where
  getcwd := libc.getcwd
  getcwdAlloc := libc.getcwdAlloc
  readlink := libc.readlink
  getcwd_lt := libc.getcwd_lt
  readlink_le := libc.readlink_le

/-- A function of the interposer, access by access. -/
def Interp.toJob {α : Type} : Interp α → Job World Static.Value Stop α
  | .ret a => .ret a
  | .stop e => .stop e
  -- `ensure_symbols ()`, a look at the pointer, and a call through it
  | .look next =>
    .once .symbols (.load .symbols fun table => .look fun w => toJob (next (w.libc table)))
  | .consult next => .once .policy (.load .policy fun rp => toJob (next rp))
  | .peek next => .load .policy fun rp => toJob (next rp)

/-! ## Descriptors alone -/

/-- The calls that take no path, `close` apart. -/
inductive FdCall where
  | __fxstat (ver fd : Int32) (cstat : Ptr)
  | fstat (fd : Int32) (cstat : Ptr)
  | lseek (fd : Int32) (offset : Int64) (whence : Int32)
  | pread (fd : Int32) (buf : Ptr) (count : UInt64) (offset : Int64)
  | pwrite (fd : Int32) (buf : Ptr) (count : UInt64) (offset : Int64)
  | read (fd : Int32) (buf : Ptr) (count : UInt64)
  | write (fd : Int32) (buf : Ptr) (count : UInt64)
deriving DecidableEq

def FdCall.symbol : FdCall → FdSymbol
  | .__fxstat .. => .__fxstat
  | .fstat .. => .fstat
  | .lseek .. => .lseek
  | .pread .. => .pread
  | .pwrite .. => .pwrite
  | .read .. => .read
  | .write .. => .write

/-- What they end with: a call of the real function, or -1 with `ENOSYS`. -/
inductive FdOutcome where
  | forwarded (c : FdCall)
  | enosys
deriving DecidableEq

/-- The `orig_` functions of these. -/
def origFd (c : FdCall) : Job World Static.Value Stop FdOutcome :=
  .once .symbols (.load .symbols fun table =>
    if (table (.fd c.symbol)).isSome then .ret (.forwarded c) else .ret .enosys)

namespace Wrapper

set_option linter.style.nameCheck false

def __fxstat (ver fd : Int32) (cstat : Ptr) : Job World Static.Value Stop FdOutcome :=
  origFd (.__fxstat ver fd cstat)

def fstat (fd : Int32) (cstat : Ptr) : Job World Static.Value Stop FdOutcome :=
  origFd (.fstat fd cstat)

def lseek (fd : Int32) (offset : Int64) (whence : Int32) :
    Job World Static.Value Stop FdOutcome :=
  origFd (.lseek fd offset whence)

def pread (fd : Int32) (buf : Ptr) (count : UInt64) (offset : Int64) :
    Job World Static.Value Stop FdOutcome :=
  origFd (.pread fd buf count offset)

def pwrite (fd : Int32) (buf : Ptr) (count : UInt64) (offset : Int64) :
    Job World Static.Value Stop FdOutcome :=
  origFd (.pwrite fd buf count offset)

def read (fd : Int32) (buf : Ptr) (count : UInt64) : Job World Static.Value Stop FdOutcome :=
  origFd (.read fd buf count)

def write (fd : Int32) (buf : Ptr) (count : UInt64) : Job World Static.Value Stop FdOutcome :=
  origFd (.write fd buf count)

end Wrapper

/-- The wrapper that a call without a path runs into. -/
def interposeFd : FdCall → Job World Static.Value Stop FdOutcome
  | .__fxstat ver fd cstat => Wrapper.__fxstat ver fd cstat
  | .fstat fd cstat => Wrapper.fstat fd cstat
  | .lseek fd offset whence => Wrapper.lseek fd offset whence
  | .pread fd buf count offset => Wrapper.pread fd buf count offset
  | .pwrite fd buf count offset => Wrapper.pwrite fd buf count offset
  | .read fd buf count => Wrapper.read fd buf count
  | .write fd buf count => Wrapper.write fd buf count

end LdPreload
