/-
  LdPreload.Rtld.Wrappers

  The exported functions of `rtld_linux.c` that take a path, `getcwd`, and
  `close` for the descriptors.  A `Call` is a call with its arguments: what a
  program asks of the interposer, and what the interposer asks of the real
  library.  Pointers that are only handed on are addresses.
-/

import LdPreload.Rtld.Rewrite

namespace LdPreload

open CMem Once

/-- A pointer that the interposer never follows. -/
abbrev Ptr := UInt64

/-- `struct open_how` -/
structure OpenHow where
  flags : UInt64
  mode : UInt64
  resolve : UInt64
deriving DecidableEq

inductive Call where
  | __fxstatat (ver dirfd : Int32) (pathname : Option CString) (cstat : Ptr) (flags : Int32)
  | newfstatat (dirfd : Int32) (pathname : Option CString) (statbuf : Ptr) (flags : Int32)
  | __lxstat (ver : Int32) (pathname : Option CString) (cstat : Ptr)
  | __xstat (ver : Int32) (pathname : Option CString) (cstat : Ptr)
  | access (pathname : Option CString) (mode : Int32)
  | chdir (path : Option CString)
  | creat (pathname : Option CString) (mode : UInt32)
  | execve (pathname : Option CString) (argv envp : Ptr)
  | euidaccess (pathname : Option CString) (mode : Int32)
  | faccessat (dirfd : Int32) (pathname : Option CString) (mode flags : Int32)
  | fchmodat (dirfd : Int32) (pathname : Option CString) (mode : UInt32) (flags : Int32)
  | link (oldpath newpath : Option CString)
  | linkat (olddirfd : Int32) (oldpath : Option CString) (newdirfd : Int32)
      (newpath : Option CString) (flags : Int32)
  | mkdir (pathname : Option CString) (mode : UInt32)
  | mkdirat (dirfd : Int32) (pathname : Option CString) (mode : UInt32)
  | «open» (pathname : Option CString) (flags : Int32) (mode : UInt32)
  | openat (dirfd : Int32) (pathname : Option CString) (flags : Int32) (mode : UInt32)
  | openat2 (dirfd : Int32) (pathname : Option CString) (how : Option OpenHow) (size : UInt64)
  | readlink (pathname : Option CString) (buf : Ptr) (bufsiz : UInt64)
  | readlinkat (dirfd : Int32) (pathname : Option CString) (buf : Ptr) (bufsiz : UInt64)
  | rename (oldpath newpath : Option CString)
  | renameat (olddirfd : Int32) (oldpath : Option CString) (newdirfd : Int32)
      (newpath : Option CString)
  | renameat2 (olddirfd : Int32) (oldpath : Option CString) (newdirfd : Int32)
      (newpath : Option CString) (flags : UInt32)
  | lstat (pathname : Option CString) (cstat : Ptr)
  | rmdir (pathname : Option CString)
  | stat (pathname : Option CString) (cstat : Ptr)
  | statx (dirfd : Int32) (pathname : Option CString) (flags : Int32) (mask : UInt32)
      (statxbuf : Ptr)
  | statfs (path : Option CString) (buf : Ptr)
  | symlink (target linkpath : Option CString)
  | symlinkat (target : Option CString) (newdirfd : Int32) (linkpath : Option CString)
  | truncate (pathname : Option CString) (length : Int64)
  | unlink (pathname : Option CString)
  | unlinkat (dirfd : Int32) (pathname : Option CString) (flags : Int32)
  | utimensat (dirfd : Int32) (pathname : Option CString) (times : Ptr) (flags : Int32)
  | close (fd : Int32)
deriving DecidableEq

/-- The function that a call goes to. -/
def Call.symbol : Call → Symbol
  | .__fxstatat .. => .__fxstatat
  | .newfstatat .. => .newfstatat
  | .__lxstat .. => .__lxstat
  | .__xstat .. => .__xstat
  | .access .. => .access
  | .chdir .. => .chdir
  | .creat .. => .creat
  | .execve .. => .execve
  | .euidaccess .. => .euidaccess
  | .faccessat .. => .faccessat
  | .fchmodat .. => .fchmodat
  | .link .. => .link
  | .linkat .. => .linkat
  | .mkdir .. => .mkdir
  | .mkdirat .. => .mkdirat
  | .open .. => .open
  | .openat .. => .openat
  | .openat2 .. => .openat2
  | .readlink .. => .readlink
  | .readlinkat .. => .readlinkat
  | .rename .. => .rename
  | .renameat .. => .renameat
  | .renameat2 .. => .renameat2
  | .lstat .. => .lstat
  | .rmdir .. => .rmdir
  | .stat .. => .stat
  | .statx .. => .statx
  | .statfs .. => .statfs
  | .symlink .. => .symlink
  | .symlinkat .. => .symlinkat
  | .truncate .. => .truncate
  | .unlink .. => .unlink
  | .unlinkat .. => .unlinkat
  | .utimensat .. => .utimensat
  | .close .. => .close

/-- What a wrapper ends with: a call of the real function, or -1 with
    `ENOSYS`. -/
inductive Outcome where
  | forwarded (c : Call)
  | enosys
deriving DecidableEq

/-- The `orig_` functions. -/
def orig (c : Call) : Interp Outcome := do
  if (← look).resolves c.symbol then return .forwarded c else return .enosys

/-- `O_CREAT | O_TMPFILE` -/
def oCreatOrTmpfile : Int32 := 0x40 ||| 0x410000

/-- The optional argument of `open` and `openat`, taken when the flags ask for
    it. -/
def variadicMode (flags : Int32) (mode : UInt32) : UInt32 :=
  if flags &&& oCreatOrTmpfile ≠ 0 then mode else 0

namespace Wrapper

set_option linter.style.nameCheck false

/-! ## Paths alone -/

/-- The wrappers that rewrite absolute paths only. -/
def onPath (pathname : Option CString) (call : Option CString → Call) : Interp Outcome := do
  orig (call (← rewritePathArgument pathname (.uninit pathMax) pathMax))

def __lxstat (ver : Int32) (pathname : Option CString) (cstat : Ptr) : Interp Outcome :=
  onPath pathname fun target => .__lxstat ver target cstat

def __xstat (ver : Int32) (pathname : Option CString) (cstat : Ptr) : Interp Outcome :=
  onPath pathname fun target => .__xstat ver target cstat

def creat (pathname : Option CString) (mode : UInt32) : Interp Outcome :=
  onPath pathname fun target => .creat target mode

def mkdir (pathname : Option CString) (mode : UInt32) : Interp Outcome :=
  onPath pathname fun target => .mkdir target mode

def «open» (pathname : Option CString) (flags : Int32) (mode : UInt32) : Interp Outcome :=
  onPath pathname fun target => .open target flags (variadicMode flags mode)

def readlink (pathname : Option CString) (buf : Ptr) (bufsiz : UInt64) : Interp Outcome :=
  onPath pathname fun target => .readlink target buf bufsiz

def lstat (pathname : Option CString) (cstat : Ptr) : Interp Outcome :=
  onPath pathname fun target => .lstat target cstat

def rmdir (pathname : Option CString) : Interp Outcome :=
  onPath pathname fun target => .rmdir target

def stat (pathname : Option CString) (cstat : Ptr) : Interp Outcome :=
  onPath pathname fun target => .stat target cstat

def truncate (pathname : Option CString) (length : Int64) : Interp Outcome :=
  onPath pathname fun target => .truncate target length

def unlink (pathname : Option CString) : Interp Outcome :=
  onPath pathname fun target => .unlink target

/-! ## Paths from the current directory -/

/-- The wrappers that also rewrite paths relative to the current directory. -/
def onCwdPath (pathname : Option CString) (call : Option CString → Call) : Interp Outcome := do
  orig (call (← rewriteCwdRelativeArgument pathname (.uninit pathMax) pathMax))

def access (pathname : Option CString) (mode : Int32) : Interp Outcome :=
  onCwdPath pathname fun target => .access target mode

def chdir (path : Option CString) : Interp Outcome :=
  onCwdPath path fun target => .chdir target

def execve (pathname : Option CString) (argv envp : Ptr) : Interp Outcome :=
  onCwdPath pathname fun target => .execve target argv envp

def euidaccess (pathname : Option CString) (mode : Int32) : Interp Outcome :=
  onCwdPath pathname fun target => .euidaccess target mode

def statfs (path : Option CString) (buf : Ptr) : Interp Outcome :=
  onCwdPath path fun target => .statfs target buf

def link (oldpath newpath : Option CString) : Interp Outcome := do
  let oldTarget ← rewriteCwdRelativeArgument oldpath (.uninit pathMax) pathMax
  let newTarget ← rewriteCwdRelativeArgument newpath (.uninit pathMax) pathMax
  orig (.link oldTarget newTarget)

def rename (oldpath newpath : Option CString) : Interp Outcome := do
  let oldTarget ← rewriteCwdRelativeArgument oldpath (.uninit pathMax) pathMax
  let newTarget ← rewriteCwdRelativeArgument newpath (.uninit pathMax) pathMax
  orig (.rename oldTarget newTarget)

/-! ## Paths from a directory descriptor -/

/-- The text that the wrappers with one descriptor spell out. -/
def onDirfdPath (dirfd : Int32) (pathname : Option CString)
    (call : Int32 → Option CString → Call) : Interp Outcome := do
  if pathname.any (·.charAt 0 == slash) then
    let target ← rewritePathArgument pathname (.uninit pathMax) pathMax
    orig (call dirfd target)
  else
    let (status, rewritten) ←
      rewriteRelativePathFromDirfd dirfd pathname (.uninit pathMax) pathMax
    if status ≠ 0 then
      orig (call atFdcwd (some (← rewritten.string)))
    else
      orig (call dirfd pathname)

def __fxstatat (ver dirfd : Int32) (pathname : Option CString) (cstat : Ptr) (flags : Int32) :
    Interp Outcome :=
  onDirfdPath dirfd pathname fun callDirfd target => .__fxstatat ver callDirfd target cstat flags

def newfstatat (dirfd : Int32) (pathname : Option CString) (statbuf : Ptr) (flags : Int32) :
    Interp Outcome :=
  onDirfdPath dirfd pathname fun callDirfd target => .newfstatat callDirfd target statbuf flags

def faccessat (dirfd : Int32) (pathname : Option CString) (mode flags : Int32) : Interp Outcome :=
  onDirfdPath dirfd pathname fun callDirfd target => .faccessat callDirfd target mode flags

def fchmodat (dirfd : Int32) (pathname : Option CString) (mode : UInt32) (flags : Int32) :
    Interp Outcome :=
  onDirfdPath dirfd pathname fun callDirfd target => .fchmodat callDirfd target mode flags

def mkdirat (dirfd : Int32) (pathname : Option CString) (mode : UInt32) : Interp Outcome :=
  onDirfdPath dirfd pathname fun callDirfd target => .mkdirat callDirfd target mode

def openat (dirfd : Int32) (pathname : Option CString) (flags : Int32) (mode : UInt32) :
    Interp Outcome :=
  onDirfdPath dirfd pathname fun callDirfd target =>
    .openat callDirfd target flags (variadicMode flags mode)

def openat2 (dirfd : Int32) (pathname : Option CString) (how : Option OpenHow) (size : UInt64) :
    Interp Outcome :=
  onDirfdPath dirfd pathname fun callDirfd target => .openat2 callDirfd target how size

def readlinkat (dirfd : Int32) (pathname : Option CString) (buf : Ptr) (bufsiz : UInt64) :
    Interp Outcome :=
  onDirfdPath dirfd pathname fun callDirfd target => .readlinkat callDirfd target buf bufsiz

def statx (dirfd : Int32) (pathname : Option CString) (flags : Int32) (mask : UInt32)
    (statxbuf : Ptr) : Interp Outcome :=
  onDirfdPath dirfd pathname fun callDirfd target => .statx callDirfd target flags mask statxbuf

def unlinkat (dirfd : Int32) (pathname : Option CString) (flags : Int32) : Interp Outcome :=
  onDirfdPath dirfd pathname fun callDirfd target => .unlinkat callDirfd target flags

def utimensat (dirfd : Int32) (pathname : Option CString) (times : Ptr) (flags : Int32) :
    Interp Outcome :=
  onDirfdPath dirfd pathname fun callDirfd target => .utimensat callDirfd target times flags

/-- The wrappers with two descriptors. -/
def onDirfdPaths (olddirfd : Int32) (oldpath : Option CString) (newdirfd : Int32)
    (newpath : Option CString)
    (call : Int32 → Option CString → Int32 → Option CString → Call) : Interp Outcome := do
  let (olddirfd, effectiveOldpath) ← rewriteAtArgument olddirfd oldpath (.uninit pathMax) pathMax
  let (newdirfd, effectiveNewpath) ← rewriteAtArgument newdirfd newpath (.uninit pathMax) pathMax
  orig (call olddirfd effectiveOldpath newdirfd effectiveNewpath)

def linkat (olddirfd : Int32) (oldpath : Option CString) (newdirfd : Int32)
    (newpath : Option CString) (flags : Int32) : Interp Outcome :=
  onDirfdPaths olddirfd oldpath newdirfd newpath fun olddirfd oldpath newdirfd newpath =>
    .linkat olddirfd oldpath newdirfd newpath flags

def renameat (olddirfd : Int32) (oldpath : Option CString) (newdirfd : Int32)
    (newpath : Option CString) : Interp Outcome :=
  onDirfdPaths olddirfd oldpath newdirfd newpath fun olddirfd oldpath newdirfd newpath =>
    .renameat olddirfd oldpath newdirfd newpath

def renameat2 (olddirfd : Int32) (oldpath : Option CString) (newdirfd : Int32)
    (newpath : Option CString) (flags : UInt32) : Interp Outcome :=
  onDirfdPaths olddirfd oldpath newdirfd newpath fun olddirfd oldpath newdirfd newpath =>
    .renameat2 olddirfd oldpath newdirfd newpath flags

/-! ## Symbolic links

The payload of a link is rewritten when it is absolute and kept otherwise. -/

def symlink (target linkpath : Option CString) : Interp Outcome := do
  let mut effectiveTarget := target
  if target.any (·.charAt 0 == slash) then
    effectiveTarget ← rewritePathArgument target (.uninit pathMax) pathMax
  let effectiveLinkpath ← rewriteCwdRelativeArgument linkpath (.uninit pathMax) pathMax
  orig (.symlink effectiveTarget effectiveLinkpath)

def symlinkat (target : Option CString) (newdirfd : Int32) (linkpath : Option CString) :
    Interp Outcome := do
  let (newdirfd, effectiveLinkpath) ←
    rewriteAtArgument newdirfd linkpath (.uninit pathMax) pathMax
  let mut effectiveTarget := target
  if target.any (·.charAt 0 == slash) then
    effectiveTarget ← rewritePathArgument target (.uninit pathMax) pathMax
  orig (.symlinkat effectiveTarget newdirfd effectiveLinkpath)

/-! ## Descriptors alone -/

def close (fd : Int32) : Interp Outcome := orig (.close fd)

end Wrapper

/-- The wrapper that a call runs into. -/
def interpose : Call → Interp Outcome
  | .__fxstatat ver dirfd pathname cstat flags => Wrapper.__fxstatat ver dirfd pathname cstat flags
  | .newfstatat dirfd pathname statbuf flags => Wrapper.newfstatat dirfd pathname statbuf flags
  | .__lxstat ver pathname cstat => Wrapper.__lxstat ver pathname cstat
  | .__xstat ver pathname cstat => Wrapper.__xstat ver pathname cstat
  | .access pathname mode => Wrapper.access pathname mode
  | .chdir path => Wrapper.chdir path
  | .creat pathname mode => Wrapper.creat pathname mode
  | .execve pathname argv envp => Wrapper.execve pathname argv envp
  | .euidaccess pathname mode => Wrapper.euidaccess pathname mode
  | .faccessat dirfd pathname mode flags => Wrapper.faccessat dirfd pathname mode flags
  | .fchmodat dirfd pathname mode flags => Wrapper.fchmodat dirfd pathname mode flags
  | .link oldpath newpath => Wrapper.link oldpath newpath
  | .linkat olddirfd oldpath newdirfd newpath flags =>
    Wrapper.linkat olddirfd oldpath newdirfd newpath flags
  | .mkdir pathname mode => Wrapper.mkdir pathname mode
  | .mkdirat dirfd pathname mode => Wrapper.mkdirat dirfd pathname mode
  | .open pathname flags mode => Wrapper.open pathname flags mode
  | .openat dirfd pathname flags mode => Wrapper.openat dirfd pathname flags mode
  | .openat2 dirfd pathname how size => Wrapper.openat2 dirfd pathname how size
  | .readlink pathname buf bufsiz => Wrapper.readlink pathname buf bufsiz
  | .readlinkat dirfd pathname buf bufsiz => Wrapper.readlinkat dirfd pathname buf bufsiz
  | .rename oldpath newpath => Wrapper.rename oldpath newpath
  | .renameat olddirfd oldpath newdirfd newpath =>
    Wrapper.renameat olddirfd oldpath newdirfd newpath
  | .renameat2 olddirfd oldpath newdirfd newpath flags =>
    Wrapper.renameat2 olddirfd oldpath newdirfd newpath flags
  | .lstat pathname cstat => Wrapper.lstat pathname cstat
  | .rmdir pathname => Wrapper.rmdir pathname
  | .stat pathname cstat => Wrapper.stat pathname cstat
  | .statx dirfd pathname flags mask statxbuf => Wrapper.statx dirfd pathname flags mask statxbuf
  | .statfs path buf => Wrapper.statfs path buf
  | .symlink target linkpath => Wrapper.symlink target linkpath
  | .symlinkat target newdirfd linkpath => Wrapper.symlinkat target newdirfd linkpath
  | .truncate pathname length => Wrapper.truncate pathname length
  | .unlink pathname => Wrapper.unlink pathname
  | .unlinkat dirfd pathname flags => Wrapper.unlinkat dirfd pathname flags
  | .utimensat dirfd pathname times flags => Wrapper.utimensat dirfd pathname times flags
  | .close fd => Wrapper.close fd

/-! ## The current directory -/

/-- The pointer that `getcwd` returns, with the memory behind it. -/
inductive CwdReply where
  | null
  /-- The caller's `buf`. -/
  | caller (buf : CharArray)
  /-- A string that the real `getcwd` has allocated. -/
  | allocated (cwd : CString)

/-- `orig_getcwd` -/
def origGetcwd (buf : Option CharArray) (size : Nat) : Interp CwdReply := do
  let libc ← look
  if !libc.resolves .getcwd then
    return .null
  else match buf with
    | some buf =>
      match libc.getcwd size with
      | some cwd => return .caller (← buf.store cwd)
      | none => return .null
    | none =>
      match libc.getcwdAlloc size with
      | some cwd => return .allocated cwd
      | none => return .null

/-- The string at `buf` after the call of `orig_getcwd`; there is none when
    `buf` is `NULL`. -/
def CwdReply.atBuf : CwdReply → Except Stop (Option CString)
  | .caller buf => do return some (← buf.string)
  | _ => return none

/-- `memcpy (buf, rewritten, strlen (rewritten) + 1); return buf;` -/
def CwdReply.copyBack (rewritten : CString) : CwdReply → Except Stop CwdReply
  | .caller buf => do return .caller (← buf.store rewritten)
  | _ => .error .fault

/-- `getcwd` -/
def getcwd (buf : Option CharArray) (size : Nat) : Interp CwdReply := do
  let result ← origGetcwd buf size
  if result matches .null then
    return result
  else if !(← getRewritePolicy).enabled then
    return result
  else
    let (status, rewritten) ←
      substitutePrefixReverse (← result.atBuf) (.uninit pathMax) size
    if status ≠ 0 then
      return result
    else
      let rewritten ← rewritten.string
      if rewritten.length + 1 > size then return result else result.copyBack rewritten

end LdPreload
