/-
  LdPreload.Rtld.Rewrite

  From a path argument to the string that is handed to the real function:
  the prefix test, the two substitutions, the two lookups of a base directory
  and the three helpers that the wrappers call.  Functions that return a truth
  value or -1 in C keep it, next to the array that they may have written.
-/

import LdPreload.Rtld.Policy

namespace LdPreload

open CMem Once

/-- `AT_FDCWD` -/
def atFdcwd : Int32 := -100

/-! ## Matching and substituting -/

/-- `path_matches_prefix` -/
def pathMatchesPrefix (path pfx : CString) (pfxLen : Nat) : Bool :=
  if !CString.strncmpEq path pfx pfxLen then false
  -- the prefix has to end where a segment of the path ends
  else path.charAt pfxLen == nul || path.charAt pfxLen == slash

/-- The text that `substitute_prefix` and `substitute_prefix_reverse` share:
    what matches `pfx` is written to `dst` with `repl` in its place. -/
def substitute (enabled : Bool) (pfx : CString) (pfxLen : Nat) (repl : CString) (replLen : Nat)
    (path : Option CString) (dst : CharArray) (dstLen : Nat) : Except Stop (Int × CharArray) :=
  if !enabled then
    return (-1, dst)
  else match path with
    | none => .error .fault
    | some path =>
      if !pathMatchesPrefix path pfx pfxLen then
        return (-1, dst)
      else
        let suffix := path.drop pfxLen
        if replLen + suffix.length + 1 > dstLen then
          return (-1, dst)
        else do
          let dst ← dst.write 0 (repl.take replLen).chars
          let dst ← dst.write replLen (suffix.chars ++ [nul])
          return (0, dst)

/-- `substitute_prefix`, on the global as it is -/
def substitutePrefix (path : Option CString) (dst : CharArray) (dstLen : Nat) :
    Interp (Int × CharArray) := do
  let rewritePolicy ← peek
  substitute rewritePolicy.enabled rewritePolicy.fromPath rewritePolicy.fromLen
    rewritePolicy.toPath rewritePolicy.toLen path dst dstLen

/-- `substitute_prefix_reverse`, on the global as it is -/
def substitutePrefixReverse (path : Option CString) (dst : CharArray) (dstLen : Nat) :
    Interp (Int × CharArray) := do
  let rewritePolicy ← peek
  substitute rewritePolicy.enabled rewritePolicy.toPath rewritePolicy.toLen
    rewritePolicy.fromPath rewritePolicy.fromLen path dst dstLen

/-- `join_and_clean_path` -/
def joinAndCleanPath (base path : Option CString) (dst : CharArray) (dstLen : Nat) :
    Except Stop CharArray :=
  match base, path with
  | some base, some path =>
    let (joined, n) := CString.snprintf pathMax (base ++ .ofAscii ['/'] ++ path)
    -- `n` is signed: the -1 of a text that no `int` measures passes this test
    if n ≥ pathMax then .error .fail else cleanPathInto (some joined) dst dstLen
  | _, _ => .error .fail

/-! ## Absolute and relative paths -/

/-- `rewrite_absolute_path` -/
def rewriteAbsolutePath (pathname : Option CString) (dst : CharArray) (dstLen : Nat) :
    Interp (Int × CharArray) := do
  let some path := pathname | return (0, dst)
  if path.charAt 0 ≠ slash then
    return (0, dst)
  else if !(← getRewritePolicy).enabled then
    return (0, dst)
  else
    let some cleaned ← attempt (cleanPathInto pathname (.uninit pathMax) pathMax)
      | return (0, dst)
    let (status, dst) ← substitutePrefix (some (← cleaned.string)) dst dstLen
    if status ≠ 0 then return (0, dst) else return (1, dst)

/-- `/proc/self/fd/%d` -/
def fdPath (dirfd : Int32) : CString :=
  .ofAscii ['/', 'p', 'r', 'o', 'c', '/', 's', 'e', 'l', 'f', '/', 'f', 'd', '/'] ++
    CString.ofDecimal dirfd.toInt

/-- The branch of `rewrite_relative_path_from_dirfd` for `AT_FDCWD`: the arrays
    `base` and `resolved` behind it, unless it returns 0. -/
def baseFromCwd (libc : Libc) (base resolved : CharArray) :
    Except Stop (Option (CharArray × CharArray)) :=
  if !libc.resolves .getcwd then
    return none
  else match libc.getcwd pathMax with
    | none => return none
    | some cwd => do return some (← base.store cwd, resolved)

/-- The branch for another descriptor. -/
def baseFromDirfd (libc : Libc) (dirfd : Int32) (base resolved : CharArray) :
    Except Stop (Option (CharArray × CharArray)) :=
  let (fdPath, n) := CString.snprintf 64 (fdPath dirfd)
  if n ≥ 64 then
    return none
  else if !libc.resolves .readlink then
    return none
  else match libc.readlink fdPath (pathMax - 1) with
    | none => return none
    | some link =>
      -- a link that fills the array may have been cut
      if link.length ≥ pathMax - 1 then
        return none
      else do
        let base ← base.store link
        if (← base.read 0) ≠ slash then
          return none
        else
          let some resolved ← attempt (cleanPathInto (some (← base.string)) resolved pathMax)
            | return none
          -- `memcpy (base, resolved, sizeof (base))`
          return some (resolved, resolved)

/-- The arrays before the join. -/
def findBase (libc : Libc) (dirfd : Int32) (base resolved : CharArray) :
    Except Stop (Option (CharArray × CharArray)) :=
  if dirfd = atFdcwd then baseFromCwd libc base resolved
  else baseFromDirfd libc dirfd base resolved

/-- `rewrite_relative_path_from_dirfd` -/
def rewriteRelativePathFromDirfd (dirfd : Int32) (pathname : Option CString) (dst : CharArray)
    (dstLen : Nat) : Interp (Int × CharArray) := do
  let some path := pathname | return (0, dst)
  if path.charAt 0 = slash then
    return (0, dst)
  else if !(← getRewritePolicy).enabled then
    return (0, dst)
  else
    let some (base, resolved) ← findBase (← look) dirfd (.uninit pathMax) (.uninit pathMax)
      | return (0, dst)
    -- the second use of `resolved`, over what the first one has left in it
    let some resolved ← attempt (joinAndCleanPath (some (← base.string)) pathname resolved pathMax)
      | return (0, dst)
    let (status, dst) ← substitutePrefix (some (← resolved.string)) dst dstLen
    if status ≠ 0 then return (0, dst) else return (1, dst)

/-! ## The helpers of the wrappers -/

/-- `rewrite_path_argument` -/
def rewritePathArgument (pathname : Option CString) (buf : CharArray) (bufLen : Nat) :
    Interp (Option CString) := do
  if pathname.isNone then
    return pathname
  else
    let (rewritten, buf) ← rewriteAbsolutePath pathname buf bufLen
    if rewritten ≠ 0 then return some (← buf.string) else return pathname

/-- `rewrite_cwd_relative_argument` -/
def rewriteCwdRelativeArgument (pathname : Option CString) (buf : CharArray) (bufLen : Nat) :
    Interp (Option CString) := do
  let some path := pathname | return pathname
  if path.charAt 0 = slash then
    rewritePathArgument pathname buf bufLen
  else
    let (rewritten, buf) ← rewriteRelativePathFromDirfd atFdcwd pathname buf bufLen
    if rewritten ≠ 0 then return some (← buf.string) else return pathname

/-- `rewrite_at_argument`: the directory descriptor and the path afterwards -/
def rewriteAtArgument (dirfd : Int32) (pathname : Option CString) (buf : CharArray)
    (bufLen : Nat) : Interp (Int32 × Option CString) := do
  let some path := pathname | return (dirfd, pathname)
  if path.charAt 0 = slash then
    return (dirfd, ← rewritePathArgument pathname buf bufLen)
  else
    let (rewritten, buf) ← rewriteRelativePathFromDirfd dirfd pathname buf bufLen
    -- a rewritten path is absolute, so the descriptor no longer counts
    if rewritten ≠ 0 then return (atFdcwd, some (← buf.string)) else return (dirfd, pathname)

end LdPreload
