/-
  LdPreload.Rtld.Clean

  `clean_path_into` of `rtld_linux.c`: the loop that copies a path segment by
  segment into an array, drops `.`, and takes the last segment back at `..`.
  The array, the offsets of the segments in it and the output offset are kept
  as the C code keeps them; every store, every load of `dst[out - 1]` and
  every access to `seg_starts` is checked.
-/

import LdPreload.C.CharArray

namespace LdPreload

open CMem

/-- `PATH_MAX`. -/
def pathMax : Nat := 4096

/-- `'/'` -/
def slash : Byte := 47

/-- `'.'` -/
def dot : Byte := 46

/-- `path[0] == '/'` -/
def isAbsolute (path : CString) : Bool := path.charAt 0 == slash

/-- The locals of `clean_path_into`.  `segStarts` holds the entries of
    `seg_starts` below `seg_count`, the last one first. -/
structure CleanState where
  dst : CharArray
  segStarts : List Nat
  out : Nat

namespace CleanState

/-- `dst[out++] = c` -/
def put (c : Byte) (st : CleanState) : Except Stop CleanState := do
  let dst ← st.dst.write st.out [c]
  return { st with dst := dst, out := st.out + 1 }

/-- `out != 0 && dst[out - 1] != '/'` -/
def needsSeparator (st : CleanState) : Except Stop Bool :=
  if st.out = 0 then
    return false
  else do
    let prev ← st.dst.read (st.out - 1)
    return prev != slash

/-- The separator in front of a new segment, unless one is there already. -/
def addSeparator (dstLen : Nat) (st : CleanState) : Except Stop CleanState := do
  if ← st.needsSeparator then
    if st.out + 1 ≥ dstLen then .error .fail else st.put slash
  else
    return st

/-- `seg_starts[seg_count++] = out`, into an array of `PATH_MAX` entries -/
def recordStart (st : CleanState) : Except Stop CleanState :=
  if st.segStarts.length < pathMax then
    return { st with segStarts := st.out :: st.segStarts }
  else
    .error .fault

/-- `memcpy (dst + out, start, seg_len); out += seg_len;` -/
def copySegment (dstLen : Nat) (seg : List Byte) (st : CleanState) : Except Stop CleanState :=
  if st.out + seg.length ≥ dstLen then
    .error .fail
  else do
    let dst ← st.dst.write st.out seg
    return { st with dst := dst, out := st.out + seg.length }

/-- The end of the loop body: a segment goes behind what is there. -/
def pushSegment (dstLen : Nat) (seg : List Byte) (st : CleanState) : Except Stop CleanState :=
  if st.segStarts.length ≥ pathMax then
    .error .fail
  else do
    let st ← st.addSeparator dstLen
    let st ← st.recordStart
    st.copySegment dstLen seg

/-- `out = seg_starts[--seg_count]`, with the root put back if that is 0 -/
def popSegment (absolute : Bool) (start : Nat) (below : List Nat) (st : CleanState) :
    Except Stop CleanState :=
  let st := { st with segStarts := below, out := start }
  -- the separator in front of the segment stays, so the text may end in one
  if st.out = 0 ∧ absolute then st.put slash else return st

/-- One round of the outer loop, for the segment that the scan has found. -/
def cleanSegment (absolute : Bool) (dstLen : Nat) (seg : List Byte) (st : CleanState) :
    Except Stop CleanState :=
  if seg = [dot] then
    return st
  else if seg = [dot, dot] then
    match st.segStarts with
    | start :: below => st.popSegment absolute start below
    | [] =>
      -- `..` above the root is dropped; above a relative start it is kept
      if absolute then return st else st.pushSegment dstLen seg
  else
    st.pushSegment dstLen seg

/-- `while (*src != '\0')`.  The fuel bounds the number of segments. -/
def cleanLoop (absolute : Bool) (dstLen : Nat) :
    Nat → List Byte → CleanState → Except Stop CleanState
  | 0, _, _ => .error .fault
  | fuel + 1, src, st =>
    match src.dropWhile (· == slash) with
    | [] => return st
    -- the scan stands on a byte that is no separator, so the segment is not empty
    | c :: rest => do
      let st ← st.cleanSegment absolute dstLen ((c :: rest).takeWhile (· ≠ slash))
      cleanLoop absolute dstLen fuel ((c :: rest).dropWhile (· ≠ slash)) st

/-- `if (absolute) dst[out++] = '/';` -/
def start (absolute : Bool) (dst : CharArray) (dstLen : Nat) : Except Stop CleanState :=
  let st : CleanState := { dst := dst, segStarts := [], out := 0 }
  if absolute then
    if dstLen < 2 then .error .fail else st.put slash
  else
    return st

/-- `if (out == 0)`: an empty result is spelled `/` or `.`. -/
def nameEmpty (absolute : Bool) (dstLen : Nat) (st : CleanState) : Except Stop CleanState :=
  if st.out = 0 then
    if dstLen < 2 then .error .fail else st.put (if absolute then slash else dot)
  else
    return st

/-- `dst[out] = '\0'` -/
def terminate (st : CleanState) : Except Stop CharArray :=
  st.dst.write st.out [nul]

end CleanState

/-- `clean_path_into (src, dst, dst_len)`: the array after a return of 0. -/
def cleanPathInto (src : Option CString) (dst : CharArray) (dstLen : Nat) :
    Except Stop CharArray :=
  match src with
  | none => .error .fail
  | some src =>
    if dstLen = 0 then
      .error .fail
    else do
      let st ← CleanState.start (isAbsolute src) dst dstLen
      let st ← st.cleanLoop (isAbsolute src) dstLen (src.length + 1) src.chars
      let st ← st.nameEmpty (isAbsolute src) dstLen
      st.terminate

end LdPreload
