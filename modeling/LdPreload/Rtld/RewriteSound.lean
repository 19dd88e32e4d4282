/-
  LdPreload.Rtld.RewriteSound

  What the rewriting functions compute under a policy, with their arrays and
  status values stripped: `Mapping.absoluteTarget` and
  `Mapping.relativeTarget` are the strings that take the place of a path, or
  `none` where the C code falls through.  Each function is evaluated once, and
  nothing above this module unfolds it again.
-/

import LdPreload.Rtld.Mapping

namespace LdPreload

open CMem Once

/-! ## Strings without arrays -/

/-- The directory that a relative path starts from, as the interposer finds
    it. -/
def Libc.base (libc : Libc) (dirfd : Int32) : Option CString :=
  if dirfd = atFdcwd then
    if libc.resolves .getcwd then libc.getcwd pathMax else none
  else if libc.resolves .readlink then
    match libc.readlink (fdPath dirfd) (pathMax - 1) with
    | some link => if link.length < pathMax - 1 ∧ isAbsolute link then cleaned link else none
    | none => none
  else
    none

/-- `"%s/%s"` -/
def joinText (base path : CString) : CString := base ++ .ofAscii ['/'] ++ path

/-- What `join_and_clean_path` cleans: the joined text, or the start of it when
    `snprintf` cannot even say how long it is. -/
def joined (base path : CString) : Option CString :=
  if (CString.snprintf pathMax (joinText base path)).2 ≥ pathMax then none
  else some (CString.snprintf pathMax (joinText base path)).1

/-- The cleaned text of a relative path. -/
def Libc.relativeText (libc : Libc) (dirfd : Int32) (path : CString) : Option CString :=
  (libc.base dirfd).bind fun base => (joined base path).bind cleaned

namespace Mapping

/-- What takes the place of a cleaned text. -/
def target (m : Mapping) (text : CString) : Option CString :=
  substituted m.src.text m.dst.text text pathMax

def absoluteTarget (m : Mapping) (path : CString) : Option CString :=
  if isAbsolute path then (cleaned path).bind m.target else none

def relativeTarget (m : Mapping) (libc : Libc) (dirfd : Int32) (path : CString) : Option CString :=
  if isAbsolute path then none else (libc.relativeText dirfd path).bind m.target

end Mapping

/-- A function has put the string `o` into its array and returned 1, or has
    returned 0. -/
def Answers (o : Option CString) (r : Except Stop (Int × CharArray)) : Prop :=
  match o with
  | some t => ∃ dst, r = .ok (1, dst) ∧ dst.string = .ok t
  | none => ∃ dst, r = .ok (0, dst)

theorem Answers.exists_ok {o : Option CString} {r : Except Stop (Int × CharArray)}
    (h : Answers o r) : ∃ result, r = .ok result := by
  cases o with
  | none =>
    obtain ⟨dst, hok⟩ := h
    exact ⟨_, hok⟩
  | some t =>
    obtain ⟨dst, hok, -⟩ := h
    exact ⟨_, hok⟩

theorem charAt_zero_eq_slash {path : CString} : path.charAt 0 = slash ↔ isAbsolute path = true := by
  simp [isAbsolute]

/-! ## Substitution and joining -/

variable {libc : Libc}

/-- The end of both rewriting functions, on the text that the path is cleaned
    to: -1 becomes 0, and 0 becomes 1. -/
def concluded (k : RewritePolicy) (text : Option CString) (dst : CharArray) (dstLen : Nat) :
    Except Stop (Int × CharArray) :=
  match text with
  | none => return (0, dst)
  | some text => do
    let (status, dst) ← substitute k.enabled k.fromPath k.fromLen k.toPath k.toLen (some text) dst
      dstLen
    if status ≠ 0 then return (0, dst) else return (1, dst)

theorem concluded_of_disabled {k : RewritePolicy} (hk : k.enabled = false) (text : Option CString)
    (dst : CharArray) (dstLen : Nat) : concluded k text dst dstLen = .ok (0, dst) := by
  cases text with
  | none => rfl
  | some text =>
    rw [concluded, hk]
    rfl

theorem eval_substitutePrefix (k : RewritePolicy) (path : Option CString) (dst : CharArray)
    (dstLen : Nat) :
    eval libc k (substitutePrefix path dst dstLen) =
      substitute k.enabled k.fromPath k.fromLen k.toPath k.toLen path dst dstLen := by
  rw [substitutePrefix, eval_bind, eval_peek]
  exact eval_lift _

theorem eval_substitutePrefixReverse (k : RewritePolicy) (path : Option CString) (dst : CharArray)
    (dstLen : Nat) :
    eval libc k (substitutePrefixReverse path dst dstLen) =
      substitute k.enabled k.toPath k.toLen k.fromPath k.fromLen path dst dstLen := by
  rw [substitutePrefixReverse, eval_bind, eval_peek]
  exact eval_lift _

theorem eval_concluded (k : RewritePolicy) (text : CString) (dst : CharArray) (dstLen : Nat) :
    eval libc k ((do
      let (status, dst) ← substitutePrefix (some text) dst dstLen
      if status ≠ 0 then return (0, dst) else return (1, dst)) : Interp (Int × CharArray)) =
      concluded k (some text) dst dstLen := by
  rw [eval_bind, eval_substitutePrefix, concluded]
  cases substitute k.enabled k.fromPath k.fromLen k.toPath k.toLen (some text) dst dstLen with
  | error stop => rfl
  | ok result =>
    obtain ⟨status, dst'⟩ := result
    show eval libc k (if status ≠ 0 then _ else _) = if status ≠ 0 then _ else _
    split <;> rfl

/-- Under the policy of a mapping, what takes the place of the text is
    answered, in an array that is as long as it is said to be. -/
theorem answers_concluded (m : Mapping) (text : Option CString) {dst : CharArray} {dstLen : Nat}
    (hcap : dstLen ≤ dst.cap) :
    Answers (text.bind fun text => substituted m.src.text m.dst.text text dstLen)
      (concluded m.policy text dst dstLen) := by
  cases text with
  | none => exact ⟨dst, rfl⟩
  | some text =>
    have hspec := substitute_spec m.src.text m.dst.text text hcap
    rw [Option.bind_some]
    show Answers _ (substitute true m.src.text m.src.text.length m.dst.text m.dst.text.length
      (some text) dst dstLen >>= fun result => _)
    cases hsub : substituted m.src.text m.dst.text text dstLen with
    | none =>
      rw [hsub] at hspec
      rw [show substitute true _ _ _ _ _ _ _ = .ok (-1, dst) from hspec]
      exact ⟨dst, rfl⟩
    | some t =>
      rw [hsub] at hspec
      obtain ⟨dst', hok, -, hstring⟩ := hspec
      rw [hok]
      exact ⟨dst', rfl, hstring⟩

theorem attempt_joinAndCleanPath (base path : CString) {dst : CharArray}
    (hcap : dst.cap = pathMax) :
    match (joined base path).bind cleaned with
    | some t => ∃ dst', attempt (joinAndCleanPath (some base) (some path) dst pathMax) =
        .ok (some dst') ∧ dst'.string = .ok t
    | none => attempt (joinAndCleanPath (some base) (some path) dst pathMax) = .ok none := by
  have hjoin : joinAndCleanPath (some base) (some path) dst pathMax =
      if (CString.snprintf pathMax (joinText base path)).2 ≥ pathMax then .error .fail
      else cleanPathInto (some (CString.snprintf pathMax (joinText base path)).1) dst pathMax := rfl
  unfold joined
  by_cases hn : (CString.snprintf pathMax (joinText base path)).2 ≥ pathMax
  · -- the test of the code, on the signed value that `snprintf` returns
    rw [if_pos hn] at hjoin
    rw [if_pos hn]
    show attempt (joinAndCleanPath (some base) (some path) dst pathMax) = _
    rw [hjoin]
    rfl
  · -- the array holds a whole text, or the start of one that is far too long
    rw [if_neg hn] at hjoin
    rw [if_neg hn, Option.bind_some, hjoin]
    have hspec := attempt_cleanPathInto (CString.snprintf pathMax (joinText base path)).1 dst hcap
    cases hc : cleaned (CString.snprintf pathMax (joinText base path)).1 with
    | none => rw [hc] at hspec; exact hspec
    | some t =>
      rw [hc] at hspec
      obtain ⟨dst', hok, -, hstring⟩ := hspec
      exact ⟨dst', hok, hstring⟩

/-! ## The base directory -/

theorem snprintf_fdPath (dirfd : Int32) :
    CString.snprintf 64 (fdPath dirfd) = (fdPath dirfd, ((fdPath dirfd).length : Int)) ∧
      (fdPath dirfd).length < 64 := by
  have hlen : (fdPath dirfd).length < 64 := by
    have := CString.length_ofDecimal_le dirfd
    rw [fdPath, CString.length_append, show CString.length (.ofAscii _) = 14 from rfl]
    omega
  refine ⟨?_, hlen⟩
  -- nothing is cut, and the length is an `int`
  rw [CString.snprintf, if_pos (by unfold intMax; omega)]
  refine Prod.ext (CString.ext ?_) rfl
  rw [CString.chars_take, List.take_of_length_le]
  rw [CString.length_def] at hlen
  omega

/-- The arrays behind the lookup hold the base, or the lookup has failed. -/
def HoldsBase (o : Option CString) (r : Except Stop (Option (CharArray × CharArray))) : Prop :=
  match o with
  | some b => ∃ base resolved, r = .ok (some (base, resolved)) ∧ base.string = .ok b ∧
      resolved.cap = pathMax
  | none => r = .ok none

theorem baseFromCwd_spec {base resolved : CharArray} (hbase : base.cap = pathMax)
    (hresolved : resolved.cap = pathMax) :
    HoldsBase (libc.base atFdcwd) (baseFromCwd libc base resolved) := by
  unfold Libc.base baseFromCwd
  rw [if_pos rfl]
  cases hsym : libc.resolves .getcwd with
  | false => rfl
  | true =>
    simp only [if_true, Bool.not_true, Bool.false_eq_true, if_false]
    cases hget : libc.getcwd pathMax with
    | none => rfl
    | some cwd =>
      obtain ⟨base', hstore, -, hstring⟩ := CharArray.store_spec (a := base) (s := cwd)
        (by rw [hbase]; exact libc.getcwd_lt hget)
      refine ⟨base', resolved, ?_, hstring, hresolved⟩
      simp only [hstore]
      rfl

theorem baseFromDirfd_spec {dirfd : Int32} (hdirfd : dirfd ≠ atFdcwd) {base resolved : CharArray}
    (hbase : base.cap = pathMax) (hresolved : resolved.cap = pathMax) :
    HoldsBase (libc.base dirfd) (baseFromDirfd libc dirfd base resolved) := by
  obtain ⟨hprintf, hlen⟩ := snprintf_fdPath dirfd
  have hprinted : ¬ ((fdPath dirfd).length : Int) ≥ 64 := by omega
  unfold Libc.base baseFromDirfd
  rw [if_neg hdirfd, hprintf]
  simp only [hprinted, if_false]
  cases hsym : libc.resolves .readlink with
  | false => rfl
  | true =>
    simp only [if_true, Bool.not_true, Bool.false_eq_true, if_false]
    cases hread : libc.readlink (fdPath dirfd) (pathMax - 1) with
    | none => rfl
    | some link =>
      simp only
      by_cases hlong : link.length ≥ pathMax - 1
      · -- a link that fills the buffer may have been cut
        rw [if_neg (by omega), if_pos hlong]
        rfl
      obtain ⟨base', hstore, -, hstring⟩ := CharArray.store_spec (a := base) (s := link)
        (by rw [hbase]; omega)
      rw [if_neg hlong, hstore]
      -- the link has to be absolute, and is cleaned into `resolved`
      show HoldsBase _ (base'.read 0 >>= fun b => _)
      rw [CharArray.read_zero hstring]
      show HoldsBase _ (if link.charAt 0 ≠ slash then _ else _)
      by_cases habs : isAbsolute link = true
      · rw [if_pos ⟨by omega, habs⟩, if_neg (not_not.mpr (charAt_zero_eq_slash.mpr habs)), hstring]
        have hclean := attempt_cleanPathInto link resolved hresolved
        show HoldsBase _ (attempt (cleanPathInto (some link) resolved pathMax) >>= fun o => _)
        cases hc : cleaned link with
        | none =>
          rw [hc] at hclean
          rw [show attempt (cleanPathInto (some link) resolved pathMax) = _ from hclean]
          rfl
        | some b =>
          rw [hc] at hclean
          obtain ⟨resolved', hok, hcap', hstring'⟩ := hclean
          rw [hok]
          exact ⟨resolved', resolved', rfl, hstring', hcap'⟩
      · rw [if_neg fun h => habs h.2, if_pos fun h => habs (charAt_zero_eq_slash.mp h)]
        rfl

theorem findBase_spec (dirfd : Int32) {base resolved : CharArray} (hbase : base.cap = pathMax)
    (hresolved : resolved.cap = pathMax) :
    HoldsBase (libc.base dirfd) (findBase libc dirfd base resolved) := by
  unfold findBase
  split
  · next h =>
    rw [h]
    exact baseFromCwd_spec hbase hresolved
  · next h => exact baseFromDirfd_spec h hbase hresolved

/-! ## The rewriting functions -/

/-- Whatever the policy is, and into any array. -/
theorem eval_rewriteAbsolutePath_eq (k : RewritePolicy) (path : CString) (dst : CharArray)
    (dstLen : Nat) :
    eval libc k (rewriteAbsolutePath (some path) dst dstLen) =
      concluded k (if isAbsolute path then cleaned path else none) dst dstLen := by
  unfold rewriteAbsolutePath
  by_cases habs : isAbsolute path = true
  · have hslash := charAt_zero_eq_slash.mpr habs
    have hclean := attempt_cleanPathInto path (.uninit pathMax) rfl
    simp only [hslash, ne_eq, not_true, if_false, habs, if_true]
    rw [getRewritePolicy, eval_bind_ok eval_consult]
    cases hk : k.enabled with
    | false =>
      rw [concluded_of_disabled hk]
      rfl
    | true =>
      simp only [Bool.not_true, Bool.false_eq_true, if_false]
      cases hc : cleaned path with
      | none =>
        -- a path that cannot be cleaned falls through
        rw [hc] at hclean
        rw [eval_lift_bind_ok hclean]
        rfl
      | some text =>
        rw [hc] at hclean
        obtain ⟨cleanedDst, hok, -, hstring⟩ := hclean
        rw [eval_lift_bind_ok hok]
        simp only
        rw [eval_lift_bind_ok hstring]
        exact eval_concluded k text dst dstLen
  · have hslash : path.charAt 0 ≠ slash := fun h => habs (charAt_zero_eq_slash.mp h)
    simp only [if_pos hslash, if_neg habs]
    rfl

theorem eval_rewriteRelativePathFromDirfd_eq (k : RewritePolicy) (dirfd : Int32) (path : CString)
    (dst : CharArray) (dstLen : Nat) :
    eval libc k (rewriteRelativePathFromDirfd dirfd (some path) dst dstLen) =
      concluded k (if isAbsolute path then none else libc.relativeText dirfd path) dst dstLen := by
  unfold rewriteRelativePathFromDirfd Libc.relativeText
  by_cases habs : isAbsolute path = true
  · simp only [if_pos (charAt_zero_eq_slash.mpr habs), if_pos habs]
    rfl
  · have hslash : ¬ path.charAt 0 = slash := fun h => habs (charAt_zero_eq_slash.mp h)
    have hlookup : HoldsBase (libc.base dirfd)
        (findBase libc dirfd (.uninit pathMax) (.uninit pathMax)) := findBase_spec dirfd rfl rfl
    simp only [if_neg hslash, if_neg habs]
    rw [getRewritePolicy, eval_bind_ok eval_consult]
    cases hk : k.enabled with
    | false =>
      rw [concluded_of_disabled hk]
      rfl
    | true =>
      simp only [Bool.not_true, Bool.false_eq_true, if_false]
      rw [eval_bind_ok eval_look]
      cases hb : libc.base dirfd with
      | none =>
        -- no base, no rewriting
        rw [hb] at hlookup
        rw [eval_lift_bind_ok hlookup]
        rfl
      | some b =>
        rw [hb] at hlookup
        obtain ⟨base, resolved, hok, hstring, hresolved⟩ := hlookup
        rw [eval_lift_bind_ok hok]
        simp only
        rw [eval_lift_bind_ok hstring]
        have hjoin := attempt_joinAndCleanPath b path hresolved
        rw [Option.bind_some]
        cases hj : (joined b path).bind cleaned with
        | none =>
          -- nor if the join is too long or cannot be cleaned
          rw [hj] at hjoin
          rw [eval_lift_bind_ok hjoin]
          rfl
        | some text =>
          rw [hj] at hjoin
          obtain ⟨resolved', hok', hstring'⟩ := hjoin
          rw [eval_lift_bind_ok hok']
          simp only
          rw [eval_lift_bind_ok hstring']
          exact eval_concluded k text dst dstLen

theorem eval_rewriteAbsolutePath (m : Mapping) (path : CString) {dst : CharArray}
    (hcap : dst.cap = pathMax) :
    Answers (m.absoluteTarget path)
      (eval libc m.policy (rewriteAbsolutePath (some path) dst pathMax)) := by
  have htarget : m.absoluteTarget path =
      (if isAbsolute path then cleaned path else none).bind m.target := by
    unfold Mapping.absoluteTarget
    split <;> rfl
  rw [eval_rewriteAbsolutePath_eq, htarget]
  exact answers_concluded m _ (Nat.le_of_eq hcap.symm)

theorem eval_rewriteRelativePathFromDirfd (m : Mapping) (dirfd : Int32) (path : CString)
    {dst : CharArray} (hcap : dst.cap = pathMax) :
    Answers (m.relativeTarget libc dirfd path)
      (eval libc m.policy (rewriteRelativePathFromDirfd dirfd (some path) dst pathMax)) := by
  have htarget : m.relativeTarget libc dirfd path =
      (if isAbsolute path then none else libc.relativeText dirfd path).bind m.target := by
    unfold Mapping.relativeTarget
    split <;> rfl
  rw [eval_rewriteRelativePathFromDirfd_eq, htarget]
  exact answers_concluded m _ (Nat.le_of_eq hcap.symm)

end LdPreload
