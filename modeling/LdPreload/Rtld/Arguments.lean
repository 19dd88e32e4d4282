/-
  LdPreload.Rtld.Arguments

  What happens to one path argument, in terms of the policy and of what the
  real library reports.  `Libc.source` is the text that is cleaned for the
  argument, `RewritePolicy.Applies` the test on the cleaned text.  An argument
  whose text does not pass is handed on as it is; for one that does,
  `Rewritten` says what takes its place.

  `Follows` collects this for a policy that `init_rewrite_policy` has left,
  enabled or not, and `forall_forwarded_iff` carries it over to whole calls.
-/

import LdPreload.Rtld.WrappersSound

namespace LdPreload

open CMem Lexical Once

/-- The text that is cleaned for an argument, if it comes to that. -/
def Libc.source (libc : Libc) (a : PathArg) : Option CString :=
  a.path.bind fun path =>
    if isAbsolute path then some path
    else if a.relative then (libc.base a.dirfd).bind fun base => joined base path
    else none

theorem Libc.source_of_absolute {libc : Libc} {a : PathArg} {path : CString}
    (hpath : a.path = some path) (habs : isAbsolute path = true) : libc.source a = some path := by
  rw [Libc.source, hpath, Option.bind_some, if_pos habs]

namespace RewritePolicy

/-- A cleaned text is matched, and what takes its place fits. -/
def Applies (rp : RewritePolicy) (text : CString) : Prop :=
  rp.enabled = true ∧ pathMatchesPrefix text rp.fromPath rp.fromLen = true ∧
    rp.toLen + (text.length - rp.fromLen) + 1 ≤ pathMax

instance (rp : RewritePolicy) (text : CString) : Decidable (rp.Applies text) :=
  inferInstanceAs (Decidable (_ ∧ _))

/-- The policy has nothing to do for an argument. -/
def Skips (rp : RewritePolicy) (libc : Libc) (a : PathArg) : Prop :=
  ∀ s t, libc.source a = some s → cleaned s = some t → ¬ rp.Applies t

/-- The argument is an absolute path that is its own substitute. -/
def Fixes (rp : RewritePolicy) (a : PathArg) : Prop :=
  ∃ path t, a.path = some path ∧ isAbsolute path = true ∧ cleaned path = some t ∧
    path.chars = rp.toPath.chars ++ t.chars.drop rp.fromLen

/-- The directories of `LD_PRELOAD_REWRITE_FROM`. -/
def fromDirs (rp : RewritePolicy) : List Segment := resolve rp.fromPath.chars

/-- The directories of `LD_PRELOAD_REWRITE_TO`. -/
def toDirs (rp : RewritePolicy) : List Segment := resolve rp.toPath.chars

end RewritePolicy

/-- The string `u` takes the place of the text `t` that the source `s` of an
    argument was cleaned to: what `s` leads to below FROM lies below TO. -/
structure Spliced (rp : RewritePolicy) (s t u : CString) : Prop where
  absolute : isAbsolute u = true
  short : u.length < pathMax
  chars : u.chars = rp.toPath.chars ++ t.chars.drop rp.fromLen
  source_absolute : isAbsolute s = true
  dirs : ∃ rest, resolve s.chars = rp.fromDirs ++ rest ∧
    segments slash u.chars = rp.toDirs ++ rest ∧ resolve u.chars = rp.toDirs ++ rest

/-- The argument `a'` is what a rewritten argument `a` becomes. -/
structure Rewritten (rp : RewritePolicy) (s t : CString) (a a' : PathArg) : Prop where
  relative : a'.relative = a.relative
  dirfd : a'.dirfd = if a.path.any isAbsolute then a.dirfd else atFdcwd
  path : ∃ u, a'.path = some u ∧ Spliced rp s t u

namespace Mapping

variable (m : Mapping) {libc : Libc} {a : PathArg}

theorem fromDirs_policy : m.policy.fromDirs = m.src.dirs :=
  resolve_pathText m.src.names m.src.atSlash

theorem toDirs_policy : m.policy.toDirs = m.dst.dirs :=
  resolve_pathText m.dst.names m.dst.atSlash

theorem argTarget_eq (libc : Libc) (a : PathArg) :
    m.argTarget libc a = ((libc.source a).bind cleaned).bind m.target := by
  rw [argTarget, Libc.source, Option.bind_assoc]
  cases a.path with
  | none => rfl
  | some path =>
    simp only [Option.bind_some]
    by_cases habs : isAbsolute path = true
    · rw [if_pos habs, if_pos habs, absoluteTarget, if_pos habs, Option.bind_some]
    · rw [if_neg habs, if_neg habs]
      cases a.relative with
      | false => rfl
      | true =>
        rw [if_pos rfl, if_pos rfl, relativeTarget, if_neg habs, Libc.relativeText,
          Option.bind_assoc, Option.bind_assoc]
        cases libc.base a.dirfd with
        | none => rfl
        | some base => simp only [Option.bind_some, Option.bind_assoc]

/-- `Applies` is the test that the substitution makes. -/
theorem target_eq (text : CString) :
    m.target text = if m.policy.Applies text then some (m.dst.text ++ text.drop m.src.text.length)
      else none := by
  have hlen : (text.drop m.src.text.length).length = text.length - m.src.text.length :=
    List.length_drop
  rw [target, substituted, hlen]
  by_cases h : m.policy.Applies text
  · rw [if_pos h]
    exact if_pos h.2
  · rw [if_neg h]
    exact if_neg fun h' => h ⟨rfl, h'⟩

/-- A text that passes the test is spliced as the directories say. -/
theorem spliced_of_applies {s t : CString} (ht : cleaned s = some t)
    (happlies : m.policy.Applies t) :
    Spliced m.policy s t (m.dst.text ++ t.drop m.src.text.length) := by
  have htarget : m.target t = some (m.dst.text ++ t.drop m.src.text.length) := by
    rw [target_eq, if_pos happlies]
  have habs : isAbsolute s = true := by
    by_contra hrel
    -- the text of a relative source does not start as FROM does
    obtain ⟨suffix, hsuffix, -⟩ := (pathMatchesPrefix_iff_append t m.src.text).mp happlies.2.1
    have := cleaned_relative (Bool.not_eq_true _ ▸ hrel) ht
    rw [m.src.isAbsolute_of_append hsuffix] at this
    exact absurd this (by decide)
  -- from here on everything is said by the directories that FROM covers
  obtain ⟨c, rfl, hdirs, -⟩ := exists_cleanPath habs ht
  obtain ⟨rest, hcovers, hchars, hlen⟩ := CleanPath.substituted_eq_some_iff.mp htarget
  have hsegs := hcovers.segments_substituted m.dst
  rw [← hchars] at hsegs
  have hnames : ∀ d ∈ segments slash (m.dst.text ++ c.text.drop m.src.text.length).chars,
      IsName d := by
    intro d hd
    rw [hsegs] at hd
    rcases List.mem_append.mp hd with hd | hd
    · exact m.dst.names d hd
    · exact hcovers.names d hd
  refine ⟨?_, hlen, rfl, habs, rest, ?_, ?_, ?_⟩
  · exact m.dst.isAbsolute_of_append (CString.chars_append ..)
  · rw [← hdirs, fromDirs_policy, hcovers.dirs]
  · rw [toDirs_policy, hsegs]
  · rw [toDirs_policy, resolve_of_names hnames, hsegs]

theorem forwardArg_of_skips (h : m.policy.Skips libc a) : m.forwardArg libc a = a := by
  have htarget : m.argTarget libc a = none := by
    rw [argTarget_eq]
    cases hs : libc.source a with
    | none => rfl
    | some s =>
      rw [Option.bind_some]
      cases ht : cleaned s with
      | none => rfl
      | some t => rw [Option.bind_some, target_eq, if_neg (h s t hs ht)]
  rw [forwardArg, htarget]

theorem rewritten_forwardArg {s t : CString} (hs : libc.source a = some s) (ht : cleaned s = some t)
    (happlies : m.policy.Applies t) : Rewritten m.policy s t a (m.forwardArg libc a) := by
  have htarget : m.argTarget libc a = some (m.dst.text ++ t.drop m.src.text.length) := by
    rw [argTarget_eq, hs, Option.bind_some, ht, Option.bind_some, target_eq, if_pos happlies]
  rw [forwardArg, htarget]
  exact ⟨rfl, rfl, _, rfl, m.spliced_of_applies ht happlies⟩

end Mapping

/-! ## Policies from the environment -/

/-- The directories that the value of `LD_PRELOAD_REWRITE_FROM` leads to. -/
def Environ.fromDirs (env : Environ) : List Segment :=
  (env.fromEnv.map fun path => resolve path.chars).getD []

/-- The directories that the value of `LD_PRELOAD_REWRITE_TO` leads to. -/
def Environ.toDirs (env : Environ) : List Segment :=
  (env.toEnv.map fun path => resolve path.chars).getD []

theorem dirs_of_init {env : Environ} {rp : RewritePolicy} (h : initRewritePolicy env = .ok rp)
    (henabled : rp.enabled = true) :
    rp.fromDirs = env.fromDirs ∧ rp.toDirs = env.toDirs := by
  rcases initRewritePolicy_cases env with ⟨m, fromEnv, toEnv, hm, hinit⟩ | ⟨-, hinit⟩
  · obtain rfl := Except.ok.inj (h.symm.trans hinit)
    rw [m.fromDirs_policy, m.toDirs_policy, hm.src_dirs, hm.dst_dirs, Environ.fromDirs,
      Environ.toDirs, hm.from_set, hm.to_set]
    exact ⟨rfl, rfl⟩
  · obtain rfl := Except.ok.inj (h.symm.trans hinit)
    exact absurd henabled (by decide)

/-- The mapping behind an enabled policy. -/
theorem exists_mapping {env : Environ} {rp : RewritePolicy}
    (hinit : initRewritePolicy env = .ok rp) (henabled : rp.enabled = true) :
    ∃ m : Mapping, rp = m.policy ∧ m.src.dirs = env.fromDirs ∧ m.dst.dirs = env.toDirs := by
  obtain ⟨hfrom, hto⟩ := dirs_of_init hinit henabled
  rcases initRewritePolicy_cases env with ⟨m, -, -, -, hm⟩ | ⟨-, hm⟩
  · obtain rfl := Except.ok.inj (hinit.symm.trans hm)
    exact ⟨m, rfl, m.fromDirs_policy.symm.trans hfrom, m.toDirs_policy.symm.trans hto⟩
  · obtain rfl := Except.ok.inj (hinit.symm.trans hm)
    exact absurd henabled (by decide)

/-- Under the policy, all wrappers change their arguments by `f`, which
    rewrites what the policy applies to and nothing else. -/
structure Follows (libc : Libc) (rp : RewritePolicy) (f : PathArg → PathArg) : Prop where
  rewrites : Rewrites libc rp f
  keepsCwd : Call.KeepsCwd f
  skipped : ∀ {a}, rp.Skips libc a → f a = a
  rewritten : ∀ {a s t}, libc.source a = some s → cleaned s = some t → rp.Applies t →
    Rewritten rp s t a (f a)

theorem exists_follows {env : Environ} {rp : RewritePolicy} (h : initRewritePolicy env = .ok rp)
    (libc : Libc) : ∃ f, Follows libc rp f := by
  rcases initRewritePolicy_cases env with ⟨m, fromEnv, toEnv, -, hinit⟩ | ⟨-, hinit⟩
  · obtain rfl := Except.ok.inj (h.symm.trans hinit)
    exact ⟨m.forwardArg libc, m.rewrites libc, m.keepsCwd_forwardArg libc, m.forwardArg_of_skips,
      m.rewritten_forwardArg⟩
  · obtain rfl := Except.ok.inj (h.symm.trans hinit)
    exact ⟨id, rewrites_of_disabled libc rfl, fun _ => ⟨rfl, id⟩, fun _ => rfl,
      fun _ _ happlies => absurd happlies.1 (by decide)⟩

namespace Follows

variable {libc : Libc} {rp : RewritePolicy} {f : PathArg → PathArg}

theorem skips_or_applies (rp : RewritePolicy) (libc : Libc) (a : PathArg) :
    rp.Skips libc a ∨ ∃ s t, libc.source a = some s ∧ cleaned s = some t ∧ rp.Applies t := by
  by_cases h : rp.Skips libc a
  · exact Or.inl h
  · right
    simp only [RewritePolicy.Skips, not_forall, not_not] at h
    obtain ⟨s, t, hs, ht, happlies⟩ := h
    exact ⟨s, t, hs, ht, happlies⟩

/-- An argument stays the same when there is nothing to do, or when what is
    done makes no difference. -/
theorem eq_self_iff (h : Follows libc rp f) {a : PathArg} :
    f a = a ↔ rp.Skips libc a ∨ rp.Fixes a := by
  rcases skips_or_applies rp libc a with hskips | ⟨s, t, hs, ht, happlies⟩
  · exact ⟨fun _ => Or.inl hskips, fun _ => h.skipped hskips⟩
  · have hrewritten := h.rewritten hs ht happlies
    obtain ⟨u, hu, hspliced⟩ := hrewritten.path
    refine ⟨fun heq => Or.inr ?_, fun hcond => ?_⟩
    · -- the substitute is absolute, so the path was, and is its own source
      rw [heq] at hu
      obtain rfl := Option.some.inj ((Libc.source_of_absolute hu hspliced.absolute).symm.trans hs)
      exact ⟨u, t, hu, hspliced.absolute, ht, hspliced.chars⟩
    · obtain ⟨path, t', hpath, habs, ht', hchars⟩ := hcond.resolve_left fun hskips =>
        hskips s t hs ht happlies
      obtain rfl := Option.some.inj ((Libc.source_of_absolute hpath habs).symm.trans hs)
      obtain rfl := Option.some.inj (ht.symm.trans ht')
      have hsame : u = path := CString.ext (hspliced.chars.trans hchars.symm)
      refine PathArg.ext hrewritten.relative ?_ (by rw [hu, hsame, hpath])
      rw [hrewritten.dirfd, hpath, if_pos (show (some path).any isAbsolute = true from habs)]

theorem forwarded (h : Follows libc rp f) (c : Call) :
    eval libc rp (interpose c) = .ok (libc.outcome (c.effective.mapArgs f)) :=
  h.rewrites.eval_interpose c

theorem forwarded_of_resolves (h : Follows libc rp f) {c : Call}
    (hc : libc.resolves c.symbol = true) :
    eval libc rp (interpose c) = .ok (.forwarded (c.effective.mapArgs f)) := by
  rw [h.forwarded c, Libc.outcome, Call.symbol_mapArgs, Call.symbol_effective, if_pos hc]

/-- A forwarded call is the call, with its arguments changed. -/
theorem eq_of_forwarded (h : Follows libc rp f) {c c' : Call}
    (hc' : eval libc rp (interpose c) = .ok (.forwarded c')) : c' = c.effective.mapArgs f := by
  rw [h.forwarded c, Libc.outcome] at hc'
  split at hc'
  · exact (Outcome.forwarded.inj (Except.ok.inj hc')).symm
  · exact absurd (Except.ok.inj hc') (by simp)

theorem args_of_forwarded (h : Follows libc rp f) {c c' : Call}
    (hc' : eval libc rp (interpose c) = .ok (.forwarded c')) : c'.args = c.args.map f := by
  rw [h.eq_of_forwarded hc', Call.args_mapArgs h.keepsCwd, Call.args_effective]

/-- A statement about the arguments of all forwarded calls is one about the
    arguments that the program has given. -/
theorem forall_forwarded_iff (h : Follows libc rp f) {c : Call} {P : PathArg → PathArg → Prop} :
    (∀ c', eval libc rp (interpose c) = .ok (.forwarded c') → List.Forall₂ P c.args c'.args) ↔
      (libc.resolves c.symbol = true → ∀ a ∈ c.args, P a (f a)) := by
  have hargs : (c.effective.mapArgs f).args = c.args.map f := by
    rw [Call.args_mapArgs h.keepsCwd, Call.args_effective]
  have hiff : List.Forall₂ P c.args (c.args.map f) ↔ ∀ a ∈ c.args, P a (f a) := by
    rw [List.forall₂_map_right_iff, List.forall₂_same]
  rw [h.forwarded c, Libc.outcome, Call.symbol_mapArgs, Call.symbol_effective]
  by_cases hsym : libc.resolves c.symbol = true
  · rw [if_pos hsym, ← hiff, ← hargs]
    refine ⟨fun hall _ => hall _ rfl, fun hall c' hc' => ?_⟩
    obtain rfl := Outcome.forwarded.inj (Except.ok.inj hc')
    exact hall hsym
  · -- without the real function nothing is forwarded
    rw [if_neg hsym]
    refine ⟨fun _ h' => absurd h' hsym, fun _ c' hc' => ?_⟩
    exact absurd (Except.ok.inj hc') (by simp)

end Follows

/-! ## Absolute paths -/

/-- `rewrite_absolute_path` rewrites `path` to `u`. -/
def RewritesTo (libc : Libc) (rp : RewritePolicy) (path u : CString) : Prop :=
  ∃ dst, eval libc rp (rewriteAbsolutePath (some path) (.uninit pathMax) pathMax) = .ok (1, dst) ∧
    dst.string = .ok u

/-- A path that is rewritten has been cleaned to a text that the policy applies
    to. -/
theorem RewritesTo.spliced {env : Environ} {rp : RewritePolicy} {libc : Libc} {path u : CString}
    (h : RewritesTo libc rp path u) (hinit : initRewritePolicy env = .ok rp) :
    ∃ t, cleaned path = some t ∧ rp.Applies t ∧ Spliced rp path t u := by
  obtain ⟨dst, hok, hstring⟩ := h
  -- a return of 1 rules out every path that returns 0
  have hone : ∀ dst', eval libc rp (rewriteAbsolutePath (some path) (.uninit pathMax) pathMax) ≠
      .ok (0, dst') := by
    intro dst' hzero
    exact absurd (congrArg Prod.fst (Except.ok.inj (hok.symm.trans hzero))) (by simp)
  cases henabled : rp.enabled with
  | false =>
    exact absurd (eval_rewriteAbsolutePath_of_disabled libc henabled (some path) _) (hone _)
  | true =>
    obtain ⟨m, rfl, -, -⟩ := exists_mapping hinit henabled
    have hanswer : Answers (m.absoluteTarget path)
        (eval libc m.policy (rewriteAbsolutePath (some path) (.uninit pathMax) pathMax)) :=
      eval_rewriteAbsolutePath m path rfl
    cases ht : m.absoluteTarget path with
    | none =>
      rw [ht] at hanswer
      obtain ⟨dst', hzero⟩ := hanswer
      exact absurd hzero (hone dst')
    | some u' =>
      rw [ht] at hanswer
      obtain ⟨dst', hok', hstring'⟩ := hanswer
      obtain rfl : dst = dst' := congrArg Prod.snd (Except.ok.inj (hok.symm.trans hok'))
      obtain rfl : u = u' := Except.ok.inj (hstring.symm.trans hstring')
      unfold Mapping.absoluteTarget at ht
      split at ht
      · obtain ⟨t, hclean, htarget⟩ := Option.bind_eq_some_iff.mp ht
        rw [m.target_eq] at htarget
        split at htarget
        · next happlies =>
          obtain rfl := Option.some.inj htarget
          exact ⟨t, hclean, happlies, m.spliced_of_applies hclean happlies⟩
        · exact absurd htarget (by simp)
      · exact absurd ht (by simp)

/-! ## Sources -/

/-- What the real library reports for the directory that a relative path
    starts from. -/
def Libc.reported (libc : Libc) (dirfd : Int32) : Option CString :=
  if dirfd = atFdcwd then
    if libc.resolves .getcwd then libc.getcwd pathMax else none
  else if libc.resolves .readlink then
    (libc.readlink (fdPath dirfd) (pathMax - 1)).filter (·.length < pathMax - 1)
  else
    none

theorem chars_joinText (base path : CString) :
    (joinText base path).chars = base.chars ++ slash :: path.chars := by
  show base.chars ++ [slash] ++ path.chars = _
  rw [List.append_assoc, List.singleton_append]

theorem isAbsolute_joinText {base : CString} (h : isAbsolute base = true) (path : CString) :
    isAbsolute (joinText base path) = true := by
  obtain ⟨rest, hrest⟩ := isAbsolute_iff.mp h
  exact isAbsolute_iff.mpr ⟨_, by rw [chars_joinText, hrest, List.cons_append]⟩

theorem length_joinText (base path : CString) :
    (joinText base path).length = base.length + 1 + path.length := by
  rw [CString.length_def, chars_joinText, List.length_append, List.length_cons, CString.length_def,
    CString.length_def]
  omega

theorem resolve_joinText (base path : CString) :
    resolve (joinText base path).chars = walk (resolve base.chars) (segments slash path.chars) := by
  rw [chars_joinText]
  exact resolve_append_sep base.chars path.chars

/-- A relative path without `..` makes the cleaned text of its base longer by
    its own length and a separator, at most. -/
theorem length_cleaned_joinText {base path t t' : CString} (habs : isAbsolute base = true)
    (ht : cleaned base = some t) (ht' : cleaned (joinText base path) = some t')
    (hparent : [dot, dot] ∉ segments slash path.chars) :
    t'.length ≤ t.length + 1 + path.length := by
  obtain ⟨hchars, -⟩ := cleaned_absolute habs ht
  obtain ⟨hchars', -⟩ := cleaned_absolute (isAbsolute_joinText habs path) ht'
  -- the names that the path adds take no more bytes than its segments
  have hwalk : ((resolve (joinText base path).chars).map (·.length + 1)).sum ≤
      ((resolve base.chars).map (·.length + 1)).sum +
        ((segments slash path.chars).map (·.length + 1)).sum := by
    rw [resolve_joinText]
    exact sum_walk_le _ _
  have hsegs := sum_segments_le slash path.chars
  -- the separator at the end is one that the base had already
  have hslash : leavesSlash (joinText base path).chars = true → leavesSlash base.chars = true := by
    rw [chars_joinText, leavesSlash_append_sep base.chars hparent, Bool.and_eq_true]
    exact And.left
  rw [CString.length_def, CString.length_def t, CString.length_def path, hchars, hchars',
    length_pathText, length_pathText]
  -- in each case the separators cancel, or only the right side has one
  by_cases h : leavesSlash (joinText base path).chars = true
  · rw [if_pos h, if_pos (hslash h)]
    omega
  · rw [if_neg h]
    omega

/-- A text that is joined for a base and a path: all of it, or its start when
    its length is no `int`. -/
theorem joined_eq_some_iff {base path s : CString} :
    joined base path = some s ↔
      ((joinText base path).length < pathMax ∧ s = joinText base path) ∨
      (intMax < (joinText base path).length ∧ s = (joinText base path).take (pathMax - 1)) := by
  unfold joined CString.snprintf
  by_cases hint : (joinText base path).length ≤ intMax
  · -- the length is returned, and the test for overflow means what it says
    rw [if_pos hint]
    by_cases hlen : (joinText base path).length < pathMax
    · have htake : (joinText base path).take (pathMax - 1) = joinText base path :=
        CString.ext (List.take_of_length_le (by rw [← CString.length_def]; omega))
      rw [if_neg (by omega), htake, Option.some.injEq, eq_comm]
      exact ⟨fun h => Or.inl ⟨hlen, h⟩, fun h => h.elim And.right fun h => absurd h.1 (by omega)⟩
    · rw [if_pos (by omega)]
      refine ⟨fun h => absurd h (by simp), fun h => ?_⟩
      rcases h with h | h <;> exact absurd h.1 (by omega)
  · -- -1 is returned, which is not at least `PATH_MAX`
    rw [if_neg hint, if_neg (by unfold pathMax; omega), Option.some.injEq, eq_comm]
    refine ⟨fun h => Or.inr ⟨by omega, h⟩, fun h => h.elim (fun h => absurd h.1 ?_) And.right⟩
    unfold intMax at hint
    unfold pathMax
    omega

/-- The base leads where the reported directory leads. -/
theorem reported_of_base {libc : Libc} {dirfd : Int32} {base : CString}
    (h : libc.base dirfd = some base) :
    ∃ r, libc.reported dirfd = some r ∧ resolve base.chars = resolve r.chars := by
  unfold Libc.base at h
  unfold Libc.reported
  split at h
  · next hcwd =>
    rw [if_pos hcwd]
    exact ⟨base, h, rfl⟩
  · next hcwd =>
    rw [if_neg hcwd]
    split at h
    · next hsym =>
      rw [if_pos hsym]
      split at h
      · next link hlink =>
        rw [hlink]
        split at h
        · next hcond =>
          obtain ⟨c, rfl, hdirs, -⟩ := exists_cleanPath hcond.2 h
          refine ⟨link, by simp [hcond.1], ?_⟩
          rw [← hdirs]
          exact resolve_pathText c.names c.atSlash
        · exact absurd h (by simp)
      · exact absurd h (by simp)
    · exact absurd h (by simp)

end LdPreload
