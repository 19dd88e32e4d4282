/-
  LdPreload.Contract.Confinement

  No stray rewriting: what a wrapper hands on is the argument that it was
  given, or the place below TO that mirrors where the argument leads below
  FROM.  The one way out is the return value of `snprintf`: when base and
  path together are longer than any `int`, it is negative, passes the test for
  overflow, and the first `PATH_MAX - 1` bytes of the joined text are rewritten
  in place of the whole.
-/

import LdPreload.System.Kernel

namespace LdPreload

open CMem Lexical Once

/-- Where an argument leads lexically, a relative one from the directory that
    the real library reports. -/
def Libc.lexical (libc : Libc) (a : PathArg) : Option (List Segment) :=
  a.path.bind fun path =>
    if isAbsolute path then some (resolve path.chars)
    else (libc.reported a.dirfd).map fun dir => resolve (joinText dir path).chars

/-- The argument `a'` handed on for `a`: the same, or its mirror below TO.  The
    descriptor changes only along with a relative path of a wrapper that
    follows such paths, and then to `AT_FDCWD`. -/
def Confined (env : Environ) (libc : Libc) (a a' : PathArg) : Prop :=
  a' = a ∨ ∃ u rest, a'.path = some u ∧ isAbsolute u = true ∧ u.length < pathMax ∧
    segments slash u.chars = env.toDirs ++ rest ∧
    libc.lexical a = some (env.fromDirs ++ rest) ∧
    if a.path.any isAbsolute then a'.dirfd = a.dirfd
    else a.relative = true ∧ a'.dirfd = atFdcwd

/-- When the joined text is longer than any `int`, its first `PATH_MAX - 1`
    bytes are not rewritten, or lead where all of it leads. -/
def CutSafely (rp : RewritePolicy) (libc : Libc) (a : PathArg) : Prop :=
  ∀ path base, a.path = some path → isAbsolute path = false → a.relative = true →
    libc.base a.dirfd = some base → intMax < (joinText base path).length →
    ∀ t, cleaned ((joinText base path).take (pathMax - 1)) = some t → rp.Applies t →
      resolve ((joinText base path).take (pathMax - 1)).chars = resolve (joinText base path).chars

section

variable {env : Environ} {rp : RewritePolicy} {libc : Libc} {a a' : PathArg}

/-- From the base that the interposer has found, a relative path leads where
    it leads from the reported directory. -/
theorem lexical_of_base {path base : CString} (hpath : a.path = some path)
    (hrel : ¬ isAbsolute path = true) (hbase : libc.base a.dirfd = some base) :
    libc.lexical a = some (resolve (joinText base path).chars) := by
  obtain ⟨dir, hdir, hdirs⟩ := reported_of_base hbase
  rw [Libc.lexical, hpath, Option.bind_some, if_neg hrel, hdir, Option.map_some, resolve_joinText,
    resolve_joinText, hdirs]

/-- The source of an argument leads where the argument does, unless it was cut. -/
theorem lexical_of_source {s : CString} (hs : libc.source a = some s) :
    libc.lexical a = some (resolve s.chars) ∧
        (a.path.any isAbsolute = false → a.relative = true) ∨
      ∃ path base, a.path = some path ∧ isAbsolute path = false ∧ a.relative = true ∧
        libc.base a.dirfd = some base ∧ intMax < (joinText base path).length ∧
        s = (joinText base path).take (pathMax - 1) := by
  obtain ⟨path, hpath, hsource⟩ := Option.bind_eq_some_iff.mp hs
  -- only the join of a relative path can be cut
  by_cases habs : isAbsolute path = true
  · rw [if_pos habs] at hsource
    obtain rfl := Option.some.inj hsource
    refine Or.inl ⟨?_, fun h => ?_⟩
    · rw [Libc.lexical, hpath, Option.bind_some, if_pos habs]
    · rw [hpath] at h
      exact absurd (h.symm.trans habs) (by decide)
  · rw [if_neg habs] at hsource
    split at hsource
    · next hrelative =>
      obtain ⟨base, hbase, hjoined⟩ := Option.bind_eq_some_iff.mp hsource
      rcases joined_eq_some_iff.mp hjoined with ⟨-, rfl⟩ | ⟨hlong, rfl⟩
      · exact Or.inl ⟨lexical_of_base hpath habs hbase, fun _ => hrelative⟩
      · exact Or.inr ⟨path, base, hpath, by simpa using habs, hrelative, hbase, hlong, rfl⟩
    · exact absurd hsource (by simp)

/-- An argument that is rewritten from a text that leads where it leads. -/
theorem confined_of_rewritten (hinit : initRewritePolicy env = .ok rp) {s t : CString}
    (happlies : rp.Applies t) (h : Rewritten rp s t a a')
    (hlexical : libc.lexical a = some (resolve s.chars))
    (hrelative : a.path.any isAbsolute = false → a.relative = true) : Confined env libc a a' := by
  obtain ⟨hfrom, hto⟩ := dirs_of_init hinit happlies.1
  obtain ⟨u, hu, hspliced⟩ := h.path
  obtain ⟨rest, hsource, hsegs, -⟩ := hspliced.dirs
  refine Or.inr ⟨u, rest, hu, hspliced.absolute, hspliced.short, ?_, ?_, ?_⟩
  · rw [← hto]
    exact hsegs
  · rw [← hfrom, hlexical, hsource]
  · rw [h.dirfd]
    cases hany : a.path.any isAbsolute with
    | true => rfl
    | false => exact ⟨hrelative hany, rfl⟩

/-- A relative argument that is rewritten from a text, and in a confined way,
    leads where the text does. -/
theorem lexical_of_confined (hinit : initRewritePolicy env = .ok rp) {path s t : CString}
    (hpath : a.path = some path) (hrel : isAbsolute path = false) (happlies : rp.Applies t)
    (h : Rewritten rp s t a a') (hconfined : Confined env libc a a') :
    libc.lexical a = some (resolve s.chars) := by
  obtain ⟨hfrom, hto⟩ := dirs_of_init hinit happlies.1
  obtain ⟨u, hu, hspliced⟩ := h.path
  obtain ⟨rest, hsource, hsegs, -⟩ := hspliced.dirs
  rcases hconfined with rfl | ⟨u', rest', hu', -, -, hsegs', hlexical, -⟩
  · -- the string that was put in place is absolute, the path is not
    obtain rfl := Option.some.inj (hpath.symm.trans hu)
    exact absurd (hrel.symm.trans hspliced.absolute) (by decide)
  · obtain rfl := Option.some.inj (hu.symm.trans hu')
    rw [hsegs, hto] at hsegs'
    rw [hlexical, hsource, hfrom, List.append_cancel_left hsegs']

theorem cutSafely_of_confined (hinit : initRewritePolicy env = .ok rp) {f : PathArg → PathArg}
    (hf : Follows libc rp f) (h : Confined env libc a (f a)) : CutSafely rp libc a := by
  intro path base hpath hrel hrelative hbase hlong t ht happlies
  have habs : ¬ isAbsolute path = true := by simp [hrel]
  have hsource : libc.source a = some ((joinText base path).take (pathMax - 1)) := by
    rw [Libc.source, hpath, Option.bind_some, if_neg habs, if_pos hrelative, hbase,
      Option.bind_some]
    exact joined_eq_some_iff.mpr (Or.inr ⟨hlong, rfl⟩)
  -- being confined, the argument leads where the cut text does
  have hlexical := lexical_of_confined hinit hpath hrel happlies
    (hf.rewritten hsource ht happlies) h
  rw [lexical_of_base hpath habs hbase] at hlexical
  exact (Option.some.inj hlexical).symm

theorem confined_of_cutSafely (hinit : initRewritePolicy env = .ok rp) {f : PathArg → PathArg}
    (hf : Follows libc rp f) (h : CutSafely rp libc a) : Confined env libc a (f a) := by
  rcases Follows.skips_or_applies rp libc a with hskips | ⟨s, t, hs, ht, happlies⟩
  · exact Or.inl (hf.skipped hskips)
  · have hrewritten := hf.rewritten hs ht happlies
    rcases lexical_of_source hs with ⟨hlexical, hrelative⟩ |
      ⟨path, base, hpath, hrel, hrelative, hbase, hlong, rfl⟩
    · exact confined_of_rewritten hinit happlies hrewritten hlexical hrelative
    · refine confined_of_rewritten hinit happlies hrewritten ?_ fun _ => hrelative
      rw [h path base hpath hrel hrelative hbase hlong t ht happlies]
      exact lexical_of_base hpath (by simp [hrel]) hbase

end

/-- Every wrapper, on every call, comes to an end, and all that it hands on is
    confined exactly when no overlong join is cut into something that is
    rewritten to another place. -/
theorem interpose_confined_iff (env : Environ) (rp : RewritePolicy)
    (hinit : initRewritePolicy env = .ok rp) (libc : Libc) (c : Call) :
    (∃ o, eval libc rp (interpose c) = .ok o) ∧
      ((∀ c', eval libc rp (interpose c) = .ok (.forwarded c') →
          List.Forall₂ (Confined env libc) c.args c'.args) ↔
        (libc.resolves c.symbol = true → ∀ a ∈ c.args, CutSafely rp libc a)) := by
  obtain ⟨f, hf⟩ := exists_follows hinit libc
  refine ⟨⟨_, hf.forwarded c⟩, ?_⟩
  rw [hf.forall_forwarded_iff]
  refine ⟨fun h hsym a ha => ?_, fun h hsym a ha => ?_⟩
  · exact cutSafely_of_confined hinit hf (h hsym a ha)
  · exact confined_of_cutSafely hinit hf (h hsym a ha)

/-- In `/a`, `access ("x")` becomes `access ("/b/x")`. -/
theorem access_confined :
    List.Forall₂ (Confined .aToB (Kernel.libc ⟨.a, []⟩))
      (Call.access (some (.ofAscii ['x'])) 0).args
      (Call.access (some (.ofAscii ['/', 'b', '/', 'x'])) 0).args := by
  refine (interpose_confined_iff .aToB .aToB init_aToB (Kernel.libc ⟨.a, []⟩) _).2.mpr ?_ _ rfl
  intro _ a ha path base hpath _ _ hbase hlong
  rw [List.mem_singleton.mp ha] at hpath hbase
  obtain rfl := Option.some.inj hpath
  obtain rfl : Dir.a.text = base := Option.some.inj hbase
  exact absurd hlong (by decide)

/-! ## A name that no `int` can measure -/

/-- `n` times the letter `x`. -/
def longName (n : Nat) : CString :=
  ⟨List.replicate n 120, fun h => absurd (List.eq_of_mem_replicate h) (by decide)⟩

theorem isName_replicate {n : Nat} (hn : 0 < n) : IsName (List.replicate n 120) := by
  have hx : ∀ b ∈ List.replicate n (120 : Byte), b = 120 := fun b hb => List.eq_of_mem_replicate hb
  refine ⟨⟨?_, fun hb => absurd (hx _ hb) (by decide)⟩, fun hs => ?_, fun hs => ?_⟩
  · rw [Ne, List.replicate_eq_nil_iff]
    omega
  · exact absurd (hx dot (by rw [hs]; simp)) (by decide)
  · exact absurd (hx dot (by rw [hs]; simp)) (by decide)

/-- `/a/xx..x` -/
def longPath (n : Nat) : List Byte := pathText [[97], List.replicate n 120] false

theorem longPath_eq (n : Nat) : longPath n = slash :: 97 :: slash :: List.replicate n 120 := by
  simp [longPath, pathText]

theorem names_longPath {n : Nat} (hn : 0 < n) :
    ∀ s ∈ ([[97], List.replicate n 120] : List Segment), IsName s := by
  intro s hs
  rcases List.mem_cons.mp hs with rfl | hs
  · decide
  · rw [List.mem_singleton.mp hs]
    exact isName_replicate hn

/-- Below `/a`, a name of two gigabytes is cut, and the cut one rewritten. -/
theorem not_cutSafely_longName {n : Nat} (hn : intMax ≤ n) :
    ¬ CutSafely .aToB (Kernel.libc ⟨.a, []⟩) ⟨true, atFdcwd, some (longName n)⟩ := by
  intro h
  have hmax : pathMax = 4096 := rfl
  have hint : intMax = 2147483647 := rfl
  have htext : (joinText Dir.a.text (longName n)).chars = longPath n := by
    rw [chars_joinText, longPath_eq]
    rfl
  -- the part that is kept is a clean path as well, with a shorter name
  have hcut : ((joinText Dir.a.text (longName n)).take (pathMax - 1)).chars = longPath 4092 := by
    rw [CString.chars_take, htext, longPath_eq, longPath_eq, hmax]
    simp only [Nat.reduceSub, List.take_succ_cons, List.take_replicate]
    rw [Nat.min_eq_left (by omega)]
  have hlen : (longPath 4092).length = 4095 := by
    rw [longPath_eq]
    simp only [List.length_cons, List.length_replicate]
  have hclean : cleaned ((joinText Dir.a.text (longName n)).take (pathMax - 1)) =
      some ((joinText Dir.a.text (longName n)).take (pathMax - 1)) := by
    have hshort : ((joinText Dir.a.text (longName n)).take (pathMax - 1)).length < pathMax := by
      rw [CString.length_def, hcut, hlen, hmax]
      omega
    obtain ⟨t, ht⟩ := cleaned_of_short hshort
    have habs : isAbsolute ((joinText Dir.a.text (longName n)).take (pathMax - 1)) = true :=
      isAbsolute_iff.mpr ⟨_, hcut.trans (longPath_eq 4092)⟩
    obtain ⟨hchars, -⟩ := cleaned_absolute habs ht
    rw [ht, Option.some.injEq]
    apply CString.ext
    have hsegs := segments_pathText (names_longPath (n := 4092) (by omega)) false
    rw [hchars, hcut, longPath, resolve_pathText (names_longPath (by omega)),
      leavesSlash_of_names (by rw [hsegs]; exact names_longPath (by omega)), hsegs]
    rfl
  have happlies :
      RewritePolicy.aToB.Applies ((joinText Dir.a.text (longName n)).take (pathMax - 1)) := by
    refine ⟨rfl, ?_, ?_⟩
    · rw [show RewritePolicy.aToB.fromLen = RewritePolicy.aToB.fromPath.length from rfl,
        pathMatchesPrefix_iff_append]
      exact ⟨slash :: List.replicate 4092 120, hcut.trans (longPath_eq 4092), rfl⟩
    · rw [CString.length_def, hcut, hlen]
      decide
  have hlong : intMax < (joinText Dir.a.text (longName n)).length := by
    rw [CString.length_def, htext, longPath_eq]
    simp only [List.length_cons, List.length_replicate]
    omega
  -- were it safe, the two names would be one
  have heq := h (longName n) Dir.a.text rfl ?_ rfl ?_ hlong _ hclean happlies
  · rw [hcut, htext, longPath, longPath, resolve_pathText (names_longPath (by omega)),
      resolve_pathText (names_longPath (by omega))] at heq
    have hlens := congrArg (fun dirs : List Segment => dirs.map List.length) heq
    simp only [List.map_cons, List.length_replicate, List.map_nil, List.cons.injEq, and_true,
      true_and] at hlens
    omega
  · obtain ⟨m, rfl⟩ : ∃ m, n = m + 1 := ⟨n - 1, by omega⟩
    rfl
  · rfl

theorem long_name_not_confined :
    initRewritePolicy .aToB = .ok .aToB ∧
      ∃ c', eval (Kernel.libc ⟨.a, []⟩) .aToB (interpose (.access (some (longName 2147483648)) 0)) =
          .ok (.forwarded c') ∧
        ¬ List.Forall₂ (Confined .aToB (Kernel.libc ⟨.a, []⟩))
          (Call.access (some (longName 2147483648)) 0).args c'.args := by
  obtain ⟨f, hf⟩ := exists_follows init_aToB (Kernel.libc ⟨.a, []⟩)
  refine ⟨init_aToB, _, hf.forwarded _, fun h => ?_⟩
  have hconfined : Confined .aToB (Kernel.libc ⟨.a, []⟩)
      ⟨true, atFdcwd, some (longName 2147483648)⟩
      (f ⟨true, atFdcwd, some (longName 2147483648)⟩) := by
    rw [Call.args_mapArgs hf.keepsCwd] at h
    exact (List.forall₂_cons.mp h).1
  exact not_cutSafely_longName (by decide) (cutSafely_of_confined init_aToB hf hconfined)

end LdPreload
