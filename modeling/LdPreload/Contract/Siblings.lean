/-
  LdPreload.Contract.Siblings

  One path through two entry points.  The plain calls rewrite absolute paths
  only, their siblings with a descriptor or a check also rewrite paths relative
  to the current directory.  On a relative path below FROM the two therefore
  name different objects, unless FROM and TO are the same place.
-/

import LdPreload.System.Relocation

namespace LdPreload

open CMem Lexical Once

/-- A plain call and a call that takes the same path from `AT_FDCWD`. -/
def siblingSymbols : List (Symbol × Symbol) :=
  [(.open, .openat), (.creat, .openat),
    (.stat, .__fxstatat), (.stat, .newfstatat), (.stat, .statx),
    (.lstat, .__fxstatat), (.lstat, .newfstatat), (.lstat, .statx),
    (.__xstat, .__fxstatat), (.__xstat, .newfstatat), (.__xstat, .statx),
    (.__lxstat, .__fxstatat), (.__lxstat, .newfstatat), (.__lxstat, .statx),
    (.mkdir, .mkdirat), (.unlink, .unlinkat), (.rmdir, .unlinkat), (.readlink, .readlinkat),
    (.truncate, .access), (.truncate, .chdir)]

/-- Two calls for the path `path`, the second one a sibling of the first. -/
structure Siblings (path : CString) (c c' : Call) : Prop where
  symbols : (c.symbol, c'.symbol) ∈ siblingSymbols
  plain : c.args = [⟨false, atFdcwd, some path⟩]
  sibling : c'.args = [⟨true, atFdcwd, some path⟩]

/-- The targets that two calls hand on are the same real paths. -/
def SameTarget (k : Kernel) (libc : Libc) (rp : RewritePolicy) (c c' : Call) : Prop :=
  ∀ d d', eval libc rp (interpose c) = .ok (.forwarded d) →
    eval libc rp (interpose c') = .ok (.forwarded d') → d.args.map k.leads = d'.args.map k.leads

section

variable {libc : Libc} {rp : RewritePolicy} {f : PathArg → PathArg}

theorem Follows.sameTarget_iff (h : Follows libc rp f) {k : Kernel} {c c' : Call} {a a' : PathArg}
    (hargs : c.args = [a]) (hargs' : c'.args = [a']) (hc : libc.resolves c.symbol = true)
    (hc' : libc.resolves c'.symbol = true) :
    SameTarget k libc rp c c' ↔ k.leads (f a) = k.leads (f a') := by
  refine ⟨fun hsame => ?_, fun heq d d' hd hd' => ?_⟩
  · have hd := h.forwarded_of_resolves hc
    have hd' := h.forwarded_of_resolves hc'
    have hmap := hsame _ _ hd hd'
    rw [h.args_of_forwarded hd, h.args_of_forwarded hd', hargs, hargs'] at hmap
    exact List.head_eq_of_cons_eq hmap
  · rw [h.args_of_forwarded hd, h.args_of_forwarded hd', hargs, hargs']
    simp only [List.map_cons, List.map_nil, heq]

/-- The policy has nothing to do for a relative path of a plain call. -/
theorem skips_plain {path : CString} (hrel : ¬ isAbsolute path = true) (d : Int32) :
    rp.Skips libc ⟨false, d, some path⟩ := by
  intro s t hs
  rw [Libc.source, Option.bind_some, if_neg hrel, if_neg (by simp)] at hs
  exact absurd hs (by simp)

/-- An absolute path is rewritten alike by every wrapper. -/
theorem Follows.path_of_absolute (h : Follows libc rp f) {path : CString}
    (habs : isAbsolute path = true) (r r' : Bool) (d d' : Int32) :
    ∃ u, (f ⟨r, d, some path⟩).path = some u ∧ (f ⟨r', d', some path⟩).path = some u ∧
      isAbsolute u = true := by
  have hsource : ∀ r d, libc.source ⟨r, d, some path⟩ = some path :=
    fun _ _ => Libc.source_of_absolute rfl habs
  rcases Follows.skips_or_applies rp libc ⟨r, d, some path⟩ with hskips | ⟨s, t, hs, ht, happlies⟩
  · have hskips' : rp.Skips libc ⟨r', d', some path⟩ := by
      intro s t hs
      rw [hsource] at hs
      exact hskips s t (by rw [hsource, hs])
    exact ⟨path, by rw [h.skipped hskips], by rw [h.skipped hskips'], habs⟩
  · obtain rfl := Option.some.inj ((hsource r d).symm.trans hs)
    obtain ⟨u, hu, hspliced⟩ := (h.rewritten hs ht happlies).path
    obtain ⟨u', hu', hspliced'⟩ := (h.rewritten (hsource r' d') ht happlies).path
    obtain rfl : u = u' := CString.ext (hspliced.chars.trans hspliced'.chars.symm)
    exact ⟨u, hu, hu', hspliced.absolute⟩

/-- The plain call leaves a relative path to the kernel, and the sibling may
    rewrite it. -/
theorem Follows.sameTarget_siblings (hf : Follows libc rp f) {k : Kernel} {path : CString}
    {c c' : Call} (h : Siblings path c c') (hc : libc.resolves c.symbol = true)
    (hc' : libc.resolves c'.symbol = true) :
    SameTarget k libc rp c c' ↔
      isAbsolute path = true ∨
      ∀ s t, libc.source ⟨true, atFdcwd, some path⟩ = some s → cleaned s = some t →
        rp.Applies t →
          relocate rp.fromDirs rp.toDirs (resolve s.chars) = (k.cwd.follow path).names := by
  rw [hf.sameTarget_iff h.plain h.sibling hc hc']
  by_cases habs : isAbsolute path = true
  · -- the same string for both, and an absolute one
    obtain ⟨u, hu, hu', habsu⟩ := hf.path_of_absolute habs false true atFdcwd atFdcwd
    refine ⟨fun _ => Or.inl habs, fun _ => ?_⟩
    rw [Kernel.leads, Kernel.leads, hu, hu', Option.bind_some, Option.bind_some, Kernel.lookup,
      Kernel.lookup, if_pos habsu, if_pos habsu]
  · -- the plain call leaves the path to the kernel
    have hplain : k.leads (f ⟨false, atFdcwd, some path⟩) = some (k.cwd.follow path) := by
      rw [hf.skipped (skips_plain habs atFdcwd), Kernel.leads, Option.bind_some, Kernel.lookup,
        if_neg habs]
      rfl
    rw [hplain]
    rcases Follows.skips_or_applies rp libc ⟨true, atFdcwd, some path⟩ with hskips |
      ⟨s, t, hs, ht, happlies⟩
    · refine ⟨fun _ => Or.inr fun s t hs ht happlies => absurd happlies (hskips s t hs ht),
        fun _ => ?_⟩
      rw [hf.skipped hskips, Kernel.leads, Option.bind_some, Kernel.lookup, if_neg habs]
      rfl
    · -- the sibling follows the text that was joined, from FROM to TO
      obtain ⟨u, hu, hspliced⟩ := (hf.rewritten hs ht happlies).path
      obtain ⟨rest, hsource, -, hdirs⟩ := hspliced.dirs
      have hleads : k.leads (f ⟨true, atFdcwd, some path⟩) = some (Dir.root.follow u) := by
        rw [Kernel.leads, hu, Option.bind_some, Kernel.lookup, if_pos hspliced.absolute]
      have hnames : (Dir.root.follow u).names =
          relocate rp.fromDirs rp.toDirs (resolve s.chars) := by
        rw [Dir.follow_of_absolute _ hspliced.absolute, hdirs, hsource, relocate_append]
      rw [hleads, Option.some.injEq]
      refine ⟨fun heq => Or.inr fun s' t' hs' ht' _ => ?_, fun hcond => ?_⟩
      · obtain rfl := Option.some.inj (hs.symm.trans hs')
        rw [← hnames, heq]
      · have heq := (hcond.resolve_left habs) s t hs ht happlies
        exact Dir.ext_names (heq.symm.trans hnames.symm)

end

/-- A plain call and its sibling name the same real path exactly when the path
    is absolute, or what it is joined to is not rewritten, or is rewritten to
    where the path leads from the current directory anyway. -/
theorem sameTarget_siblings_iff (env : Environ) (rp : RewritePolicy)
    (hinit : initRewritePolicy env = .ok rp) (k : Kernel) (libc : Libc) (path : CString)
    (c c' : Call) (h : Siblings path c c') (hc : libc.resolves c.symbol = true)
    (hc' : libc.resolves c'.symbol = true) :
    SameTarget k libc rp c c' ↔
      isAbsolute path = true ∨
      ∀ s t, libc.source ⟨true, atFdcwd, some path⟩ = some s → cleaned s = some t →
        rp.Applies t →
          relocate rp.fromDirs rp.toDirs (resolve s.chars) = (k.cwd.follow path).names := by
  obtain ⟨f, hf⟩ := exists_follows hinit libc
  exact hf.sameTarget_siblings h hc hc'

/-- In front of a library that serves, they do so exactly when the path is
    absolute, or leads to no place below FROM, or there is no room for the
    change, or FROM and TO are the same place. -/
theorem Siblings.sameTarget_iff {env : Environ} {rp : RewritePolicy}
    (hinit : initRewritePolicy env = .ok rp) (henabled : rp.enabled = true)
    (hfrom : endsInSlash rp.fromPath = false) {k : Kernel} {libc : Libc} (hk : k.Serves libc)
    {path : CString} {c c' : Call} (h : Siblings path c c')
    (hc : libc.resolves c.symbol = true) (hc' : libc.resolves c'.symbol = true)
    (hshort : ∀ s, k.spells ⟨true, atFdcwd, some path⟩ = some s → s.length < pathMax) :
    SameTarget k libc rp c c' ↔
      isAbsolute path = true ∨ ¬ rp.fromDirs <+: (k.cwd.follow path).names ∨
        ¬ rp.Room k ⟨true, atFdcwd, some path⟩ ∨ rp.fromDirs = rp.toDirs := by
  obtain ⟨f, hf⟩ := exists_follows hinit libc
  rw [hf.sameTarget_siblings h hc hc']
  by_cases habs : isAbsolute path = true
  · exact ⟨fun _ => Or.inl habs, fun _ => Or.inl habs⟩
  have hleads : k.leads ⟨true, atFdcwd, some path⟩ = some (k.cwd.follow path) := by
    rw [Kernel.leads, Option.bind_some, Kernel.lookup, if_neg habs]
    rfl
  refine or_congr_right ?_
  rw [hk.forall_applies_iff (P := fun names => relocate _ _ names = _) hinit henabled hfrom hshort
    (Or.inr rfl) hleads, relocate_eq_self_iff]
  simp only [← imp_iff_not_or]
  exact forall₂_congr fun hbelow _ => forall_prop_of_true hbelow

/-- `stat ("/a/x")` and `statx (AT_FDCWD, "/a/x")` agree. -/
theorem sameTarget_stat_statx :
    SameTarget ⟨.a, []⟩ (Kernel.libc ⟨.a, []⟩) .aToB
      (.stat (some (.ofAscii ['/', 'a', '/', 'x'])) 0)
      (.statx atFdcwd (some (.ofAscii ['/', 'a', '/', 'x'])) 0 0 0) := by
  refine (sameTarget_siblings_iff .aToB .aToB init_aToB ⟨.a, []⟩ (Kernel.libc ⟨.a, []⟩)
    (.ofAscii ['/', 'a', '/', 'x']) _ _ ⟨by decide, rfl, rfl⟩ rfl rfl).mpr (Or.inl ?_)
  decide

/-- In `/a`, `open ("x")` opens `/a/x` and `openat (AT_FDCWD, "x")` opens
    `/b/x`. -/
theorem not_sameTarget_open_openat :
    initRewritePolicy .aToB = .ok .aToB ∧ Kernel.Reports ⟨.a, []⟩ (Kernel.libc ⟨.a, []⟩) ∧
      Siblings (.ofAscii ['x']) (.open (some (.ofAscii ['x'])) 0 0)
        (.openat atFdcwd (some (.ofAscii ['x'])) 0 0) ∧
      ¬ SameTarget ⟨.a, []⟩ (Kernel.libc ⟨.a, []⟩) .aToB (.open (some (.ofAscii ['x'])) 0 0)
        (.openat atFdcwd (some (.ofAscii ['x'])) 0 0) := by
  refine ⟨init_aToB, (Kernel.serves_libc _).toReports, ⟨by decide, rfl, rfl⟩, fun h => ?_⟩
  have hmap := h (.open (some (.ofAscii ['x'])) 0 0)
    (.openat atFdcwd (some (.ofAscii ['/', 'b', '/', 'x'])) 0 0) (by decide +kernel)
    (by decide +kernel)
  exact absurd hmap (by decide)

end LdPreload
