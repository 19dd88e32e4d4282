/-
  LdPreload.Contract.Anchor

  `openat2` with flags that confine the lookup to the directory of the
  descriptor.  The wrapper never looks at the flags: it reads an absolute path
  from the root of the file system, and hands on an absolute path at
  `AT_FDCWD` in the place of a relative one.  The caller's confinement survives
  where nothing is rewritten, and where the descriptor stays and the kernel
  makes the same of both paths.
-/

import LdPreload.System.Relocation

namespace LdPreload

open CMem Lexical Once

/-- Whatever the policy does to the path of an `openat2` call, the descriptor
    stays, and below it the confined lookup makes the same of what the path
    leads to from the root, with TO in the place of FROM, as of the path. -/
def KeepsAnchor (libc : Libc) (rp : RewritePolicy) (dirfd : Int32) (pathname : Option CString)
    (how : OpenHow) : Prop :=
  ∀ path s t, pathname = some path → libc.source ⟨true, dirfd, pathname⟩ = some s →
    cleaned s = some t → rp.Applies t →
      (isAbsolute path = true ∨ dirfd = atFdcwd) ∧
        how.below path =
          if how.beneath then none
          else some (relocate rp.fromDirs rp.toDirs (resolve s.chars))

/-- What takes the place of a path is refused beneath a directory, and is
    found in a root where it is found from the real one. -/
theorem Spliced.below {rp : RewritePolicy} {s t u : CString} (h : Spliced rp s t u)
    (how : OpenHow) :
    how.below u =
      if how.beneath then none else some (relocate rp.fromDirs rp.toDirs (resolve s.chars)) := by
  obtain ⟨rest, hs, -, hu⟩ := h.dirs
  have hlen : u.length ≠ 0 := by
    obtain ⟨tail, htail⟩ := isAbsolute_iff.mp h.absolute
    rw [CString.length_def, htail]
    simp
  rw [OpenHow.below, hs, relocate_append, hu]
  cases how.beneath with
  | true => rw [if_pos (Or.inr ⟨rfl, Or.inr (Or.inl h.absolute)⟩), if_pos rfl]
  | false =>
    have hopen : ¬ (u.length = 0 ∨
        false = true ∧ (how.inRoot = true ∨ isAbsolute u = true ∨ 0 < climbs u)) := by
      simp [hlen]
    rw [if_neg hopen, if_neg (by decide)]

/-- Under confining flags `openat2` hands on the caller's descriptor and a path
    that leads below it where the caller's does exactly when what the policy
    does keeps the anchor. -/
theorem openat2_confined_iff (env : Environ) (rp : RewritePolicy)
    (hinit : initRewritePolicy env = .ok rp) (libc : Libc)
    (hsym : libc.resolves .openat2 = true) (dirfd : Int32) (pathname : Option CString)
    (how : OpenHow) (size : UInt64) :
    (how.Confines → ∀ c', eval libc rp (interpose (.openat2 dirfd pathname (some how) size)) =
        .ok (.forwarded c') →
      ∃ pathname', c' = .openat2 dirfd pathname' (some how) size ∧
        pathname'.map how.below = pathname.map how.below) ↔
      (how.Confines → KeepsAnchor libc rp dirfd pathname how) := by
  obtain ⟨f, hf⟩ := exists_follows hinit libc
  have hforwarded := hf.forwarded_of_resolves (c := .openat2 dirfd pathname (some how) size) hsym
  refine imp_congr_right fun _ => ?_
  rw [hforwarded]
  -- all that matters is what becomes of the one path argument
  have hargument : (∀ c', Except.ok (Outcome.forwarded
      ((Call.openat2 dirfd pathname (some how) size).effective.mapArgs f)) =
        (.ok (.forwarded c') : Except Stop Outcome) →
      ∃ pathname', c' = .openat2 dirfd pathname' (some how) size ∧
        pathname'.map how.below = pathname.map how.below) ↔
      (f ⟨true, dirfd, pathname⟩).dirfd = dirfd ∧
        (f ⟨true, dirfd, pathname⟩).path.map how.below = pathname.map how.below := by
    refine ⟨fun h => ?_, ?_⟩
    · obtain ⟨pathname', hc, hbelow⟩ := h _ rfl
      obtain ⟨hdirfd, rfl, -, -⟩ := Call.openat2.inj hc
      exact ⟨hdirfd, hbelow⟩
    · rintro ⟨hdirfd, hbelow⟩ c' hc'
      obtain rfl := Outcome.forwarded.inj (Except.ok.inj hc')
      refine ⟨_, ?_, hbelow⟩
      show Call.openat2 (f ⟨true, dirfd, pathname⟩).dirfd _ _ _ = _
      rw [hdirfd]
  rw [hargument]
  rcases Follows.skips_or_applies rp libc ⟨true, dirfd, pathname⟩ with
    hskips | ⟨s, t, hs, ht, happlies⟩
  · rw [hf.skipped hskips]
    exact ⟨fun _ path s t _ hs ht happlies => absurd happlies (hskips s t hs ht),
      fun _ => ⟨rfl, rfl⟩⟩
  · have hrewritten := hf.rewritten hs ht happlies
    obtain ⟨u, hu, hspliced⟩ := hrewritten.path
    obtain ⟨path, rfl, -⟩ := Option.bind_eq_some_iff.mp hs
    have hdirfd : (f ⟨true, dirfd, some path⟩).dirfd = dirfd ↔
        isAbsolute path = true ∨ dirfd = atFdcwd := by
      rw [hrewritten.dirfd]
      cases habs : isAbsolute path with
      | true => simp [habs]
      | false => simp [habs, eq_comm]
    rw [hdirfd, hu, Option.map_some, Option.map_some, Option.some.injEq, hspliced.below]
    refine ⟨?_, fun h => ?_⟩
    · rintro ⟨hanchor, hbelow⟩ path' s' t' hpath hs' ht' -
      obtain rfl := Option.some.inj hpath
      obtain rfl := Option.some.inj (hs.symm.trans hs')
      exact ⟨hanchor, hbelow.symm⟩
    · obtain ⟨hanchor, hbelow⟩ := h path s t rfl hs ht happlies
      exact ⟨hanchor, hbelow.symm⟩

/-- In front of a library that serves, the anchor is kept exactly if the path
    does not lead below FROM, seen from the real root, or there is no room for
    the change, or the descriptor stays and the place is the same below it. -/
theorem keepsAnchor_iff {env : Environ} {rp : RewritePolicy} {k : Kernel} {libc : Libc}
    (hk : k.Serves libc) (hinit : initRewritePolicy env = .ok rp) (henabled : rp.enabled = true)
    (hfrom : endsInSlash rp.fromPath = false) {dirfd : Int32} {path : CString} {q : Dir}
    (how : OpenHow)
    (hshort : ∀ s, k.spells ⟨true, dirfd, some path⟩ = some s → s.length < pathMax)
    (hleads : k.leads ⟨true, dirfd, some path⟩ = some q) :
    KeepsAnchor libc rp dirfd (some path) how ↔
      ¬ rp.fromDirs <+: q.names ∨ ¬ rp.Room k ⟨true, dirfd, some path⟩ ∨
        (isAbsolute path = true ∨ dirfd = atFdcwd) ∧
          how.below path =
            if how.beneath then none else some (relocate rp.fromDirs rp.toDirs q.names) := by
  rw [← imp_iff_not_or, ← imp_iff_not_or,
    ← hk.forall_applies_iff (P := fun names => (isAbsolute path = true ∨ dirfd = atFdcwd) ∧
      how.below path = if how.beneath then none else some (relocate rp.fromDirs rp.toDirs names))
      hinit henabled hfrom hshort (Or.inr rfl) hleads]
  refine ⟨fun h s t => h path s t rfl, fun h path' s t hpath => ?_⟩
  obtain rfl := Option.some.inj hpath
  exact h s t

/-- `x` in a directory that the policy leaves alone -/
theorem confined_beside_a :
    let libc := Kernel.libc ⟨.root, [(3, .root)]⟩
    let x : Option CString := some (.ofAscii ['x'])
    let how : OpenHow := ⟨0, 0, 0x08⟩
    (how.Confines → ∀ c', eval libc .aToB (interpose (.openat2 3 x (some how) 24)) =
        .ok (.forwarded c') →
      ∃ pathname', c' = .openat2 3 pathname' (some how) 24 ∧
        pathname'.map how.below = x.map how.below) ↔
      (how.Confines → KeepsAnchor libc .aToB 3 x how) :=
  openat2_confined_iff .aToB .aToB init_aToB (Kernel.libc ⟨.root, [(3, .root)]⟩) rfl 3
    (some (.ofAscii ['x'])) ⟨0, 0, 0x08⟩ 24

/-- With `/a` for `/b`, `x` beneath the directory `/a` is asked for as `/b/x` at
    `AT_FDCWD`, which the kernel refuses; and `/a/x` with a directory as its
    root is asked for as `/b/x`, which is another file below that directory. -/
theorem confinement_lost :
    let libc := Kernel.libc ⟨.root, [(3, .a)]⟩
    let x : CString := .ofAscii ['x']
    let ax : CString := .ofAscii ['/', 'a', '/', 'x']
    let bx : CString := .ofAscii ['/', 'b', '/', 'x']
    let beneath : OpenHow := ⟨0, 0, 0x08⟩
    let inRoot : OpenHow := ⟨0, 0, 0x10⟩
    beneath.Confines ∧ inRoot.Confines ∧
      eval libc .aToB (interpose (.openat2 3 (some x) (some beneath) 24)) =
        .ok (.forwarded (.openat2 atFdcwd (some bx) (some beneath) 24)) ∧
      beneath.below x = some [[120]] ∧ beneath.below bx = none ∧
      eval libc .aToB (interpose (.openat2 3 (some ax) (some inRoot) 24)) =
        .ok (.forwarded (.openat2 3 (some bx) (some inRoot) 24)) ∧
      inRoot.below ax = some [[97], [120]] ∧ inRoot.below bx = some [[98], [120]] :=
  ⟨Or.inl rfl, Or.inr rfl, rfl, rfl, rfl, rfl, rfl, rfl⟩

end LdPreload
