/-
  LdPreload.Contract.EmptyPath

  The empty path.  To the kernel it names nothing, or the descriptor itself.
  To the interposer it is a relative path like any other, and stands for the
  directory that it starts from: below FROM it becomes a path below TO.
-/

import LdPreload.System.Relocation

namespace LdPreload

open CMem Lexical Once

/-- An empty path that the interposer resolves is handed on with its
    descriptor as it is. -/
def EmptyKept (a a' : PathArg) : Prop := a.relative = true → a.path = some default → a' = a

/-- Empty paths are kept exactly where the policy has nothing to do for them:
    the directory that they start from is not found, is not matched, or what
    would take its place is too long. -/
theorem emptyKept_iff (env : Environ) (rp : RewritePolicy) (hinit : initRewritePolicy env = .ok rp)
    (libc : Libc) (c c' : Call) (hc' : eval libc rp (interpose c) = .ok (.forwarded c')) :
    List.Forall₂ EmptyKept c.args c'.args ↔
      ∀ a ∈ c.args, a.relative = true → a.path = some default → rp.Skips libc a := by
  obtain ⟨f, hf⟩ := exists_follows hinit libc
  rw [hf.args_of_forwarded hc', List.forall₂_map_right_iff, List.forall₂_same]
  refine forall₂_congr fun a _ => forall₂_congr fun _ hpath => ?_
  rw [hf.eq_self_iff]
  refine ⟨fun h => h.resolve_right ?_, Or.inl⟩
  -- the empty path is nobody's substitute
  rintro ⟨path, t, hpath', habs, -⟩
  obtain rfl := Option.some.inj (hpath.symm.trans hpath')
  exact absurd habs (by decide)

/-- The separator that the empty path is joined with does not stay. -/
theorem Dir.cleaned_joinText_empty {d : Dir} (h : d.text.length + 1 < pathMax) :
    cleaned (joinText d.text default) = some d.text := by
  have habs := isAbsolute_joinText d.isAbsolute_text default
  have hsegs : segments slash (joinText d.text default).chars = d.names := by
    rw [chars_joinText, segments_append_sep, chars_text, segments_pathText d.isName]
    exact List.append_nil _
  have hnames : ∀ s ∈ segments slash (joinText d.text default).chars, IsName s := by
    rw [hsegs]
    exact d.isName
  have hshort : (joinText d.text default).length < pathMax := by
    rw [length_joinText]
    exact h
  obtain ⟨t, ht⟩ := cleaned_of_short hshort
  rw [ht, Option.some.injEq]
  apply CString.ext
  rw [(cleaned_absolute habs ht).1, resolve_of_names hnames, leavesSlash_of_names hnames, hsegs,
    chars_text]

/-- In front of a library that serves, the policy leaves the empty path alone
    exactly if the directory that it starts from is not below FROM, or has no
    room below TO. -/
theorem skips_empty_iff {env : Environ} {rp : RewritePolicy} {k : Kernel} {libc : Libc}
    (hinit : initRewritePolicy env = .ok rp) (henabled : rp.enabled = true)
    (hfrom : endsInSlash rp.fromPath = false) (hk : k.Serves libc) {dirfd : Int32} {d : Dir}
    (hd : k.dirOf dirfd = some d) (hlen : d.text.length + 1 < pathMax) :
    rp.Skips libc ⟨true, dirfd, some default⟩ ↔ ¬ rp.fromDirs <+: d.names ∨
      pathMax < rp.toLen + (d.text.length - rp.fromLen) + 1 := by
  have hspells : k.spells ⟨true, dirfd, some default⟩ = some (joinText d.text default) := by
    show Option.map _ (k.dirOf dirfd) = _
    rw [hd]
    rfl
  have hleads : k.leads ⟨true, dirfd, some default⟩ = some (d.follow default) := by
    show Option.map _ (k.dirOf dirfd) = _
    rw [hd]
    rfl
  have hnames : (d.follow default).names = d.names := rfl
  have hroom : rp.Room k ⟨true, dirfd, some default⟩ ↔
      rp.toLen + (d.text.length - rp.fromLen) + 1 ≤ pathMax := by
    refine ⟨?_, fun h => ⟨_, _, hspells, Dir.cleaned_joinText_empty hlen, h⟩⟩
    rintro ⟨s, t, hs, ht, h⟩
    obtain rfl := Option.some.inj (hspells.symm.trans hs)
    obtain rfl := Option.some.inj ((Dir.cleaned_joinText_empty hlen).symm.trans ht)
    exact h
  rw [hk.skips_iff hinit henabled hfrom (fun s hs => ?_) (Or.inr rfl) hleads, hnames, hroom,
    Classical.not_and_iff_not_or_not, Nat.not_le]
  obtain rfl := Option.some.inj (hspells.symm.trans hs)
  rw [length_joinText]
  exact hlen

/-- From outside `/a`, the empty path is kept. -/
theorem emptyKept_at_root :
    List.Forall₂ EmptyKept (Call.access (some default) 0).args
      (Call.access (some default) 0).args := by
  refine (emptyKept_iff .aToB .aToB init_aToB (Kernel.libc ⟨.root, []⟩) (.access (some default) 0)
    _ rfl).mpr fun a ha _ _ => ?_
  obtain rfl := List.mem_singleton.mp ha
  intro s t hs ht
  obtain rfl := Option.some.inj hs
  obtain rfl := Option.some.inj ht
  decide

/-- In `/a`, `unlinkat (AT_FDCWD, "", AT_REMOVEDIR)` removes `/b`. -/
theorem not_emptyKept_unlinkat :
    initRewritePolicy .aToB = .ok .aToB ∧ Kernel.Serves ⟨.a, []⟩ (Kernel.libc ⟨.a, []⟩) ∧
      ∃ c', eval (Kernel.libc ⟨.a, []⟩) .aToB (interpose (.unlinkat atFdcwd (some default) 0x200)) =
          .ok (.forwarded c') ∧
        ¬ List.Forall₂ EmptyKept (Call.unlinkat atFdcwd (some default) 0x200).args c'.args := by
  refine ⟨init_aToB, Kernel.serves_libc _,
    .unlinkat atFdcwd (some (.ofAscii ['/', 'b'])) 0x200, rfl, fun h => ?_⟩
  have hkept := (List.forall₂_cons.mp h).1 rfl rfl
  exact absurd (congrArg PathArg.path hkept) (by decide)

end LdPreload
