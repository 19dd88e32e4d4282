/-
  LdPreload.System.Relocation

  The interposer as a map of places.  An argument that is rewritten leads to
  the directory that `relocate` makes of the one that it led to
  (`Kernel.leads_of_rewritten`), and one below FROM is rewritten whenever the
  interposer finds the base and the result fits (`Follows.leads_relocate`),
  which the lengths of texts decide (`Kernel.Serves.applies_iff`).
  Above this module the texts of paths no longer matter.
-/

import LdPreload.Path.Relocate
import LdPreload.System.Kernel

namespace LdPreload

open CMem Lexical Once

variable {env : Environ} {rp : RewritePolicy} {libc : Libc} {f : PathArg → PathArg} {k : Kernel}
  {a : PathArg} {q : Dir} {s t : CString}

namespace Kernel

/-- A relative path and the directory that it starts from are together no
    longer than an `int` can tell. -/
def Intact (k : Kernel) (a : PathArg) : Prop :=
  ∀ path dir, a.path = some path → isAbsolute path = false → k.dirOf a.dirfd = some dir →
    (joinText dir.text path).length ≤ intMax

theorem Reports.resolve_source (h : k.Reports libc) (hintact : k.Intact a)
    (hs : libc.source a = some s) (hleads : k.leads a = some q) : resolve s.chars = q.names := by
  rcases h.source_cases hs hleads with hq | ⟨path, base, hpath, hrel, hbase, hlong, -⟩
  · exact hq
  · have := hintact path base hpath hrel hbase
    omega

/-- A rewritten argument leads to the relocated place. -/
theorem leads_of_rewritten (h : Rewritten rp s t a (f a)) (hq : resolve s.chars = q.names) :
    rp.fromDirs <+: q.names ∧ ∃ dir, k.leads (f a) = some dir ∧
      dir.names = relocate rp.fromDirs rp.toDirs q.names := by
  obtain ⟨u, hu, hspliced⟩ := h.path
  obtain ⟨rest, hsource, -, hdirs⟩ := hspliced.dirs
  rw [hq] at hsource
  refine ⟨⟨rest, hsource.symm⟩, Dir.root.follow u, ?_, ?_⟩
  · rw [leads, hu, Option.bind_some, lookup, if_pos hspliced.absolute]
  · rw [Dir.follow_of_absolute _ hspliced.absolute, hdirs, hsource, relocate_append]

/-- The whole text of an argument: an absolute path, or what a relative one is
    joined to. -/
def spells (k : Kernel) (a : PathArg) : Option CString :=
  a.path.bind fun path =>
    if isAbsolute path then some path
    else (k.dirOf a.dirfd).map fun dir => joinText dir.text path

theorem exists_spells (h : k.leads a = some q) :
    ∃ s, k.spells a = some s ∧ isAbsolute s = true ∧ resolve s.chars = q.names := by
  obtain ⟨path, hpath, hlookup⟩ := Option.bind_eq_some_iff.mp h
  rw [lookup] at hlookup
  rw [spells, hpath, Option.bind_some]
  by_cases habs : isAbsolute path = true
  · rw [if_pos habs] at hlookup
    rw [if_pos habs, ← Option.some.inj hlookup, Dir.follow_of_absolute _ habs]
    exact ⟨path, rfl, habs, rfl⟩
  · rw [if_neg habs] at hlookup
    obtain ⟨dir, hdir, rfl⟩ := Option.map_eq_some_iff.mp hlookup
    rw [if_neg habs, hdir, Option.map_some]
    exact ⟨_, rfl, isAbsolute_joinText dir.isAbsolute_text path, dir.resolve_joinText_text habs⟩

/-- A library that serves lets the interposer find a text that fits. -/
theorem Serves.source_eq (h : k.Serves libc) (hs : k.spells a = some s) (hlen : s.length < pathMax)
    (hfollows : a.path.any isAbsolute = true ∨ a.relative = true) : libc.source a = some s := by
  obtain ⟨path, hpath, hspells⟩ := Option.bind_eq_some_iff.mp hs
  rw [Libc.source, hpath, Option.bind_some]
  by_cases habs : isAbsolute path = true
  · rw [if_pos habs] at hspells
    rw [if_pos habs, hspells]
  · rw [if_neg habs] at hspells
    obtain ⟨dir, hdir, rfl⟩ := Option.map_eq_some_iff.mp hspells
    have hrelative : a.relative = true := by
      rw [hpath] at hfollows
      exact hfollows.resolve_left habs
    have hbase := h.base_eq hdir (by rw [length_joinText] at hlen; omega)
    rw [if_neg habs, if_pos hrelative, hbase, Option.bind_some]
    exact joined_eq_some_iff.mpr (Or.inl ⟨hlen, rfl⟩)

/-- What a path leads to, a longer path without `..` leads below. -/
theorem names_follow_of_not_parent {d : Dir} {path : CString} (hrel : ¬ isAbsolute path = true)
    (h : [dot, dot] ∉ segments slash path.chars) :
    (d.follow path).names = d.names ++ (segments slash path.chars).filter (· ≠ [dot]) := by
  rw [Dir.follow_of_relative _ hrel]
  exact walk_of_not_parent h d.names

end Kernel

/-- Below a FROM that does not end in a separator every clean text is matched. -/
theorem matches_of_below (hinit : initRewritePolicy env = .ok rp) (henabled : rp.enabled = true)
    (hfrom : endsInSlash rp.fromPath = false) (habs : isAbsolute s = true)
    (ht : cleaned s = some t) (hbelow : rp.fromDirs <+: resolve s.chars) :
    pathMatchesPrefix t rp.fromPath rp.fromLen = true := by
  obtain ⟨m, rfl, -, -⟩ := exists_mapping hinit henabled
  obtain ⟨c, rfl, hc, -⟩ := exists_cleanPath habs ht
  obtain ⟨rest, hrest⟩ := hbelow
  rw [m.fromDirs_policy, ← hc] at hrest
  have hcovers : m.src.Covers c rest := (CleanPath.covers_iff hrest.symm).mpr (Or.inl hfrom)
  exact CleanPath.pathMatchesPrefix_iff.mpr ⟨rest, hcovers⟩

theorem applies_of_below (hinit : initRewritePolicy env = .ok rp) (henabled : rp.enabled = true)
    (hfrom : endsInSlash rp.fromPath = false) (habs : isAbsolute s = true)
    (ht : cleaned s = some t) (hbelow : rp.fromDirs <+: resolve s.chars)
    (hfits : rp.toLen + (t.length - rp.fromLen) + 1 ≤ pathMax) : rp.Applies t :=
  ⟨henabled, matches_of_below hinit henabled hfrom habs ht hbelow, hfits⟩

/-- What a FROM that does not end in a separator matches lies below it. -/
theorem below_of_applies (hinit : initRewritePolicy env = .ok rp) (ht : cleaned s = some t)
    (h : rp.Applies t) : rp.fromDirs <+: resolve s.chars := by
  obtain ⟨m, rfl, -, -⟩ := exists_mapping hinit h.1
  obtain ⟨rest, hsource, -⟩ := (m.spliced_of_applies ht h).dirs
  exact ⟨rest, hsource.symm⟩

/-- There is room for what takes the place of the whole text of an argument. -/
def RewritePolicy.Room (rp : RewritePolicy) (k : Kernel) (a : PathArg) : Prop :=
  ∃ s t, k.spells a = some s ∧ cleaned s = some t ∧
    rp.toLen + (t.length - rp.fromLen) + 1 ≤ pathMax

/-- Where the library serves, the policy applies to what leads below FROM and
    has room for the change. -/
theorem Kernel.Serves.applies_iff (hk : k.Serves libc) (hinit : initRewritePolicy env = .ok rp)
    (henabled : rp.enabled = true) (hfrom : endsInSlash rp.fromPath = false)
    (hshort : ∀ s, k.spells a = some s → s.length < pathMax)
    (hfollows : a.path.any isAbsolute = true ∨ a.relative = true) (hleads : k.leads a = some q) :
    (∃ s t, libc.source a = some s ∧ k.spells a = some s ∧ cleaned s = some t ∧ rp.Applies t) ↔
      rp.fromDirs <+: q.names ∧ rp.Room k a := by
  obtain ⟨s, hs, habs, hq⟩ := Kernel.exists_spells hleads
  have hsource := hk.source_eq hs (hshort s hs) hfollows
  refine ⟨?_, ?_⟩
  · rintro ⟨s', t, -, hs', ht, happlies⟩
    obtain rfl := Option.some.inj (hs.symm.trans hs')
    exact ⟨hq ▸ below_of_applies hinit ht happlies, s, t, hs, ht, happlies.2.2⟩
  · rintro ⟨hbelow, s', t, hs', ht, hroom⟩
    obtain rfl := Option.some.inj (hs.symm.trans hs')
    exact ⟨s, t, hsource, hs, ht,
      applies_of_below hinit henabled hfrom habs ht (hq ▸ hbelow) hroom⟩

/-- What is to hold of all that the policy applies to, is to hold of what leads
    below FROM and has room for the change. -/
theorem Kernel.Serves.forall_applies_iff {P : List Segment → Prop} (hk : k.Serves libc)
    (hinit : initRewritePolicy env = .ok rp) (henabled : rp.enabled = true)
    (hfrom : endsInSlash rp.fromPath = false)
    (hshort : ∀ s, k.spells a = some s → s.length < pathMax)
    (hfollows : a.path.any isAbsolute = true ∨ a.relative = true) (hleads : k.leads a = some q) :
    (∀ s t, libc.source a = some s → cleaned s = some t → rp.Applies t → P (resolve s.chars)) ↔
      (rp.fromDirs <+: q.names → rp.Room k a → P q.names) := by
  have happlies := hk.applies_iff hinit henabled hfrom hshort hfollows hleads
  obtain ⟨s₀, hs₀, -, hq⟩ := Kernel.exists_spells hleads
  have hsource := hk.source_eq hs₀ (hshort s₀ hs₀) hfollows
  refine ⟨fun h hbelow hroom => ?_, fun h s t hs ht h' => ?_⟩
  · obtain ⟨s, t, hs, hspells, ht, h'⟩ := happlies.mpr ⟨hbelow, hroom⟩
    obtain rfl := Option.some.inj (hs₀.symm.trans hspells)
    exact hq ▸ h s₀ t hs ht h'
  · obtain rfl := Option.some.inj (hsource.symm.trans hs)
    obtain ⟨hbelow, hroom⟩ := happlies.mp ⟨s₀, t, hs, hs₀, ht, h'⟩
    exact hq ▸ h hbelow hroom

theorem Kernel.Serves.skips_iff (hk : k.Serves libc) (hinit : initRewritePolicy env = .ok rp)
    (henabled : rp.enabled = true) (hfrom : endsInSlash rp.fromPath = false)
    (hshort : ∀ s, k.spells a = some s → s.length < pathMax)
    (hfollows : a.path.any isAbsolute = true ∨ a.relative = true) (hleads : k.leads a = some q) :
    rp.Skips libc a ↔ ¬ (rp.fromDirs <+: q.names ∧ rp.Room k a) := by
  rw [not_and]
  exact hk.forall_applies_iff (P := fun _ => False) hinit henabled hfrom hshort hfollows hleads

/-- An argument from below FROM is handed on to the place below TO, when its
    text is found and what takes its place fits. -/
theorem Follows.leads_relocate (hf : Follows libc rp f) (hinit : initRewritePolicy env = .ok rp)
    (henabled : rp.enabled = true) (hfrom : endsInSlash rp.fromPath = false)
    (hs : libc.source a = some s) (habs : isAbsolute s = true) (hq : resolve s.chars = q.names)
    (ht : cleaned s = some t) (hbelow : rp.fromDirs <+: q.names)
    (hfits : rp.toLen + (t.length - rp.fromLen) + 1 ≤ pathMax) :
    ∃ dir, k.leads (f a) = some dir ∧ dir.names = relocate rp.fromDirs rp.toDirs q.names := by
  have happlies := applies_of_below hinit henabled hfrom habs ht (hq ▸ hbelow) hfits
  exact (Kernel.leads_of_rewritten (hf.rewritten hs ht happlies) hq).2

end LdPreload
