/-
  LdPreload.Contract.TwoPath

  Calls with two paths.  Each path is rewritten on its own, so that one of them
  may be rewritten while the other falls through: the call then names an object
  below FROM and one below TO.  Both are rewritten, or none is, when both
  texts are found and fit, or when neither changes.
-/

import LdPreload.System.Relocation

namespace LdPreload

open CMem Lexical Once

/-- The path of `a'` is what the whole text of `a` is rewritten to. -/
def Substituted (rp : RewritePolicy) (k : Kernel) (a a' : PathArg) : Prop :=
  ∃ s t u, k.spells a = some s ∧ cleaned s = some t ∧ a'.path = some u ∧ u.length < pathMax ∧
    u.chars = rp.toPath.chars ++ t.chars.drop rp.fromLen

/-- All paths of a call are rewritten, or all arguments stay as they are. -/
def AllOrNone (rp : RewritePolicy) (k : Kernel) (c c' : Call) : Prop :=
  List.Forall₂ (Substituted rp k) c.args c'.args ∨ c'.args = c.args

/-- The interposer finds the text of an argument, cleaned as the whole text
    would be, and the policy applies to it. -/
def Reached (rp : RewritePolicy) (k : Kernel) (libc : Libc) (a : PathArg) : Prop :=
  ∃ s t, libc.source a = some s ∧ cleaned s = some t ∧ rp.Applies t ∧
    (k.spells a).bind cleaned = some t

section

variable {env : Environ} {rp : RewritePolicy} {libc : Libc} {f : PathArg → PathArg} {k : Kernel}
  {a : PathArg} {q : Dir}

/-- A matched text is the text of FROM and what a substitution keeps. -/
theorem eq_append_drop_of_matches {t : CString} (hinit : initRewritePolicy env = .ok rp)
    (henabled : rp.enabled = true) (hmatch : pathMatchesPrefix t rp.fromPath rp.fromLen = true) :
    t.chars = rp.fromPath.chars ++ t.chars.drop rp.fromLen := by
  obtain ⟨m, rfl, -⟩ := exists_mapping hinit henabled
  obtain ⟨suffix, hsuffix, -⟩ := (pathMatchesPrefix_iff_append t m.src.text).mp hmatch
  show t.chars = m.src.text.chars ++ t.chars.drop m.src.text.chars.length
  rw [hsuffix, List.drop_left]

/-- Below FROM, an argument that is handed on as its substitute has been
    reached. -/
theorem Follows.substituted_iff (hf : Follows libc rp f) (hinit : initRewritePolicy env = .ok rp)
    (henabled : rp.enabled = true) (hfrom : endsInSlash rp.fromPath = false)
    (hleads : k.leads a = some q) (hbelow : rp.fromDirs <+: q.names) :
    Substituted rp k a (f a) ↔ Reached rp k libc a := by
  -- the whole text is matched, if it can be cleaned
  have hmatch : ∀ {s t}, k.spells a = some s → cleaned s = some t →
      pathMatchesPrefix t rp.fromPath rp.fromLen = true := by
    intro s t hs ht
    obtain ⟨s', hs', habs, hq⟩ := Kernel.exists_spells hleads
    obtain rfl := Option.some.inj (hs.symm.trans hs')
    exact matches_of_below hinit henabled hfrom habs ht (hq ▸ hbelow)
  rcases Follows.skips_or_applies rp libc a with hskips | ⟨s₀, t₀, hs₀, ht₀, happlies⟩
  · -- an argument that is handed on as it is, is no substitute that fits
    refine ⟨?_, ?_⟩
    swap
    · rintro ⟨s, t, hs, ht, happlies, -⟩
      exact absurd happlies (hskips s t hs ht)
    rintro ⟨s, t, u, hs, ht, hu, hlen, hchars⟩
    rw [hf.skipped hskips] at hu
    obtain ⟨m, rfl, -⟩ := exists_mapping hinit henabled
    have habs : isAbsolute u = true := m.dst.isAbsolute_of_append hchars
    have hspells : k.spells a = some u := by
      rw [Kernel.spells, hu, Option.bind_some, if_pos habs]
    obtain rfl := Option.some.inj (hs.symm.trans hspells)
    refine absurd ⟨rfl, hmatch hs ht, ?_⟩ (hskips s t (Libc.source_of_absolute hu habs) ht)
    have hs' : s.length = m.policy.toLen + (t.length - m.policy.fromLen) := by
      rw [CString.length_def, hchars, List.length_append, List.length_drop]
      rfl
    omega
  · obtain ⟨u, hu, hspliced⟩ := (hf.rewritten hs₀ ht₀ happlies).path
    refine ⟨?_, ?_⟩
    · -- equal substitutes come from equal texts
      rintro ⟨s, t, u', hs, ht, hu', -, hchars⟩
      refine ⟨s₀, t₀, hs₀, ht₀, happlies, ?_⟩
      obtain rfl := Option.some.inj (hu.symm.trans hu')
      have hdrop : t₀.chars.drop rp.fromLen = t.chars.drop rp.fromLen :=
        List.append_cancel_left (hspliced.chars.symm.trans hchars)
      have htext : t₀ = t := by
        apply CString.ext
        rw [eq_append_drop_of_matches hinit henabled happlies.2.1,
          eq_append_drop_of_matches hinit henabled (hmatch hs ht), hdrop]
      rw [hs, Option.bind_some, ht, htext]
    · rintro ⟨s', t', hs', ht', -, hspells⟩
      obtain rfl := Option.some.inj (hs₀.symm.trans hs')
      obtain rfl := Option.some.inj (ht₀.symm.trans ht')
      obtain ⟨s, hs, ht⟩ := Option.bind_eq_some_iff.mp hspells
      exact ⟨s, t₀, u, hs, ht, hu, hspliced.short, hspliced.chars⟩

/-- In front of a library that serves, an argument from below FROM is reached
    exactly if there is room for the change. -/
theorem reached_iff (hk : k.Serves libc) (hinit : initRewritePolicy env = .ok rp)
    (henabled : rp.enabled = true) (hfrom : endsInSlash rp.fromPath = false)
    (hshort : ∀ s, k.spells a = some s → s.length < pathMax)
    (hfollows : a.path.any isAbsolute = true ∨ a.relative = true) (hleads : k.leads a = some q)
    (hbelow : rp.fromDirs <+: q.names) :
    (Reached rp k libc a ↔ rp.Room k a) ∧ (rp.Skips libc a ↔ ¬ rp.Room k a) := by
  have happlies := hk.applies_iff hinit henabled hfrom hshort hfollows hleads
  have hskips := hk.skips_iff hinit henabled hfrom hshort hfollows hleads
  obtain ⟨s₀, hs₀, -, -⟩ := Kernel.exists_spells hleads
  have hsource := hk.source_eq hs₀ (hshort s₀ hs₀) hfollows
  refine ⟨⟨?_, fun hroom => ?_⟩, ?_⟩
  · rintro ⟨s, t, hs, ht, h, -⟩
    exact (happlies.mp ⟨s, t, hs, by rw [hs₀, ← hsource, hs], ht, h⟩).2
  · obtain ⟨s, t, hs, hspells, ht, h⟩ := happlies.mpr ⟨hbelow, hroom⟩
    exact ⟨s, t, hs, ht, h, by rw [hspells, Option.bind_some, ht]⟩
  · rw [hskips, not_and]
    exact ⟨fun h => h hbelow, fun h _ => h⟩

end

/-- Of the paths of a call that all lead below FROM every one is rewritten, or
    none, exactly when all are reached or all stay the same. -/
theorem allOrNone_iff (env : Environ) (rp : RewritePolicy) (hinit : initRewritePolicy env = .ok rp)
    (henabled : rp.enabled = true) (hfrom : endsInSlash rp.fromPath = false) (k : Kernel)
    (libc : Libc) (c c' : Call)
    (hbelow : ∀ a ∈ c.args, ∃ q, k.leads a = some q ∧ rp.fromDirs <+: q.names)
    (hc' : eval libc rp (interpose c) = .ok (.forwarded c')) :
    AllOrNone rp k c c' ↔
      (∀ a ∈ c.args, Reached rp k libc a) ∨ ∀ a ∈ c.args, rp.Skips libc a ∨ rp.Fixes a := by
  obtain ⟨f, hf⟩ := exists_follows hinit libc
  have hsame : c.args.map f = c.args ↔ ∀ a ∈ c.args, f a = a := by
    conv_lhs => rhs; rw [← List.map_id c.args]
    exact List.map_inj_left
  rw [AllOrNone, hf.args_of_forwarded hc', List.forall₂_map_right_iff, List.forall₂_same, hsame]
  refine or_congr (forall₂_congr fun a ha => ?_) (forall₂_congr fun a _ => hf.eq_self_iff)
  obtain ⟨q, hleads, hq⟩ := hbelow a ha
  exact hf.substituted_iff hinit henabled hfrom hleads hq

/-- `rename ("/a/x", "/a/y")` becomes `rename ("/b/x", "/b/y")`. -/
theorem rename_allOrNone :
    AllOrNone .aToB ⟨.root, []⟩
        (.rename (some (.ofAscii ['/', 'a', '/', 'x'])) (some (.ofAscii ['/', 'a', '/', 'y'])))
        (.rename (some (.ofAscii ['/', 'b', '/', 'x'])) (some (.ofAscii ['/', 'b', '/', 'y']))) ↔
      (∀ a ∈ (Call.rename (some (.ofAscii ['/', 'a', '/', 'x']))
          (some (.ofAscii ['/', 'a', '/', 'y']))).args,
        Reached .aToB ⟨.root, []⟩ (Kernel.libc ⟨.root, []⟩) a) ∨
      ∀ a ∈ (Call.rename (some (.ofAscii ['/', 'a', '/', 'x']))
          (some (.ofAscii ['/', 'a', '/', 'y']))).args,
        RewritePolicy.aToB.Skips (Kernel.libc ⟨.root, []⟩) a ∨ RewritePolicy.aToB.Fixes a := by
  refine allOrNone_iff .aToB .aToB init_aToB rfl rfl ⟨.root, []⟩ (Kernel.libc ⟨.root, []⟩) _ _ ?_ ?_
  · intro a ha
    rcases List.mem_cons.mp ha with rfl | ha
    · exact ⟨_, rfl, by decide⟩
    · rw [List.mem_singleton.mp ha]
      exact ⟨_, rfl, by decide⟩
  · rfl

/-- A library whose `getcwd` fails, in the directory `/a`. -/
def Libc.withoutCwd : Libc :=
  { Kernel.libc ⟨.a, []⟩ with getcwd := fun _ => none, getcwd_lt := by simp }

/-- Then `rename ("/a/x", "y")` becomes `rename ("/b/x", "y")`, which moves
    `/b/x` to `/a/y`. -/
theorem rename_not_allOrNone :
    initRewritePolicy .aToB = .ok .aToB ∧ Kernel.Reports ⟨.a, []⟩ .withoutCwd ∧
      (∀ a ∈ (Call.rename (some (.ofAscii ['/', 'a', '/', 'x'])) (some (.ofAscii ['y']))).args,
        ∃ q, Kernel.leads ⟨.a, []⟩ a = some q ∧ RewritePolicy.aToB.fromDirs <+: q.names) ∧
      ∃ c', eval .withoutCwd .aToB (interpose (.rename (some (.ofAscii ['/', 'a', '/', 'x']))
          (some (.ofAscii ['y'])))) = .ok (.forwarded c') ∧
        ¬ AllOrNone .aToB ⟨.a, []⟩
          (.rename (some (.ofAscii ['/', 'a', '/', 'x'])) (some (.ofAscii ['y']))) c' := by
  have hreports := Kernel.serves_libc ⟨.a, []⟩
  refine ⟨init_aToB, ⟨fun h => absurd h (by simp [Libc.withoutCwd]), hreports.readlink_eq⟩, ?_,
    .rename (some (.ofAscii ['/', 'b', '/', 'x'])) (some (.ofAscii ['y'])), rfl, ?_⟩
  · intro a ha
    rcases List.mem_cons.mp ha with rfl | ha
    · exact ⟨_, rfl, by decide⟩
    · rw [List.mem_singleton.mp ha]
      exact ⟨_, rfl, by decide⟩
  · rintro (h | h)
    · -- the second path is no substitute: it is not even absolute
      obtain ⟨s, t, u, -, -, hu, -, hchars⟩ := (List.forall₂_cons.mp (List.forall₂_cons.mp h).2).1
      rw [← Option.some.inj hu] at hchars
      have hhead : some (121 : Byte) = some slash := congrArg List.head? hchars
      exact absurd hhead (by decide)
    · exact absurd h (by decide)

end LdPreload
