/-
  LdPreload.Contract.Shadow

  The tree at FROM stays out of sight.  A process that starts outside of it
  never gets a current directory or a descriptor inside, whatever it changes
  to, opens and closes: an argument that leads below FROM is found and sent
  below TO, and from there no path that is handed on leads back.
-/

import LdPreload.System.Process

namespace LdPreload

open CMem Lexical Once

/-- An argument that the interposer follows, whose text and whose substitute
    both fit. -/
structure Roomy (rp : RewritePolicy) (k : Kernel) (a : PathArg) : Prop where
  follows : a.path.any isAbsolute = true ∨ a.relative = true
  short : ∀ {s}, k.spells a = some s → s.length < pathMax
  fits : ∀ {s t}, k.spells a = some s → cleaned s = some t →
    pathMatchesPrefix t rp.fromPath rp.fromLen = true →
    rp.toLen + (t.length - rp.fromLen) + 1 ≤ pathMax

/-- A change of the current directory, an opening or a closing. -/
structure Moves (rp : RewritePolicy) (k : Kernel) (c : Call) : Prop where
  symbol : c.symbol ∈ [.chdir, .openat, .open, .close]
  roomy : ∀ a ∈ c.args, Roomy rp k a

/-- One interposed call, as the kernel carries it out. -/
def Kernel.Step (rp : RewritePolicy) (k k' : Kernel) : Prop :=
  ∃ libc c c', k.Serves libc ∧ Moves rp k c ∧
    eval libc rp (interpose c) = .ok (.forwarded c') ∧ k.Executes c' k'

/-- No directory of the process is at or below FROM. -/
def Shadowed (rp : RewritePolicy) (k : Kernel) : Prop :=
  ∀ dir ∈ k.dirs, ¬ rp.fromDirs <+: dir.names

section

variable {env : Environ} {rp : RewritePolicy} {libc : Libc} {f : PathArg → PathArg}
  {k k' : Kernel} {a : PathArg} {q : Dir}

/-- Where an argument leads after it was handed on, FROM is not. -/
theorem Follows.outside_of_leads (hf : Follows libc rp f) (hinit : initRewritePolicy env = .ok rp)
    (henabled : rp.enabled = true) (hfrom : endsInSlash rp.fromPath = false)
    (hunrelated : Unrelated rp.fromDirs rp.toDirs) (hk : k.Serves libc) (ha : Roomy rp k a)
    (hleads : k.leads (f a) = some q) : ¬ rp.fromDirs <+: q.names := by
  rcases Follows.skips_or_applies rp libc a with hskips | ⟨s, t, hs, ht, happlies⟩
  · -- below FROM the policy would have applied
    rw [hf.skipped hskips] at hleads
    intro hbelow
    obtain ⟨s, hs, habs, hq⟩ := Kernel.exists_spells hleads
    obtain ⟨t, ht⟩ := cleaned_of_short (ha.short hs)
    rw [← hq] at hbelow
    have hmatch := matches_of_below hinit henabled hfrom habs ht hbelow
    exact hskips s t (hk.source_eq hs (ha.short hs) ha.follows) ht
      ⟨henabled, hmatch, ha.fits hs ht hmatch⟩
  · -- a substitute lies below TO
    obtain ⟨u, hu, hspliced⟩ := (hf.rewritten hs ht happlies).path
    obtain ⟨rest, -, -, hdirs⟩ := hspliced.dirs
    rw [Kernel.leads, hu, Option.bind_some, Kernel.lookup, if_pos hspliced.absolute] at hleads
    rw [← Option.some.inj hleads, Dir.follow_of_absolute _ hspliced.absolute, hdirs]
    exact hunrelated.outside_append rest

theorem Shadowed.step (h : Shadowed rp k) (hinit : initRewritePolicy env = .ok rp)
    (henabled : rp.enabled = true) (hfrom : endsInSlash rp.fromPath = false)
    (hunrelated : Unrelated rp.fromDirs rp.toDirs) (hstep : Kernel.Step rp k k') :
    Shadowed rp k' := by
  obtain ⟨libc, c, c', hk, hc, hforwarded, hexec⟩ := hstep
  obtain ⟨f, hf⟩ := exists_follows hinit libc
  intro dir hdir
  -- a directory is an old one, or one that a forwarded argument leads to
  rcases hexec.mem_dirs hdir with hold | ⟨a', ha', hleads⟩
  · exact h dir hold
  · rw [hf.args_of_forwarded hforwarded] at ha'
    obtain ⟨a, ha, rfl⟩ := List.mem_map.mp ha'
    exact hf.outside_of_leads hinit henabled hfrom hunrelated hk (hc.roomy a ha) hleads

end

/-- In no run does a process get at the tree below FROM. -/
theorem shadowed_of_run (env : Environ) (rp : RewritePolicy)
    (hinit : initRewritePolicy env = .ok rp)
    (henabled : rp.enabled = true) (hfrom : endsInSlash rp.fromPath = false)
    (hunrelated : Unrelated rp.fromDirs rp.toDirs) (k k' : Kernel) (hstart : Shadowed rp k)
    (hrun : Relation.ReflTransGen (Kernel.Step rp) k k') : Shadowed rp k' := by
  -- by induction on the steps of the run
  induction hrun with
  | refl => exact hstart
  | tail _ hstep ih => exact ih.step hinit henabled hfrom hunrelated hstep

/-- From the root, after `chdir ("/a")` and `openat (AT_FDCWD, "../a")`. -/
theorem shadowed_after_chdir_openat :
    Shadowed .aToB ⟨⟨[[98]], by decide, by decide⟩, [(3, ⟨[[98]], by decide, by decide⟩)]⟩ := by
  have hunrelated : Unrelated RewritePolicy.aToB.fromDirs RewritePolicy.aToB.toDirs :=
    ⟨by decide, by decide⟩
  have hchdir : Kernel.Step .aToB ⟨.root, []⟩ ⟨⟨[[98]], by decide, by decide⟩, []⟩ := by
    refine ⟨_, .chdir (some (.ofAscii ['/', 'a'])), .chdir (some (.ofAscii ['/', 'b'])),
      Kernel.serves_libc _, ⟨by decide, ?_⟩, rfl, .chdir ?_⟩
    · intro a ha
      obtain rfl := List.mem_singleton.mp ha
      refine ⟨Or.inl rfl, fun hs => ?_, fun hs ht _ => ?_⟩
      · obtain rfl := Option.some.inj hs
        decide
      · obtain rfl := Option.some.inj hs
        obtain rfl := Option.some.inj ht
        decide
    · exact congrArg (fun dir => some (Kernel.mk dir [])) (Dir.ext_names (by decide))
  have hopenat : Kernel.Step .aToB ⟨⟨[[98]], by decide, by decide⟩, []⟩
      ⟨⟨[[98]], by decide, by decide⟩, [(3, ⟨[[98]], by decide, by decide⟩)]⟩ := by
    refine ⟨_, .openat atFdcwd (some (.ofAscii ['.', '.', '/', 'a'])) 0 0,
      .openat atFdcwd (some (.ofAscii ['/', 'b'])) 0 0, Kernel.serves_libc _, ⟨by decide, ?_⟩,
      by decide +kernel, .openat ?_ ⟨by decide, rfl⟩⟩
    · intro a ha
      obtain rfl := List.mem_singleton.mp ha
      refine ⟨Or.inr rfl, fun hs => ?_, fun hs ht _ => ?_⟩
      · obtain rfl := Option.some.inj hs
        decide
      · obtain rfl := Option.some.inj hs
        obtain rfl := Option.some.inj ht
        decide
    · exact congrArg some (Dir.ext_names (by decide))
  refine shadowed_of_run .aToB .aToB init_aToB rfl rfl hunrelated ⟨.root, []⟩ _ ?_
    (.tail (.tail .refl hchdir) hopenat)
  intro dir hdir
  rw [List.mem_singleton.mp hdir]
  decide

end LdPreload
