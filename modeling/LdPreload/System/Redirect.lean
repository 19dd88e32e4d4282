/-
  LdPreload.System.Redirect

  What the interposer is for: what a program does at FROM is done at TO.
  `RewritePolicy.behind` is that redirection, a map of places, and
  `FileSystem.through` a file system that is asked through it.  The places
  behind FROM are those below TO, and below TO they still have their own names
  as well.  This is a relocation of paths and not a mount, which has a device
  of its own and cannot be renamed.

  An argument that the interposer hands on is resolved, from the real
  directories, to what stands behind the place that the program means
  (`Follows.target_forward`), as long as it stays where rewriting and
  redirecting agree (`Tame`); and what a call does to the directories that the
  program sees, it does to those behind them (`Kernel.after_behind`), as long
  as no rename takes FROM or TO along (`Call.Settled`).
-/

import LdPreload.Contract.Shadow
import LdPreload.System.FileSystem

namespace LdPreload

open CMem Lexical Once

/-! ## The redirection -/

namespace RewritePolicy

def fromDir (rp : RewritePolicy) : Dir := Dir.root.walkFrom rp.fromPath

def toDir (rp : RewritePolicy) : Dir := Dir.root.walkFrom rp.toPath

/-- The place that stands behind a place, with TO in the place of FROM. -/
def behind (rp : RewritePolicy) (d : Dir) : Dir := Dir.moved rp.fromDir rp.toDir d

theorem names_behind (rp : RewritePolicy) (d : Dir) :
    (rp.behind d).names = relocate rp.fromDirs rp.toDirs d.names :=
  Dir.names_moved _ _ d

/-- The place is not in TO, and neither FROM nor TO is in it. -/
def Apart (rp : RewritePolicy) (d : Dir) : Prop :=
  ¬ d.names <+: rp.fromDirs ∧ Unrelated rp.toDirs d.names

end RewritePolicy

/-- The file system, asked for places through `g`. -/
def FileSystem.through {σ ρ : Type} (fs : FileSystem σ ρ) (g : Dir → Dir) : FileSystem σ ρ where
  act s c targets := fs.act s c (targets.map (Target.map g))
  actFd := fs.actFd
  effect_of s c targets := fs.effect_of s c (targets.map (Target.map g))

/-- A rename is one of places that are apart from FROM and TO, by a process
    that has no directory in TO. -/
def Call.Settled (rp : RewritePolicy) (k : Kernel) (c : Call) : Prop :=
  c.renames = true → (∀ a ∈ c.args, ∀ place, k.leads a = some place → rp.Apart place) ∧
    ∀ d ∈ k.dirs, ¬ rp.toDirs <+: d.names

theorem Call.settled_effective {rp : RewritePolicy} {k : Kernel} {c : Call} :
    c.effective.Settled rp k ↔ c.Settled rp k := by
  rw [Settled, Settled, args_effective, renames_effective]

section After

variable {rp : RewritePolicy} {k : Kernel} {old new d : Dir}

theorem RewritePolicy.behind_moved (hold : rp.Apart old) (hnew : rp.Apart new)
    (hd : ¬ rp.toDirs <+: d.names) :
    rp.behind (Dir.moved old new d) = Dir.moved (rp.behind old) (rp.behind new) (rp.behind d) :=
  Dir.ext_names (relocate_relocate hold.1 hnew.1 hold.2 hd)

theorem RewritePolicy.behind_exchanged (hold : rp.Apart old) (hnew : rp.Apart new)
    (hd : ¬ rp.toDirs <+: d.names) :
    rp.behind (Dir.exchanged old new d) =
      Dir.exchanged (rp.behind old) (rp.behind new) (rp.behind d) := by
  apply Dir.ext_names
  simp only [RewritePolicy.names_behind, Dir.names_exchanged]
  exact relocate_exchange hold.1 hnew.1 hold.2 hnew.2 hd

/-- What is done to all directories behind those of a process, is done behind
    what is done to all of them. -/
theorem Kernel.map_comm {f g h : Dir → Dir} (hcomm : ∀ d ∈ k.dirs, f (g d) = h (f d)) :
    (k.map f).map h = (k.map g).map f := by
  obtain ⟨hcwd, hfds⟩ := List.forall_mem_cons.mp hcomm
  simp only [map, List.map_map, Kernel.mk.injEq]
  refine ⟨hcwd.symm, List.map_congr_left fun e he => ?_⟩
  simp only [Function.comp_apply, hfds e.2 (List.mem_map_of_mem he)]

/-- What a call does to directories, it does to those behind them. -/
theorem Kernel.after_behind {targets : List Target} {effect : Effect}
    (hsettled : effect.Moves → (∀ t ∈ targets, ∀ place, t.place = some place → rp.Apart place) ∧
      ∀ d ∈ k.dirs, ¬ rp.toDirs <+: d.names) :
    (k.map rp.behind).after (targets.map (Target.map rp.behind)) effect =
      (k.after targets effect).map rp.behind := by
  have hhead : (targets.map (Target.map rp.behind)).head?.bind Target.place =
      (targets.head?.bind Target.place).map rp.behind := by
    cases targets with
    | nil => rfl
    | cons t targets => exact t.place_map rp.behind
  have hends : Target.ends (targets.map (Target.map rp.behind)) =
      (Target.ends targets).map (Prod.map rp.behind rp.behind) := by
    cases targets with
    | nil => rfl
    | cons t targets =>
      cases targets with
      | nil => rfl
      | cons t' targets =>
        simp only [List.map_cons, Target.ends, Target.place_map]
        cases t.place <;> cases t'.place <;> rfl
  cases effect with
  | keep => rfl
  | enter | install fd =>
    simp only [after, hhead]
    cases targets.head?.bind Target.place <;> rfl
  | remove fd => simp only [after, map, List.filter_map, Function.comp_def]
  | move =>
    simp only [after, hends]
    cases h : Target.ends targets with
    | none => rfl
    | some e =>
      obtain ⟨hplaces, hdirs⟩ := hsettled (Or.inl rfl)
      obtain ⟨⟨t, ht, hold⟩, t', ht', hnew⟩ := Target.mem_of_ends h
      exact map_comm fun d hd => RewritePolicy.behind_moved (hplaces t ht _ hold)
        (hplaces t' ht' _ hnew) (hdirs d hd)
  | exchange =>
    simp only [after, hends]
    cases h : Target.ends targets with
    | none => rfl
    | some e =>
      obtain ⟨hplaces, hdirs⟩ := hsettled (Or.inr rfl)
      obtain ⟨⟨t, ht, hold⟩, t', ht', hnew⟩ := Target.mem_of_ends h
      exact map_comm fun d hd => RewritePolicy.behind_exchanged (hplaces t ht _ hold)
        (hplaces t' ht' _ hnew) (hdirs d hd)

end After

/-! ## Where redirecting and rewriting agree -/

/-- The argument is relative to a directory at or below FROM. -/
def Kernel.Inside (k : Kernel) (rp : RewritePolicy) (a : PathArg) : Prop :=
  a.path.any isAbsolute = false ∧ ∃ dir, k.dirOf a.dirfd = some dir ∧ rp.fromDirs <+: dir.names

/-- An argument that may come from anywhere, as far as the interposer goes
    along: one that leads into FROM from outside is followed, fits, and ends in
    a name, and one that starts inside does not climb out. -/
structure Tame (rp : RewritePolicy) (k : Kernel) (a : PathArg) : Prop where
  short : ∀ path, a.path = some path → path.length < pathMax
  enters : ∀ place, k.leads a = some place → rp.fromDirs <+: place.names → ¬ k.Inside rp a →
    Roomy rp k a ∧ a.path.any namesEntry = true
  stays : ∀ path dir, a.path = some path → isAbsolute path = false →
    k.dirOf a.dirfd = some dir → rp.fromDirs <+: dir.names →
      rp.fromDirs.length + (course (segments slash path.chars)).up ≤
        dir.names.length

section Room

variable {rp : RewritePolicy} {k : Kernel} {a : PathArg} {path : CString}

/-- It is all the same where an absolute path is looked at. -/
theorem Roomy.of_absolute (hpath : a.path = some path) (habs : isAbsolute path = true)
    (hshort : path.length < pathMax)
    (hfits : ∀ t ∈ cleaned path, rp.toLen + (t.length - rp.fromLen) + 1 ≤ pathMax) :
    Roomy rp k a := by
  have hspells : k.spells a = some path := by
    rw [Kernel.spells, hpath, Option.bind_some, if_pos habs]
  refine ⟨Or.inl ?_, fun hs => ?_, fun hs ht _ => ?_⟩
  · rw [hpath]
    exact habs
  · rwa [← Option.some.inj (hspells.symm.trans hs)]
  · obtain rfl := Option.some.inj (hspells.symm.trans hs)
    exact hfits _ ht

/-- A relative path is looked at from where it starts. -/
theorem Roomy.of_relative {dir : Dir} (hpath : a.path = some path) (hrel : a.relative = true)
    (hpathrel : isAbsolute path = false) (hdir : k.dirOf a.dirfd = some dir)
    (hshort : (joinText dir.text path).length < pathMax)
    (hfits : ∀ t ∈ cleaned (joinText dir.text path),
      rp.toLen + (t.length - rp.fromLen) + 1 ≤ pathMax) : Roomy rp k a := by
  have hspells : k.spells a = some (joinText dir.text path) := by
    rw [Kernel.spells, hpath, Option.bind_some, if_neg (by simp [hpathrel]), hdir, Option.map_some]
  refine ⟨Or.inr hrel, fun hs => ?_, fun hs ht _ => ?_⟩
  · rwa [← Option.some.inj (hspells.symm.trans hs)]
  · obtain rfl := Option.some.inj (hspells.symm.trans hs)
    exact hfits _ ht

theorem Tame.of_absolute (hpath : a.path = some path) (habs : isAbsolute path = true)
    (hshort : path.length < pathMax) (hname : namesEntry path = true)
    (hfits : ∀ t ∈ cleaned path, rp.toLen + (t.length - rp.fromLen) + 1 ≤ pathMax) :
    Tame rp k a := by
  refine ⟨fun path' h => ?_, fun _ _ _ _ => ⟨.of_absolute hpath habs hshort hfits, ?_⟩,
    fun path' dir h hrel => ?_⟩
  · rwa [← Option.some.inj (hpath.symm.trans h)]
  · rw [hpath]
    exact hname
  · obtain rfl := Option.some.inj (hpath.symm.trans h)
    exact absurd (habs.symm.trans hrel) (by decide)

end Room

section Texts

variable {path : CString}

theorem namesEntry_iff : namesEntry path = true ↔ endsInSlash path = false ∧
    ∃ s, (segments slash path.chars).getLast? = some s ∧ s ≠ [dot] ∧ s ≠ [dot, dot] := by
  rw [namesEntry, Bool.and_eq_true, Bool.not_eq_true', Option.any_eq_true]
  simp only [decide_eq_true_eq]

theorem Target.of_entry {place : Dir} (h : namesEntry path = true) :
    Target.of path place = .entry place := by
  have hlen : path.length ≠ 0 := by
    intro hzero
    obtain ⟨-, seg, hseg, -⟩ := namesEntry_iff.mp h
    rw [List.eq_nil_of_length_eq_zero hzero] at hseg
    exact absurd hseg (by simp)
  rw [Target.of, if_neg hlen, if_pos h]

/-- An absolute path whose last segment is a name, is cleaned to one that does
    not end in a separator. -/
theorem endsInSlash_cleaned {s t : CString} {seg : Segment} (habs : isAbsolute s = true)
    (ht : cleaned s = some t) (hlast : (segments slash s.chars).getLast? = some seg)
    (hdot : seg ≠ [dot]) (hdots : seg ≠ [dot, dot]) : endsInSlash t = false := by
  obtain ⟨init, hinit⟩ := List.getLast?_eq_some_iff.mp hlast
  have hresolve : resolve s.chars = walk [] init ++ [seg] := by
    show Lexical.walk [dot] [dot, dot] [] (segments slash s.chars) = _
    rw [hinit, walk_append, walk_cons, walk_nil, walkStep, if_neg hdot, if_neg hdots]
  have hleaves : leavesSlash s.chars = false := by
    rw [← Bool.not_eq_true, leavesSlash_iff, hresolve, hinit, List.filter_append]
    have htail : [seg].filter (· ≠ [dot]) = [seg] := by simp [hdot]
    rw [htail, List.getLast?_append_of_ne_nil _ (by simp), List.getLast?_singleton]
    simp [hdots]
  obtain ⟨htext, -⟩ := cleaned_absolute habs ht
  rw [hleaves] at htext
  rw [endsInSlash, htext, pathText, if_neg (by decide), List.append_nil, beq_eq_false_iff_ne]
  exact getLast?_spell_ne_sep fun s hs => (isName_of_mem_resolve s hs).1

/-- What takes its place does not end in a separator either, -/
theorem Spliced.endsInSlash {rp : RewritePolicy} {s t u : CString} (h : Spliced rp s t u)
    (hto : LdPreload.endsInSlash rp.toPath = false) (ht : LdPreload.endsInSlash t = false) :
    LdPreload.endsInSlash u = false := by
  unfold LdPreload.endsInSlash at hto ht ⊢
  rw [h.chars]
  by_cases hdrop : t.chars.drop rp.fromLen = []
  · rwa [hdrop, List.append_nil]
  · rw [List.getLast?_append_of_ne_nil _ hdrop, List.getLast?_drop, if_neg]
    · exact ht
    · intro hle
      exact hdrop (List.drop_of_length_le hle)

/-- and ends in a name. -/
theorem Spliced.namesEntry {rp : RewritePolicy} {s t u : CString} (h : Spliced rp s t u)
    (hroot : rp.toDirs ≠ []) (hu : LdPreload.endsInSlash u = false) :
    LdPreload.namesEntry u = true := by
  obtain ⟨rest, -, hsegs, hresolve⟩ := h.dirs
  rw [namesEntry_iff]
  refine ⟨hu, ?_⟩
  obtain ⟨init, seg, hinit⟩ := (List.eq_nil_or_concat (rp.toDirs ++ rest)).resolve_left
    (by simp [hroot])
  have hname : IsName seg := by
    have hmem : seg ∈ resolve u.chars := by
      rw [hresolve, hinit, List.concat_eq_append]
      exact List.mem_append_right _ (List.mem_singleton_self _)
    exact isName_of_mem_resolve seg hmem
  exact ⟨seg, by rw [hsegs, hinit, List.concat_eq_append, List.getLast?_concat], hname.2⟩

end Texts

/-! ## One argument -/

theorem Libc.length_base_lt {libc : Libc} {dirfd : Int32} {base : CString}
    (h : libc.base dirfd = some base) : base.length < pathMax := by
  unfold Libc.base at h
  split at h
  · split at h
    · exact libc.getcwd_lt h
    · exact absurd h (by simp)
  · split at h
    · split at h
      · split at h
        · next hcond => exact (cleaned_absolute hcond.2 h).2
        · exact absurd h (by simp)
      · exact absurd h (by simp)
    · exact absurd h (by simp)

section Argument

variable {env : Environ} {rp : RewritePolicy} {libc : Libc} {f : PathArg → PathArg} {k : Kernel}
  {a : PathArg} {q : Dir} {s : CString}

/-- A short path is read whole, or not at all. -/
theorem Kernel.Reports.resolve_source_of_short (h : k.Reports libc)
    (hshort : ∀ path, a.path = some path → path.length < pathMax)
    (hs : libc.source a = some s) (hleads : k.leads a = some q) : resolve s.chars = q.names := by
  rcases h.source_cases hs hleads with hq | ⟨path, base, hpath, hrel, hbase, hlong, -⟩
  · exact hq
  · have hlt := hshort path hpath
    rw [Libc.source, hpath, Option.bind_some, if_neg (by simp [hrel])] at hs
    split at hs
    · obtain ⟨b, hb, -⟩ := Option.bind_eq_some_iff.mp hs
      have hblt := Libc.length_base_lt hb
      rw [h.base_eq hbase hb] at hblt
      rw [length_joinText] at hlong
      unfold pathMax at hlt hblt
      unfold intMax at hlong
      omega
    · exact absurd hs (by simp)

theorem RewritePolicy.behind_of_outside (h : ¬ rp.fromDirs <+: q.names) : rp.behind q = q :=
  Dir.ext_names (relocate_of_outside h)

/-- Behind no place there is anything of FROM. -/
theorem RewritePolicy.outside_behind (hunrelated : Unrelated rp.fromDirs rp.toDirs) (d : Dir) :
    ¬ rp.fromDirs <+: (rp.behind d).names := by
  by_cases h : rp.fromDirs <+: d.names
  · obtain ⟨rest, hrest⟩ := h
    show ¬ rp.fromDirs <+: relocate rp.fromDirs rp.toDirs d.names
    rw [← hrest, relocate_append]
    exact hunrelated.outside_append rest
  · rwa [rp.behind_of_outside h]

/-- What is relative to no open descriptor has no text. -/
theorem Kernel.Backs.source_of_closed {path : CString} (hk : k.Backs libc)
    (hpath : a.path = some path) (hclosed : k.lookup a.dirfd path = none) :
    libc.source a = none := by
  rw [Libc.source, hpath, Option.bind_some]
  unfold Kernel.lookup at hclosed
  by_cases habs : isAbsolute path = true
  · exact absurd hclosed (by simp [habs])
  · rw [if_neg habs, Option.map_eq_none_iff] at hclosed
    have hne : a.dirfd ≠ atFdcwd := by
      intro h
      exact absurd hclosed (by simp [Kernel.dirOf, h])
    have hfd : k.fds.lookup a.dirfd = none := by
      rwa [Kernel.dirOf, if_neg hne] at hclosed
    have hbase : libc.base a.dirfd = none := by
      rw [Libc.base, if_neg hne, if_pos hk.resolves_readlink]
      split
      · next link hlink => rw [if_neg (by simp [hk.readlink_closed hfd hlink])]
      · rfl
    rw [if_neg habs, hbase]
    split <;> rfl

/-- What leads nowhere below FROM is none of the policy's business. -/
theorem RewritePolicy.skips_of_away (hinit : initRewritePolicy env = .ok rp) (hk : k.Backs libc)
    (hshort : ∀ path, a.path = some path → path.length < pathMax)
    (haway : ∀ q, k.leads a = some q → ¬ rp.fromDirs <+: q.names) : rp.Skips libc a := by
  intro s t hs ht happlies
  obtain ⟨path, hpath, -⟩ := Option.bind_eq_some_iff.mp hs
  cases hplace : k.lookup a.dirfd path with
  | none => exact absurd ((hk.source_of_closed hpath hplace).symm.trans hs) (by simp)
  | some q =>
    have hleads : k.leads a = some q := by rw [Kernel.leads, hpath, Option.bind_some, hplace]
    apply haway q hleads
    rw [← hk.resolve_source_of_short hshort hs hleads]
    exact below_of_applies hinit ht happlies

variable {path : CString}

/-- Behind a tame argument that starts inside FROM, its path leads from TO to
    where it leads from FROM. -/
theorem Tame.lookup_inside (ha : Tame rp k a) (hpath : a.path = some path)
    (hinside : k.Inside rp a) : ∃ place, k.lookup a.dirfd path = some place ∧
      (k.map rp.behind).lookup a.dirfd path = some (rp.behind place) := by
  obtain ⟨hrel, dir, hdir, hbelow⟩ := hinside
  rw [hpath] at hrel
  replace hrel : isAbsolute path = false := hrel
  have habs : ¬ isAbsolute path = true := by simp [hrel]
  refine ⟨dir.follow path, ?_, ?_⟩
  · rw [Kernel.lookup, if_neg habs, hdir, Option.map_some]
  · rw [Kernel.lookup, if_neg habs, Kernel.dirOf_map, hdir, Option.map_some, Option.map_some,
      Option.some.injEq]
    apply Dir.ext_names
    have hfollow : ∀ d : Dir, (d.follow path).names =
        (course (segments slash path.chars)).follow d.names := fun d => by
      rw [d.follow_of_relative habs]
      exact walk_eq_follow ..
    rw [hfollow]
    show _ = relocate rp.fromDirs rp.toDirs (dir.follow path).names
    rw [hfollow]
    exact (relocate_follow hbelow (ha.stays path dir hpath hrel hdir hbelow)).2.symm

/-- Outside of FROM the real directories are those of the program. -/
theorem Kernel.dirOf_outside (hrel : a.path.any isAbsolute = false) (hinside : ¬ k.Inside rp a) :
    (k.map rp.behind).dirOf a.dirfd = k.dirOf a.dirfd := by
  rw [Kernel.dirOf_map]
  cases hdir : k.dirOf a.dirfd with
  | none => rfl
  | some dir =>
    have hout : ¬ rp.fromDirs <+: dir.names := fun hbelow => hinside ⟨hrel, dir, hdir, hbelow⟩
    rw [Option.map_some, rp.behind_of_outside hout]

theorem Kernel.lookup_outside (hpath : a.path = some path) (hinside : ¬ k.Inside rp a) :
    (k.map rp.behind).lookup a.dirfd path = k.lookup a.dirfd path := by
  unfold Kernel.lookup
  by_cases habs : isAbsolute path = true
  · rw [if_pos habs, if_pos habs]
  · rw [if_neg habs, if_neg habs, Kernel.dirOf_outside (by simpa [hpath] using habs) hinside]

theorem Kernel.spells_outside (hinside : ¬ k.Inside rp a) :
    (k.map rp.behind).spells a = k.spells a := by
  unfold Kernel.spells
  cases hpath : a.path with
  | none => rfl
  | some path =>
    rw [Option.bind_some, Option.bind_some]
    by_cases habs : isAbsolute path = true
    · rw [if_pos habs, if_pos habs]
    · rw [if_neg habs, if_neg habs, Kernel.dirOf_outside (by simpa [hpath] using habs) hinside]

/-- The whole text of an argument ends as its path does. -/
theorem Kernel.getLast?_of_spells {seg : Segment} (hpath : a.path = some path)
    (hs : k.spells a = some s) (hseg : (segments slash path.chars).getLast? = some seg) :
    (segments slash s.chars).getLast? = some seg := by
  rw [Kernel.spells, hpath, Option.bind_some] at hs
  split at hs
  · rwa [← Option.some.inj hs]
  · obtain ⟨dir, -, rfl⟩ := Option.map_eq_some_iff.mp hs
    rw [chars_joinText, segments_append_sep, List.getLast?_append, hseg]
    rfl

/-- What the interposer hands on is resolved, from the real directories, to
    what stands behind the place that the program means. -/
theorem Follows.target_forward (hf : Follows libc rp f) (hinit : initRewritePolicy env = .ok rp)
    (henabled : rp.enabled = true) (hfrom : endsInSlash rp.fromPath = false)
    (hto : endsInSlash rp.toPath = false) (hunrelated : Unrelated rp.fromDirs rp.toDirs)
    (hk : (k.map rp.behind).Backs libc) (ha : Tame rp k a) :
    (k.map rp.behind).target (f a) = (k.target a).map rp.behind := by
  have hroot : rp.toDirs ≠ [] := fun h => hunrelated.2 (h ▸ List.nil_prefix)
  cases hpath : a.path with
  | none =>
    have hskips : rp.Skips libc a := by
      intro s t hs
      rw [Libc.source, hpath] at hs
      exact absurd hs (by simp)
    rw [hf.skipped hskips, Kernel.target_of_none hpath, Kernel.target_of_none hpath]
    rfl
  | some path =>
  have hleads : ∀ {k : Kernel}, k.leads a = k.lookup a.dirfd path := by
    intro k
    rw [Kernel.leads, hpath, Option.bind_some]
  by_cases hinside : k.Inside rp a
  · -- from inside FROM, the path leads below TO by itself
    obtain ⟨place, hplace, hbehind⟩ := ha.lookup_inside hpath hinside
    have hskips : rp.Skips libc a := by
      refine RewritePolicy.skips_of_away hinit hk ha.short fun q hq => ?_
      obtain rfl := Option.some.inj ((hleads.trans hbehind).symm.trans hq)
      exact rp.outside_behind hunrelated place
    rw [hf.skipped hskips, Kernel.target_of_lookup hpath hbehind,
      Kernel.target_of_lookup hpath hplace, Target.map_of]
  · have hsame := Kernel.lookup_outside hpath hinside
    cases hplace : k.lookup a.dirfd path with
    | none =>
      rw [hplace] at hsame
      have hskips : rp.Skips libc a := by
        refine RewritePolicy.skips_of_away hinit hk ha.short fun q hq => ?_
        exact absurd ((hleads.trans hsame).symm.trans hq) (by simp)
      rw [hf.skipped hskips, Kernel.target_of_closed hpath hsame,
        Kernel.target_of_closed hpath hplace]
      rfl
    | some place =>
      rw [hplace] at hsame
      by_cases hbelow : rp.fromDirs <+: place.names
      · -- into FROM the interposer goes along, and hands an entry on as an entry
        obtain ⟨hroomy, hname⟩ := ha.enters place (hleads.trans hplace) hbelow hinside
        obtain ⟨s, hs, habs, hq⟩ := Kernel.exists_spells (hleads.trans hplace)
        obtain ⟨t, ht⟩ := cleaned_of_short (hroomy.short hs)
        have hmatch := matches_of_below hinit henabled hfrom habs ht (hq ▸ hbelow)
        have hsource := hk.source_eq ((Kernel.spells_outside hinside).trans hs)
          (hroomy.short hs) hroomy.follows
        have hrewritten := hf.rewritten hsource ht ⟨henabled, hmatch, hroomy.fits hs ht hmatch⟩
        obtain ⟨u, hu, hspliced⟩ := hrewritten.path
        obtain ⟨-, dir, hdir, hnames⟩ := Kernel.leads_of_rewritten (k := k.map rp.behind)
          hrewritten hq
        obtain rfl : dir = rp.behind place := Dir.ext_names hnames
        rw [Kernel.leads, hu, Option.bind_some] at hdir
        rw [hpath] at hname
        obtain ⟨-, seg, hseg, hdot, hdots⟩ := namesEntry_iff.mp hname
        have hclean := endsInSlash_cleaned habs ht (Kernel.getLast?_of_spells hpath hs hseg) hdot
          hdots
        rw [Kernel.target_of_lookup hu hdir, Kernel.target_of_lookup hpath hplace, Target.map_of,
          Target.of_entry hname, Target.of_entry (hspliced.namesEntry hroot
            (hspliced.endsInSlash hto hclean))]
      · have hskips : rp.Skips libc a := by
          refine RewritePolicy.skips_of_away hinit hk ha.short fun q hq => ?_
          obtain rfl := Option.some.inj ((hleads.trans hsame).symm.trans hq)
          exact hbelow
        rw [hf.skipped hskips, Kernel.target_of_lookup hpath hsame,
          Kernel.target_of_lookup hpath hplace, Target.map_of, rp.behind_of_outside hbelow]

end Argument

/-! ## Out of sight -/

/-- A call whose paths the interposer follows, and that renames nothing that
    FROM is in. -/
structure Call.Followed (rp : RewritePolicy) (k : Kernel) (c : Call) : Prop where
  untied : c.tied = false
  roomy : ∀ a ∈ c.args, Roomy rp k a
  renames : c.renames = true → ∀ a ∈ c.args, ∀ place, k.leads a = some place →
    place.names <+: rp.fromDirs → place.names = rp.fromDirs

/-- A call that is about places outside of FROM, and renames nothing that FROM
    is in. -/
def Call.Clear (rp : RewritePolicy) (c : Call) (targets : List Target) : Prop :=
  ∀ t ∈ targets, ∀ d, t.place = some d →
    ¬ rp.fromDirs <+: d.names ∧ (c.renames = true → ¬ d.names <+: rp.fromDirs)

section Clear

variable {env : Environ} {rp : RewritePolicy} {libc : Libc} {f : PathArg → PathArg}
  {k : Kernel} {c : Call} {a : PathArg} {q : Dir}

/-- What a call is handed on as, is clear of FROM. -/
theorem Follows.clear_of_leads (hf : Follows libc rp f) (hinit : initRewritePolicy env = .ok rp)
    (henabled : rp.enabled = true) (hfrom : endsInSlash rp.fromPath = false)
    (hunrelated : Unrelated rp.fromDirs rp.toDirs) (hk : k.Serves libc) (hc : c.Followed rp k)
    (ha : a ∈ c.args) (hleads : k.leads (f a) = some q) :
    ¬ rp.fromDirs <+: q.names ∧ (c.renames = true → ¬ q.names <+: rp.fromDirs) := by
  have hout := hf.outside_of_leads hinit henabled hfrom hunrelated hk (hc.roomy a ha) hleads
  refine ⟨hout, fun hrenames habove => ?_⟩
  rcases Follows.skips_or_applies rp libc a with hskips | ⟨s, t, hs, ht, happlies⟩
  · -- a place that is kept is not FROM, and so is not one that it is in
    rw [hf.skipped hskips] at hleads
    apply hout
    rw [hc.renames hrenames a ha q hleads habove]
  · -- TO is not above FROM
    obtain ⟨u, hu, hspliced⟩ := (hf.rewritten hs ht happlies).path
    obtain ⟨rest, -, -, hdirs⟩ := hspliced.dirs
    rw [Kernel.leads, hu, Option.bind_some, Kernel.lookup, if_pos hspliced.absolute] at hleads
    rw [← Option.some.inj hleads, Dir.follow_of_absolute _ hspliced.absolute, hdirs] at habove
    exact hunrelated.2 ((List.prefix_append _ _).trans habove)

/-- A call that is clear of FROM leaves it out of sight. -/
theorem Shadowed.after {targets : List Target} {effect : Effect} (h : Shadowed rp k)
    (hclear : c.Clear rp targets) (hof : effect.Of c) : Shadowed rp (k.after targets effect) := by
  refine Kernel.forall_dirs_after h (fun t ht d hd => (hclear t ht d hd).1) ?_
  intro hmoves t ht new hnew old d hd
  obtain ⟨hout, habove⟩ := hclear t ht new hnew
  exact Unrelated.outside_relocate ⟨hout, habove (hmoves.renames hof)⟩ hd

end Clear

end LdPreload
