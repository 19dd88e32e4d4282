/-
  LdPreload.Contract.Illusion

  What a program sees.  A process behind the interposer and a process whose
  places are redirected from FROM to TO give the same answers over whole runs,
  and end in corresponding states (`redirected_of_run`), as long as the program
  asks for nothing where rewriting paths falls short of redirecting places.  A
  process that stays away from FROM does not notice the interposer
  (`unnoticed_of_run`), and one that starts outside of FROM never has the file
  system look there, whatever is there (`untouched_of_run`).
-/

import LdPreload.Contract.Processes
import LdPreload.Contract.VirtualCwd
import LdPreload.Machine.Service
import LdPreload.System.Redirect

namespace LdPreload

open CMem Lexical Once

/-! ## The name of the current directory -/

section Name

variable {m : Mapping} {libc : Libc} {place : Dir} {n : Nat}

/-- The text of TO matches no name of a directory outside of TO. -/
theorem Mapping.substituted_of_outside (h : ¬ m.dst.dirs <+: place.names) (n : Nat) :
    substituted m.dst.text m.src.text place.text n = none := by
  rw [substituted, if_neg]
  rintro ⟨hmatch, -⟩
  obtain ⟨suffix, hsuffix, hboundary⟩ := (pathMatchesPrefix_iff_append _ _).mp hmatch
  have hsegs : segments slash place.text.chars = place.names :=
    segments_pathText place.isName _
  have hdst : segments slash m.dst.text.chars = m.dst.dirs := segments_pathText m.dst.names _
  apply h
  rw [← hsegs, hsuffix]
  -- what follows the text of TO is nothing, or starts with a separator
  cases suffix with
  | nil => rw [List.append_nil, hdst]
  | cons c suffix =>
    obtain rfl : c = slash := hboundary
    rw [segments_append_sep, hdst]
    exact List.prefix_append _ _

/-- From behind a directory, `getcwd` gives the name of the directory back. -/
theorem Mapping.virtual_behind (hfrom : endsInSlash m.src.text = false)
    (hto : endsInSlash m.dst.text = false) (hout : ¬ m.dst.dirs <+: place.names)
    (hlen : place.text.length < pathMax) (hbehind : (m.policy.behind place).text.length < pathMax)
    (hn : place.text.length < n) : m.virtual (m.policy.behind place) n = place.text := by
  by_cases hbelow : m.policy.fromDirs <+: place.names
  · obtain ⟨rest, hrest⟩ := hbelow
    have hnames : (m.policy.behind place).names = m.dst.dirs ++ rest := by
      show relocate m.policy.fromDirs m.policy.toDirs place.names = _
      rw [← hrest, relocate_append, m.toDirs_policy]
    rw [m.fromDirs_policy] at hrest
    have hsrc : m.src.Covers (place.clean hlen) rest :=
      (CleanPath.covers_iff hrest.symm).mpr (Or.inl hfrom)
    have hdst : m.dst.Covers ((m.policy.behind place).clean hbehind) rest :=
      (CleanPath.covers_iff hnames).mpr (Or.inl hto)
    have hstray : ¬ StraySlash m.src.text := fun h => absurd (hfrom.symm.trans h.1) (by decide)
    have hslash : m.dst.atSlash = false := m.dst.endsInSlash_text.symm.trans hto
    have hne : (m.policy.behind place).names ≠ [] := by
      intro hnil
      have hroot := m.dst.rooted (List.append_eq_nil_iff.mp (hnames.symm.trans hnil)).1
      exact absurd (hslash.symm.trans hroot) (by decide)
    have hsome : substituted m.dst.text m.src.text (m.policy.behind place).text n =
        some place.text := by
      rw [← (m.policy.behind place).text_clean hbehind, CleanPath.substituted_eq_some_iff]
      refine ⟨rest, hdst, ?_, hn⟩
      rw [Mapping.chars_text_of_covers hsrc hstray hrest.symm]
      simp [CleanPath.remainder, hslash, pathText, Dir.clean, hne]
    rw [virtual, hsome, Option.getD_some]
  · rw [m.policy.behind_of_outside hbelow, virtual, Mapping.substituted_of_outside hout]
    rfl

/-- The array holds the name that the policy gives to the directory. -/
theorem Mapping.eval_getcwd_virtual (m : Mapping) (buf : CharArray)
    (hsym : libc.resolves .getcwd = true) (hget : libc.getcwd n = some place.text)
    (hcap : n ≤ buf.cap)
    (hshort : ∀ t, substituted m.dst.text m.src.text place.text n = some t → t.length < pathMax) :
    ∃ buf', eval libc m.policy (getcwd (some buf) n) = .ok (.caller buf') ∧
      buf'.string = .ok (m.virtual place n) := by
  unfold virtual
  cases hsub : substituted m.dst.text m.src.text place.text n with
  | none => exact eval_getcwd_of_none m hsym hget (libc.length_lt_cap hget hcap) hsub
  | some t =>
    exact eval_getcwd_of_room m hsym hget hcap hsub (hshort t hsub)

end Name

/-! ## In front of TO -/

/-- An array has room for the name of the current directory and for that of
    the directory behind it, or for neither. -/
structure Named (rp : RewritePolicy) (place : Dir) (buf : CharArray) (size : Nat) : Prop where
  cap : size ≤ buf.cap
  outside : ¬ rp.toDirs <+: place.names
  short : place.text.length < pathMax
  behind_short : (rp.behind place).text.length < pathMax
  room : place.text.length < size ↔ (rp.behind place).text.length < size

/-- What a program may ask for, for rewriting to look like redirecting. -/
def Ask.Tame (rp : RewritePolicy) (k : Kernel) : Ask → Prop
  | .call c => c.tied = false ∧ ∀ a ∈ c.args, LdPreload.Tame rp k a
  | .onFd _ => True
  | .getcwd buf size => ∃ b, buf = some b ∧ Named rp k.cwd b size

/-- What it may ask for, for its directories to stay in front of the real ones. -/
def Ask.Settled (rp : RewritePolicy) (k : Kernel) : Ask → Prop
  | .call c => c.Settled rp k
  | .onFd _ | .getcwd .. => True

namespace Process

variable {σ ρ : Type} {fs : FileSystem σ ρ} {env : Environ} {rp : RewritePolicy} {lib : Library}
  {p : Process σ}

/-- The process with the directories that stand behind its own. -/
def map (g : Dir → Dir) (p : Process σ) : Process σ := ⟨p.files, p.kernel.map g⟩

/-- What is done behind the directories of a process is done to the redirected
    file system. -/
theorem call_map {c c' : Call} (hshape : c'.shape = c.shape) (huntied : c.tied = false)
    (htargets : (p.kernel.map rp.behind).targets c' =
      (p.kernel.targets c).map (Target.map rp.behind)) (hsettled : c.Settled rp p.kernel) :
    (p.map rp.behind).call fs c' =
      ((p.call (fs.through rp.behind) c).1.map rp.behind,
        (p.call (fs.through rp.behind) c).2) := by
  have hafter : ∀ effect : Effect, effect.Of c.shape →
      (p.kernel.map rp.behind).after ((p.kernel.targets c).map (Target.map rp.behind)) effect =
        (p.kernel.after (p.kernel.targets c) effect).map rp.behind := by
    intro effect hof
    apply Kernel.after_behind
    -- only a rename moves directories
    intro hmoves
    have hrenames := hmoves.renames hof
    rw [Call.shape, Call.renames_mapArgs] at hrenames
    obtain ⟨hplaces, hdirs⟩ := hsettled hrenames
    refine ⟨fun t ht place hplace => ?_, hdirs⟩
    rw [Kernel.targets_of_untied _ huntied] at ht
    obtain ⟨a, ha, rfl⟩ := List.mem_map.mp ht
    rw [Kernel.place_target] at hplace
    exact hplaces a ha place hplace
  unfold call map
  simp only [hshape, htargets, FileSystem.through, hafter _ (fs.effect_of ..)]

/-- A call may be handed on with other paths, if these lead behind what its own
    lead to. -/
theorem handed_on_map {f : PathArg → PathArg} (hf : Call.KeepsCwd f) {c : Call}
    (huntied : c.tied = false) (hsettled : c.Settled rp p.kernel)
    (htarget : ∀ a ∈ c.args,
      (p.kernel.map rp.behind).target (f a) = (p.kernel.target a).map rp.behind) :
    (p.map rp.behind).call fs (c.effective.mapArgs f) =
      ((p.call (fs.through rp.behind) c.effective).1.map rp.behind,
        (p.call (fs.through rp.behind) c.effective).2) := by
  have huntied' : c.effective.tied = false := by rw [Call.tied_effective, huntied]
  refine call_map (Call.shape_mapArgs f _) huntied' ?_ (Call.settled_effective.mpr hsettled)
  rw [Kernel.targets_handed_on _ hf huntied, Kernel.targets_of_untied _ huntied',
    Call.args_effective, List.map_map]
  exact List.map_congr_left htarget

theorem onFd_map (g : Dir → Dir) (c : FdCall) :
    (p.map g).onFd fs c =
      ((p.onFd (fs.through g) c).1.map g, (p.onFd (fs.through g) c).2) := rfl

section Getcwd

variable {buf : CharArray} {size : Nat}

theorem interposed_getcwd_of_refused (hlib : lib.Backs) (h : ¬ p.kernel.cwd.text.length < size) :
    p.interposed fs lib rp (.getcwd (some buf) size) = (p, .cwd none) := by
  have hget : (lib.libc p.kernel).getcwd size = none := by
    rw [Option.eq_none_iff_forall_ne_some]
    intro s hs
    obtain rfl := (hlib p.kernel).getcwd_eq hs
    exact h ((lib.libc p.kernel).getcwd_lt hs)
  exact interposed_getcwd (eval_getcwd_of_refused hget)

theorem interposed_getcwd_virtual {m : Mapping} (hlib : lib.Backs) (hcap : size ≤ buf.cap)
    (hn : p.kernel.cwd.text.length < size)
    (hshort : ∀ t, substituted m.dst.text m.src.text p.kernel.cwd.text size = some t →
      t.length < pathMax) :
    p.interposed fs lib m.policy (.getcwd (some buf) size) =
      (p, .cwd (some (m.virtual p.kernel.cwd size))) := by
  have hserves := (hlib p.kernel).toServes
  obtain ⟨buf', heval, hname⟩ := m.eval_getcwd_virtual buf
    hserves.resolves_getcwd (hserves.getcwd_of_lt hn) hcap hshort
  rw [interposed_getcwd heval, CwdReply.told, hname]

end Getcwd

/-- One ask: behind the interposer it is answered, and has the effect that it
    has, with its places redirected from FROM to TO. -/
theorem interposed_map (hinit : initRewritePolicy env = .ok rp)
    (henabled : rp.enabled = true) (hfrom : endsInSlash rp.fromPath = false)
    (hto : endsInSlash rp.toPath = false) (hunrelated : Unrelated rp.fromDirs rp.toDirs)
    (hlib : lib.Backs) {ask : Ask} (htame : ask.Tame rp p.kernel)
    (hsettled : ask.Settled rp p.kernel) (hpresent : ask.Present lib) :
    (p.map rp.behind).interposed fs lib rp ask =
      ((p.plain (fs.through rp.behind) ask).1.map rp.behind,
        (p.plain (fs.through rp.behind) ask).2) := by
  cases ask with
  | call c =>
    obtain ⟨huntied, hargs⟩ := htame
    obtain ⟨f, hf⟩ := exists_follows hinit (lib.libc (p.kernel.map rp.behind))
    rw [interposed_call hf hpresent]
    refine handed_on_map hf.keepsCwd huntied hsettled fun a ha => ?_
    exact hf.target_forward hinit henabled hfrom hto hunrelated (hlib _) (hargs a ha)
  | onFd c =>
    rw [interposed_onFd hpresent]
    exact onFd_map rp.behind c
  | getcwd buf size =>
    obtain ⟨m, rfl, -⟩ := exists_mapping hinit henabled
    obtain ⟨b, rfl, hcap, hout, hlen, hbehind, hroom⟩ := htame
    have hcwd : (p.map m.policy.behind).kernel.cwd = m.policy.behind p.kernel.cwd := rfl
    by_cases hn : p.kernel.cwd.text.length < size
    · have hvirtual := m.virtual_behind hfrom hto (m.toDirs_policy ▸ hout) hlen hbehind hn
      rw [interposed_getcwd_virtual (p := p.map m.policy.behind) hlib hcap (hcwd ▸ hroom.mp hn),
        hcwd, hvirtual, plain, Kernel.tellCwd, if_pos hn, if_pos (by omega)]
      intro t ht
      rw [hcwd] at ht
      rw [Mapping.virtual, ht, Option.getD_some] at hvirtual
      rw [hvirtual]
      exact hlen
    · rw [interposed_getcwd_of_refused (p := p.map m.policy.behind) hlib
        fun h => hn (hroom.mpr (hcwd ▸ h)), plain, Kernel.tellCwd, if_neg hn]

end Process

/-- To a program, the places at FROM are those at TO: in a whole run it gets
    the answers that it gets on the redirected file system, and does there what
    it does behind the redirection. -/
theorem redirected_of_run (env : Environ) (rp : RewritePolicy)
    (hinit : initRewritePolicy env = .ok rp)
    (henabled : rp.enabled = true) (hfrom : endsInSlash rp.fromPath = false)
    (hto : endsInSlash rp.toPath = false) (hunrelated : Unrelated rp.fromDirs rp.toDirs)
    {σ ρ : Type} (fs : FileSystem σ ρ) (lib : Library) (hlib : lib.Backs) (p : Process σ)
    (asks : List Ask)
    (htame : Service.Meets (Process.plain (fs.through rp.behind))
      (fun p ask => ask.Tame rp p.kernel ∧ ask.Settled rp p.kernel ∧ ask.Present lib) p asks) :
    Service.run (Process.interposed fs lib rp) (p.map rp.behind) asks =
      ((Service.run (Process.plain (fs.through rp.behind)) p asks).1.map rp.behind,
        (Service.run (Process.plain (fs.through rp.behind)) p asks).2) := by
  have hrun := Service.run_rel (Process.plain (fs.through rp.behind)) (Process.interposed fs lib rp)
    (fun p q => q = p.map rp.behind) (fun p _ ask hq htame => by
      obtain ⟨htame, hsettled, hpresent⟩ := htame
      rw [hq, Process.interposed_map hinit henabled hfrom hto hunrelated hlib htame hsettled
        hpresent]
      exact ⟨rfl, rfl⟩) rfl htame
  exact Prod.ext hrun.1 hrun.2.symm

/-- How often a file system was asked, place by place and descriptor by
    descriptor. -/
structure Counts where
  places : Dir → Nat
  fds : Int32 → Nat

/-- The descriptor of a call that takes no path. -/
def FdCall.descriptor : FdCall → Int32
  | .__fxstat _ fd _ | .fstat fd _ | .lseek fd _ _ | .pread fd _ _ _ | .pwrite fd _ _ _
  | .read fd _ _ | .write fd _ _ => fd

/-- A file system that answers how often it was asked. -/
def FileSystem.counting : FileSystem Counts Nat where
  act s c targets :=
    match targets.head?.bind Target.place with
    | some d =>
      ({ s with places := Function.update s.places d (s.places d + 1) },
        match c with
        | .chdir _ => .enter
        | .openat .. => .install 3
        | .rename .. => .move
        | _ => .keep,
        s.places d)
    | none => (s, .keep, 0)
  actFd s c :=
    ({ s with fds := Function.update s.fds c.descriptor (s.fds c.descriptor + 1) },
      s.fds c.descriptor)
  effect_of := by
    intro s c targets
    cases targets.head?.bind Target.place with
    | none => trivial
    | some d =>
      cases c with
      | chdir | rename => rfl
      | openat => exact (by decide : Symbol.openat ∈ [.creat, .open, .openat, .openat2])
      | _ => trivial

/-- A process in `d` that has asked for nothing yet. -/
def Process.fresh (d : Dir) : Process Counts := ⟨⟨fun _ => 0, fun _ => 0⟩, ⟨d, []⟩⟩

/-- The directories `/a/x` and `/a/y`. -/
def Dir.ax : Dir := ⟨[[97], [120]], by decide, by decide⟩

def Dir.ay : Dir := ⟨[[97], [121]], by decide, by decide⟩

/-- `chdir ("/a/x")`, `rename ("/a/x", "/a/y")`, `getcwd`,
    `openat (AT_FDCWD, "z")` and `fstat`. -/
theorem redirected_a :
    let ax : Option CString := some (.ofAscii ['/', 'a', '/', 'x'])
    let ay : Option CString := some (.ofAscii ['/', 'a', '/', 'y'])
    let asks : List Ask := [.call (.chdir ax), .call (.rename ax ay),
      .getcwd (some (.uninit 5)) 5, .call (.openat atFdcwd (some (.ofAscii ['z'])) 0 0),
      .onFd (.fstat 3 0)]
    let p : Process Counts := .fresh .root
    let redirected := Process.plain (FileSystem.counting.through RewritePolicy.aToB.behind)
    Service.run (Process.interposed .counting .faithful .aToB) (p.map RewritePolicy.aToB.behind)
        asks =
      ((Service.run redirected p asks).1.map RewritePolicy.aToB.behind,
        (Service.run redirected p asks).2) := by
  intro ax ay asks p redirected
  have hax : ∀ k, Tame .aToB k ⟨true, atFdcwd, ax⟩ := fun _ =>
    .of_absolute rfl rfl (by decide) rfl (by decide)
  have hay : ∀ k, Tame .aToB k ⟨true, atFdcwd, ay⟩ := fun _ =>
    .of_absolute rfl rfl (by decide) rfl (by decide)
  have hx : Dir.root.follow (.ofAscii ['/', 'a', '/', 'x']) = .ax := Dir.ext_names (by decide)
  have hy : Dir.root.follow (.ofAscii ['/', 'a', '/', 'y']) = .ay := Dir.ext_names (by decide)
  have hmoved : Dir.moved .ax .ay .ax = .ay := Dir.ext_names (by decide)
  have hapart : RewritePolicy.aToB.Apart .ax ∧ RewritePolicy.aToB.Apart .ay :=
    ⟨⟨by decide, by decide, by decide⟩, by decide, by decide, by decide⟩
  have hsettled : (Call.rename ax ay).Settled .aToB ⟨.ax, []⟩ := by
    refine fun _ => ⟨fun a ha place hplace => ?_, fun d hd => ?_⟩
    · rcases List.mem_pair.mp ha with rfl | rfl
      · obtain rfl := Option.some.inj hplace
        rw [hx]
        exact hapart.1
      · obtain rfl := Option.some.inj hplace
        rw [hy]
        exact hapart.2
    · rw [List.mem_singleton.mp hd]
      decide
  have hopenat : Tame .aToB ⟨.ay, []⟩ ⟨true, atFdcwd, some (.ofAscii ['z'])⟩ := by
    refine ⟨?_, fun _ _ _ hout => absurd ⟨rfl, .ay, rfl, by decide⟩ hout, ?_⟩
    · rintro path hpath
      obtain rfl := Option.some.inj hpath
      decide
    · rintro path dir hpath - hdir -
      obtain rfl := Option.some.inj hpath
      obtain rfl := Option.some.inj hdir
      decide
  apply redirected_of_run .aToB .aToB init_aToB rfl rfl rfl ⟨by decide, by decide⟩
  · exact Library.backs_faithful
  · refine ⟨⟨⟨rfl, ?_⟩, nofun, rfl⟩, ⟨⟨rfl, ?_⟩, ?_, rfl⟩, ⟨?_, trivial, trivial⟩,
      ⟨⟨rfl, ?_⟩, nofun, rfl⟩, ⟨trivial, trivial, rfl⟩, trivial⟩
    · intro a ha
      obtain rfl := List.mem_singleton.mp ha
      exact hax _
    · intro a ha
      rcases List.mem_pair.mp ha with rfl | rfl
      · exact hax _
      · exact hay _
    · show (Call.rename ax ay).Settled .aToB ⟨Dir.root.follow _, []⟩
      rw [hx]
      exact hsettled
    · show ∃ b, _ ∧ Named .aToB (Dir.moved (Dir.root.follow _) (Dir.root.follow _)
        (Dir.root.follow _)) b 5
      rw [hx, hy, hmoved]
      exact ⟨_, rfl, by decide, by decide, by decide, by decide, by decide⟩
    · intro a ha
      obtain rfl := List.mem_singleton.mp ha
      show Tame .aToB ⟨Dir.moved (Dir.root.follow _) (Dir.root.follow _)
        (Dir.root.follow _), []⟩ _
      rw [hx, hy, hmoved]
      exact hopenat

/-! ## Away from FROM -/

/-- What has nothing to do with FROM, or with TO in the name of the current
    directory. -/
def Ask.Away (rp : RewritePolicy) (k : Kernel) : Ask → Prop
  | .call c => rp.enabled = true → ∀ a ∈ c.args,
    (∀ path, a.path = some path → path.length < pathMax) ∧
      ∀ place, k.leads a = some place → ¬ rp.fromDirs <+: place.names
  | .onFd _ => True
  | .getcwd buf _ => rp.enabled = true → buf.isSome = true ∧ ¬ rp.toDirs <+: k.cwd.names

section Unnoticed

variable {σ ρ : Type} {fs : FileSystem σ ρ} {env : Environ} {rp : RewritePolicy} {lib : Library}
  {p : Process σ}

/-- Where the array is filled with the directory's own name whenever there is
    room, `getcwd` tells what the real one tells. -/
theorem Process.interposed_getcwd_of_own (hlib : lib.Backs) {buf : CharArray} {size : Nat}
    (hown : (lib.libc p.kernel).getcwd size = some p.kernel.cwd.text →
      p.kernel.cwd.text.length < buf.cap →
        ∃ buf', eval (lib.libc p.kernel) rp (LdPreload.getcwd (some buf) size) =
          .ok (.caller buf') ∧ buf'.string = .ok p.kernel.cwd.text) :
    p.interposed fs lib rp (.getcwd (some buf) size) =
      (p, p.kernel.tellCwd (some buf) size) := by
  have hserves := (hlib p.kernel).toServes
  rw [Kernel.tellCwd]
  by_cases hn : p.kernel.cwd.text.length < size
  · have hget := hserves.getcwd_of_lt hn
    rw [if_pos hn]
    by_cases hroom : p.kernel.cwd.text.length < buf.cap
    · obtain ⟨buf', heval, hname⟩ := hown hget hroom
      rw [if_pos hroom, interposed_getcwd heval, CwdReply.told, hname]
    · rw [if_neg hroom, interposed_getcwd_of_error
        (eval_getcwd_of_small hserves.resolves_getcwd hget (Nat.le_of_not_lt hroom))]
  · rw [if_neg hn, interposed_getcwd_of_refused hlib hn]

/-- Under a policy, a directory outside of TO has its own name. -/
theorem Process.interposed_getcwd_of_outside (hinit : initRewritePolicy env = .ok rp)
    (henabled : rp.enabled = true) (hlib : lib.Backs) (hout : ¬ rp.toDirs <+: p.kernel.cwd.names)
    (buf : CharArray) (size : Nat) :
    p.interposed fs lib rp (.getcwd (some buf) size) =
      (p, p.kernel.tellCwd (some buf) size) := by
  obtain ⟨m, rfl, -⟩ := exists_mapping hinit henabled
  refine interposed_getcwd_of_own hlib fun hget hroom => ?_
  exact eval_getcwd_of_none m (hlib p.kernel).resolves_getcwd hget hroom
    (Mapping.substituted_of_outside (m.toDirs_policy ▸ hout) size)

/-- Without a policy, every directory has, in any array or in none. -/
theorem Process.interposed_getcwd_of_disabled (hdisabled : rp.enabled = false) (hlib : lib.Backs)
    (buf : Option CharArray) (size : Nat) :
    p.interposed fs lib rp (.getcwd buf size) = (p, p.kernel.tellCwd buf size) := by
  have hbacks := hlib p.kernel
  cases buf with
  | some buf =>
    refine interposed_getcwd_of_own hlib fun hget hroom => ?_
    obtain ⟨buf', heval, -, hname⟩ := eval_origGetcwd (k := rp) hbacks.resolves_getcwd hget hroom
    rw [← eval_getcwd_of_disabled _ hdisabled] at heval
    exact ⟨buf', heval, hname⟩
  | none =>
    have horig := hbacks.getcwdAlloc_eq size
    have heval := eval_getcwd_of_disabled (lib.libc p.kernel) hdisabled none size
    rw [origGetcwd, eval_bind_ok eval_look] at heval
    simp only [hbacks.resolves_getcwd, Bool.not_true, Bool.false_eq_true, if_false] at heval
    rw [Kernel.tellCwd]
    by_cases hfits : size = 0 ∨ p.kernel.cwd.text.length < size
    · rw [if_pos hfits] at horig ⊢
      simp only [horig] at heval
      exact interposed_getcwd heval
    · rw [if_neg hfits] at horig ⊢
      simp only [horig] at heval
      exact interposed_getcwd heval

/-- Away from FROM the interposer makes no difference. -/
theorem Process.interposed_of_away (hinit : initRewritePolicy env = .ok rp)
    (hlib : lib.Backs) {ask : Ask} (haway : ask.Away rp p.kernel) (hpresent : ask.Present lib) :
    p.interposed fs lib rp ask = p.plain fs ask := by
  cases ask with
  | call c =>
    obtain ⟨f, hf⟩ := exists_follows hinit (lib.libc p.kernel)
    rw [interposed_call hf hpresent, Call.mapArgs_of_fixed, plain]
    intro a ha
    rw [Call.args_effective] at ha
    apply hf.skipped
    cases henabled : rp.enabled with
    | false => exact fun s t hs ht happlies => absurd (henabled.symm.trans happlies.1) (by decide)
    | true =>
      obtain ⟨hshort, hout⟩ := haway henabled a ha
      exact rp.skips_of_away hinit (hlib _) hshort hout
  | onFd c => exact interposed_onFd hpresent
  | getcwd buf size =>
    cases henabled : rp.enabled with
    | false => exact interposed_getcwd_of_disabled henabled hlib buf size
    | true =>
      obtain ⟨hbuf, hout⟩ := haway henabled
      obtain ⟨buf, rfl⟩ := Option.isSome_iff_exists.mp hbuf
      exact interposed_getcwd_of_outside hinit henabled hlib hout buf size

end Unnoticed

/-- A program that stays away from FROM does not notice the interposer. -/
theorem unnoticed_of_run (env : Environ) (rp : RewritePolicy)
    (hinit : initRewritePolicy env = .ok rp) {σ ρ : Type} (fs : FileSystem σ ρ) (lib : Library)
    (hlib : lib.Backs) (p : Process σ) (asks : List Ask)
    (haway : Service.Meets (Process.plain fs)
      (fun p ask => ask.Away rp p.kernel ∧ ask.Present lib) p asks) :
    Service.run (Process.interposed fs lib rp) p asks = Service.run (Process.plain fs) p asks := by
  have hrun := Service.run_rel (Process.plain fs) (Process.interposed fs lib rp)
    (fun p q => q = p) (fun p _ ask hq haway => by
      rw [hq, Process.interposed_of_away hinit hlib haway.1 haway.2]
      exact ⟨rfl, rfl⟩) rfl haway
  exact Prod.ext hrun.1 hrun.2.symm

/-- In `/c`, `mkdir ("/x", 0)`, `rename ("/c", "/d")`,
    `openat2 (AT_FDCWD, "/x")` with the current directory as its root, and
    `getcwd`, with an array of three bytes that is said to have four. -/
theorem unnoticed_c :
    let x : CString := .ofAscii ['/', 'x']
    let c : CString := .ofAscii ['/', 'c']
    let d : CString := .ofAscii ['/', 'd']
    let asks : List Ask := [.call (.mkdir (some x) 0), .call (.rename (some c) (some d)),
      .call (.openat2 atFdcwd (some x) (some ⟨0, 0, 0x10⟩) 24), .getcwd (some (.uninit 3)) 4]
    let p : Process Counts := .fresh .c
    Service.run (Process.interposed .counting .faithful .aToB) p asks =
      Service.run (Process.plain .counting) p asks := by
  intro x c d asks p
  have haway : ∀ (k : Kernel) (r : Bool) (path : CString), path ∈ [x, c, d] →
      (∀ path', some path = some path' → path'.length < pathMax) ∧
        ∀ place, k.leads ⟨r, atFdcwd, some path⟩ = some place →
          ¬ RewritePolicy.aToB.fromDirs <+: place.names := by
    intro k r path hpath
    simp only [List.mem_cons, List.not_mem_nil, or_false] at hpath
    rcases hpath with rfl | rfl | rfl <;>
    · refine ⟨fun path' hpath' => ?_, fun place hplace => ?_⟩
      · obtain rfl := Option.some.inj hpath'
        decide
      · obtain rfl := Option.some.inj hplace
        decide
  apply unnoticed_of_run .aToB .aToB init_aToB
  · exact Library.backs_faithful
  · refine ⟨⟨fun _ a ha => ?_, rfl⟩, ⟨fun _ a ha => ?_, rfl⟩, ⟨fun _ a ha => ?_, rfl⟩,
      ⟨fun _ => ⟨rfl, by decide⟩, trivial⟩, trivial⟩
    · obtain rfl := List.mem_singleton.mp ha
      exact haway _ false x (by simp)
    · rcases List.mem_pair.mp ha with rfl | rfl
      · exact haway _ true c (by simp)
      · exact haway _ true d (by simp)
    · obtain rfl := List.mem_singleton.mp ha
      exact haway _ true x (by simp)

/-! ## What is at FROM -/

/-- What the interposer follows. -/
def Ask.Followed (rp : RewritePolicy) (k : Kernel) : Ask → Prop
  | .call c => c.Followed rp k
  | .onFd _ | .getcwd .. => True

/-- Two file systems of which one cannot tell which one it is, by calls that
    are clear of FROM, and by what such calls have opened. -/
structure AgreeOutside {σ τ ρ : Type} (fs : FileSystem σ ρ) (fs' : FileSystem τ ρ)
    (R : σ → τ → Prop) (rp : RewritePolicy) : Prop where
  act : ∀ {s t c targets}, R s t → c.Clear rp targets →
    R (fs.act s c targets).1 (fs'.act t c targets).1 ∧
      (fs.act s c targets).2 = (fs'.act t c targets).2
  actFd : ∀ {s t} c, R s t →
    R (fs.actFd s c).1 (fs'.actFd t c).1 ∧ (fs.actFd s c).2 = (fs'.actFd t c).2

/-- The processes have the same directories, none of them in FROM, and file
    systems that agree. -/
structure SameOutside {σ τ : Type} (R : σ → τ → Prop) (rp : RewritePolicy) (p : Process σ)
    (q : Process τ) : Prop where
  kernel : p.kernel = q.kernel
  files : R p.files q.files
  shadowed : Shadowed rp p.kernel

section Untouched

variable {σ τ ρ : Type} {fs : FileSystem σ ρ} {fs' : FileSystem τ ρ} {R : σ → τ → Prop}
  {env : Environ} {rp : RewritePolicy} {lib : Library} {p : Process σ} {q : Process τ}

theorem SameOutside.call (h : SameOutside R rp p q) (hagree : AgreeOutside fs fs' R rp) {c : Call}
    (hclear : c.Clear rp (p.kernel.targets c)) :
    SameOutside R rp (p.call fs c).1 (q.call fs' c).1 ∧ (p.call fs c).2 = (q.call fs' c).2 := by
  have hshape : c.shape.Clear rp (p.kernel.targets c) := by
    rwa [Call.Clear, Call.shape, Call.renames_mapArgs]
  obtain ⟨hfiles, hsame⟩ := hagree.act h.files hshape
  refine ⟨⟨?_, ?_, ?_⟩, ?_⟩
  · unfold Process.call
    simp only [← h.kernel, hsame]
  · unfold Process.call
    simp only [← h.kernel]
    exact hfiles
  · exact h.shadowed.after hshape (fs.effect_of p.files c.shape (p.kernel.targets c))
  · unfold Process.call
    simp only [← h.kernel, hsame]

theorem SameOutside.onFd (h : SameOutside R rp p q) (hagree : AgreeOutside fs fs' R rp)
    (c : FdCall) :
    SameOutside R rp (p.onFd fs c).1 (q.onFd fs' c).1 ∧ (p.onFd fs c).2 = (q.onFd fs' c).2 := by
  obtain ⟨hfiles, hsame⟩ := hagree.actFd c h.files
  exact ⟨⟨h.kernel, hfiles, h.shadowed⟩, congrArg Told.done hsame⟩

/-- One ask, of two processes that differ at FROM only. -/
theorem SameOutside.interposed (h : SameOutside R rp p q) (hagree : AgreeOutside fs fs' R rp)
    (hinit : initRewritePolicy env = .ok rp) (henabled : rp.enabled = true)
    (hfrom : endsInSlash rp.fromPath = false) (hunrelated : Unrelated rp.fromDirs rp.toDirs)
    (hlib : lib.Backs) {ask : Ask} (hfollowed : ask.Followed rp p.kernel)
    (hpresent : ask.Present lib) :
    SameOutside R rp (p.interposed fs lib rp ask).1 (q.interposed fs' lib rp ask).1 ∧
      (p.interposed fs lib rp ask).2 = (q.interposed fs' lib rp ask).2 := by
  cases ask with
  | call c =>
    obtain ⟨f, hf⟩ := exists_follows hinit (lib.libc p.kernel)
    rw [Process.interposed_call hf hpresent, Process.interposed_call (h.kernel ▸ hf) hpresent]
    apply h.call hagree
    intro t ht d hd
    rw [Kernel.targets_handed_on _ hf.keepsCwd hfollowed.untied] at ht
    obtain ⟨a, ha, rfl⟩ := List.mem_map.mp ht
    rw [Kernel.place_target] at hd
    rw [Call.renames_mapArgs, Call.renames_effective]
    exact hf.clear_of_leads hinit henabled hfrom hunrelated (hlib _).toServes hfollowed ha hd
  | onFd c =>
    rw [Process.interposed_onFd hpresent, Process.interposed_onFd hpresent]
    exact h.onFd hagree c
  | getcwd buf size =>
    cases heval : eval (lib.libc p.kernel) rp (LdPreload.getcwd buf size) with
    | ok reply =>
      rw [Process.interposed_getcwd heval, Process.interposed_getcwd (h.kernel ▸ heval)]
      exact ⟨h, rfl⟩
    | error e =>
      rw [Process.interposed_getcwd_of_error heval,
        Process.interposed_getcwd_of_error (h.kernel ▸ heval)]
      exact ⟨h, rfl⟩

end Untouched

/-- Of what there is at FROM a program sees nothing, and it leaves it alone. -/
theorem untouched_of_run (env : Environ) (rp : RewritePolicy)
    (hinit : initRewritePolicy env = .ok rp) (henabled : rp.enabled = true)
    (hfrom : endsInSlash rp.fromPath = false) (hunrelated : Unrelated rp.fromDirs rp.toDirs)
    {σ τ ρ : Type} (fs : FileSystem σ ρ) (fs' : FileSystem τ ρ) (R : σ → τ → Prop)
    (hagree : AgreeOutside fs fs' R rp) (lib : Library) (hlib : lib.Backs) (p : Process σ)
    (q : Process τ) (h : SameOutside R rp p q) (asks : List Ask)
    (hfollowed : Service.Meets (Process.interposed fs lib rp)
      (fun p ask => ask.Followed rp p.kernel ∧ ask.Present lib) p asks) :
    SameOutside R rp (Service.run (Process.interposed fs lib rp) p asks).1
        (Service.run (Process.interposed fs' lib rp) q asks).1 ∧
      (Service.run (Process.interposed fs lib rp) p asks).2 =
        (Service.run (Process.interposed fs' lib rp) q asks).2 :=
  Service.run_rel _ _ (SameOutside R rp)
    (fun _ _ _ h hfollowed =>
      h.interposed hagree hinit henabled hfrom hunrelated hlib hfollowed.1 hfollowed.2) h hfollowed

/-- Counts that are the same outside of FROM, and for all descriptors. -/
structure Counts.Agree (rp : RewritePolicy) (s t : Counts) : Prop where
  places : ∀ d : Dir, ¬ rp.fromDirs <+: d.names → s.places d = t.places d
  fds : s.fds = t.fds

theorem agreeOutside_counting (rp : RewritePolicy) :
    AgreeOutside FileSystem.counting FileSystem.counting (Counts.Agree rp) rp where
  act := by
    intro s t c targets h hclear
    cases hhead : targets.head?.bind Target.place with
    | none =>
      simp only [FileSystem.counting, hhead]
      exact ⟨h, trivial⟩
    | some d =>
      obtain ⟨target, htarget, hplace⟩ := Option.bind_eq_some_iff.mp hhead
      have hsame := h.places d (hclear target (List.mem_of_mem_head? htarget) d hplace).1
      simp only [FileSystem.counting, hhead, hsame]
      refine ⟨⟨fun d' hd' => ?_, h.fds⟩, trivial⟩
      show Function.update s.places d _ d' = Function.update t.places d _ d'
      by_cases heq : d' = d
      · rw [heq, Function.update_self, Function.update_self]
      · rw [Function.update_of_ne heq, Function.update_of_ne heq, h.places d' hd']
  actFd := by
    intro s t c h
    simp only [FileSystem.counting, h.fds]
    exact ⟨⟨h.places, rfl⟩, trivial⟩

/-- `chdir ("/a")`, `stat ("/a/x")`, `rename ("/b", "/c")`, which moves the
    current directory, `getcwd` and `fstat`, once with nothing at `/a` and once
    with a tree there that has been visited. -/
theorem untouched_a :
    let a : CString := .ofAscii ['/', 'a']
    let ax : CString := .ofAscii ['/', 'a', '/', 'x']
    let b : CString := .ofAscii ['/', 'b']
    let c : CString := .ofAscii ['/', 'c']
    let asks : List Ask := [.call (.chdir (some a)), .call (.stat (some ax) 0),
      .call (.rename (some b) (some c)), .getcwd (some (.uninit 4)) 4, .onFd (.fstat 3 0)]
    let p : Process Counts := .fresh .root
    let q : Process Counts :=
      { p with files := { p.files with places := fun d => if .a = d then 7 else 0 } }
    let run := Service.run (Process.interposed .counting .faithful .aToB)
    SameOutside (Counts.Agree .aToB) .aToB (run p asks).1 (run q asks).1 ∧
      (run p asks).2 = (run q asks).2 := by
  intro a ax b c asks p q run
  have hroomy : ∀ {k : Kernel} {relative : Bool} {path : CString}, path ∈ [a, ax, b, c] →
      Roomy .aToB k ⟨relative, atFdcwd, some path⟩ := by
    intro k relative path hpath
    simp only [List.mem_cons, List.not_mem_nil, or_false] at hpath
    rcases hpath with rfl | rfl | rfl | rfl <;>
    · exact .of_absolute rfl rfl (by decide) (by decide)
  have hstart : SameOutside (Counts.Agree .aToB) .aToB p q := by
    refine ⟨rfl, ⟨fun d hd => ?_, rfl⟩, fun dir hdir => ?_⟩
    · refine (if_neg ?_).symm
      rintro rfl
      exact hd (by decide)
    · rw [List.mem_singleton.mp hdir]
      decide
  apply untouched_of_run .aToB .aToB init_aToB rfl rfl ⟨by decide, by decide⟩ _ _ _
    (agreeOutside_counting .aToB) _ Library.backs_faithful p q hstart
  refine ⟨⟨⟨rfl, fun a' ha' => ?_, nofun⟩, rfl⟩, ⟨⟨rfl, fun a' ha' => ?_, nofun⟩, rfl⟩,
    ⟨⟨rfl, fun a' ha' => ?_, fun _ a' ha' place hplace => ?_⟩, rfl⟩, ⟨trivial, trivial⟩,
    ⟨trivial, rfl⟩, trivial⟩
  · obtain rfl := List.mem_singleton.mp ha'
    exact hroomy (by simp)
  · obtain rfl := List.mem_singleton.mp ha'
    exact hroomy (by simp)
  · rcases List.mem_pair.mp ha' with rfl | rfl
    · exact hroomy (by simp)
    · exact hroomy (by simp)
  · rcases List.mem_pair.mp ha' with rfl | rfl <;>
    · obtain rfl := Option.some.inj hplace
      intro habove
      exact absurd habove (by decide)

end LdPreload
