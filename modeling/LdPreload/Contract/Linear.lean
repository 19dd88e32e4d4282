/-
  LdPreload.Contract.Linear

  Threads in front of TO.  Calls that overlap are carried out one after the
  other, and in this order they are what a process without the interposer and
  without threads asks of the file system that is redirected from FROM to TO:
  every interleaving has the answers and the end of that one run
  (`linear_of_run`), as long as the directories that a call on its way starts
  from stay what they are to the program.
-/

import LdPreload.Contract.Atomic

namespace LdPreload

open CMem Lexical Once

/-! ## One answer -/

theorem Ask.entry_injective : Function.Injective Ask.entry := by
  intro ask ask' h
  cases ask with
  | call c =>
    cases ask' with
    | call c' => exact congrArg _ (by simpa [entry] using h)
    | onFd | getcwd => exact absurd h (by simp [entry])
  | onFd c =>
    cases ask' with
    | onFd c' => exact congrArg _ (by simpa [entry] using h)
    | call | getcwd => exact absurd h (by simp [entry])
  | getcwd buf size =>
    cases ask' with
    | getcwd buf' size' =>
      obtain ⟨rfl, rfl⟩ := Request.getcwd.inj (Entry.request.inj h)
      rfl
    | call | onFd => exact absurd h (by simp [entry])

/-- The directories that an ask starts from are the same. -/
def Ask.StartsAlike (k k' : Kernel) : Ask → Prop
  | .call c => ∀ a ∈ c.args, a.path.any isAbsolute = false → k.dirOf a.dirfd = k'.dirOf a.dirfd
  | .onFd _ => True
  | .getcwd .. => k.cwd = k'.cwd

theorem Ask.StartsAlike.trans {k k' k'' : Kernel} {ask : Ask} (h : ask.StartsAlike k k')
    (h' : ask.StartsAlike k' k'') : ask.StartsAlike k k'' := by
  cases ask with
  | call c => exact fun a ha hrel => (h a ha hrel).trans (h' a ha hrel)
  | onFd c => trivial
  | getcwd buf size => exact Eq.trans h h'

theorem Ask.startsAlike_self (k : Kernel) (ask : Ask) : ask.StartsAlike k k := by
  cases ask with
  | call c => exact fun _ _ _ => rfl
  | onFd c => trivial
  | getcwd buf size => exact Eq.refl k.cwd

section

variable {env : Environ} {rp : RewritePolicy} {lib : Library} {f : PathArg → PathArg}
  {k k₀ : Kernel} {a : PathArg}

/-- What was handed on from the directories behind `k₀`, is resolved from those
    behind `k` to what stands behind the place that it means there. -/
theorem Follows.target_later (hf : Follows (lib.libc (k₀.map rp.behind)) rp f)
    (hinit : initRewritePolicy env = .ok rp) (henabled : rp.enabled = true)
    (hfrom : endsInSlash rp.fromPath = false) (hto : endsInSlash rp.toPath = false)
    (hunrelated : Unrelated rp.fromDirs rp.toDirs) (hlib : lib.Backs) (ha : Tame rp k₀ a)
    (hstarts : a.path.any isAbsolute = false → k₀.dirOf a.dirfd = k.dirOf a.dirfd) :
    (k.map rp.behind).target (f a) = (k.target a).map rp.behind := by
  have hbehind : a.path.any isAbsolute = false →
      (k₀.map rp.behind).dirOf a.dirfd = (k.map rp.behind).dirOf a.dirfd := by
    intro hrel
    rw [Kernel.dirOf_map, Kernel.dirOf_map, hstarts hrel]
  rw [← hf.target_congr hbehind, ← Kernel.target_congr hstarts]
  exact hf.target_forward hinit henabled hfrom hto hunrelated (hlib _) ha

/-- The directories that an ask has seen: those behind directories in which it
    was tame, and started from where it starts now. -/
def Ask.SeenBehind (rp : RewritePolicy) (ask : Ask) (k k' : Kernel) : Prop :=
  ∃ k₀ : Kernel, k = k₀.map rp.behind ∧ ask.Tame rp k₀ ∧ ask.StartsAlike k₀ k'

/-- An answer that is carried out later is the answer of the redirected file
    system. -/
theorem Process.carry_map {σ ρ : Type} {fs : FileSystem σ ρ} {p : Process σ}
    (hinit : initRewritePolicy env = .ok rp) (henabled : rp.enabled = true)
    (hfrom : endsInSlash rp.fromPath = false) (hto : endsInSlash rp.toPath = false)
    (hunrelated : Unrelated rp.fromDirs rp.toDirs) (hlib : lib.Backs) {ask : Ask} {answer : Answer}
    {ws : List World}
    (hseen : ∀ w ∈ ws, ∃ k : Kernel, w = lib.world k ∧ ask.SeenBehind rp k p.kernel)
    (hsettled : ask.Settled rp p.kernel) (hpresent : ask.Present lib)
    (hanswered : AnsweredAt lib.table rp ws ask.entry answer) :
    (p.map rp.behind).carry fs answer =
      ((p.plain (fs.through rp.behind) ask).1.map rp.behind,
        (p.plain (fs.through rp.behind) ask).2) := by
  cases ask with
  | call c =>
    cases hanswered with
    | call hc hw heval =>
      obtain ⟨k, rfl, k₀, rfl, ⟨huntied, htame⟩, hstarts⟩ := hseen _ hw
      obtain ⟨f, hf⟩ := exists_follows hinit (lib.libc (k₀.map rp.behind))
      have hforwarded := hf.forwarded_of_resolves (c := c) hpresent
      obtain rfl := Except.ok.inj (hforwarded.symm.trans heval)
      refine handed_on_map hf.keepsCwd huntied hsettled fun a ha => ?_
      exact hf.target_later hinit henabled hfrom hto hunrelated hlib (htame a ha) (hstarts a ha)
    | @twoPaths _ _ w₁ w₂ a b f g hc hargs hw₁ hw₂ hf hg ho =>
      obtain ⟨-, rfl, k₁, rfl, ⟨huntied, htame₁⟩, hstarts₁⟩ := hseen _ hw₁
      obtain ⟨-, rfl, k₂, rfl, ⟨-, htame₂⟩, hstarts₂⟩ := hseen _ hw₂
      have hresolves : (lib.libc (k₁.map rp.behind)).resolves
          (c.withPaths (f a) (g b)).symbol = true := by
        rw [Call.symbol_withPaths]
        exact hpresent
      obtain rfl := ho.trans (if_pos hresolves)
      have ha : a ∈ c.args := by simp [hargs]
      have hb : b ∈ c.args := by simp [hargs]
      have huntied' := Call.untied_of_takesTwo ((Call.takesTwo_withPaths (f a) (g b) c).trans hc)
      show (p.map rp.behind).call fs (c.withPaths (f a) (g b)) =
        ((p.call (fs.through rp.behind) c.effective).1.map rp.behind,
          (p.call (fs.through rp.behind) c.effective).2)
      rw [Call.effective_of_takesTwo hc]
      refine call_map (Call.shape_withPaths ..) huntied ?_ hsettled
      rw [Kernel.targets_of_untied _ huntied, Kernel.targets_of_untied _ huntied',
        Call.args_withPaths hf.keepsCwd hg.keepsCwd hc hargs, hargs]
      have hfirst := hf.target_later hinit henabled hfrom hto hunrelated hlib (htame₁ a ha)
        (hstarts₁ a ha)
      have hsecond := hg.target_later hinit henabled hfrom hto hunrelated hlib (htame₂ b hb)
        (hstarts₂ b hb)
      simp only [List.map_cons, List.map_nil, hfirst, hsecond]
  | onFd c =>
    cases hanswered with
    | onFd ho =>
      rw [ho, if_pos (show (lib.table (.fd c.symbol)).isSome = true from hpresent)]
      exact onFd_map rp.behind c
  | getcwd buf size =>
    cases hanswered with
    | getcwd hw heval =>
      obtain ⟨k, rfl, k₀, rfl, htame, hstarts⟩ := hseen _ hw
      -- the reply is that of a process in the directories that it has seen
      have hreal : (Process.map rp.behind ⟨p.files, k₀⟩).interposed fs lib rp (.getcwd buf size) =
          (_, _) := interposed_getcwd heval
      have hmeant : (Process.map rp.behind ⟨p.files, k₀⟩).interposed fs lib rp (.getcwd buf size) =
          (_, _) := interposed_map hinit henabled hfrom hto hunrelated hlib htame trivial trivial
      have htold := congrArg Prod.snd (hreal.symm.trans hmeant)
      have hcwd : k₀.cwd = p.kernel.cwd := hstarts
      have htell : k₀.tellCwd buf size = (p.kernel.tellCwd buf size : Told ρ) := by
        unfold Kernel.tellCwd
        rw [hcwd]
      simp only [plain, htell] at htold
      simp only [carry, plain, htold]

end

/-! ## Whole runs -/

namespace Served

variable {σ ρ : Type} (fs : FileSystem σ ρ) (rp : RewritePolicy) (p : Process σ)

/-- The run of a process `p` without the interposer, in front of the redirected
    file system, that asks the same. -/
def redirected (s : Served σ ρ) : Process σ × List (Told ρ) :=
  Service.run (Process.plain (fs.through rp.behind)) p (s.log.map Prod.fst)

/-- A process, in front of which only what is tame to the program goes on, and
    only what is settled to it is carried out. -/
def site (lib : Library) : Site (Served σ ρ) where
  kernel s := s.process.kernel
  admits s entry := ∃ ask : Ask, entry = ask.entry ∧ ask.Tame rp (s.redirected fs rp p).1.kernel
  carries s entry answer s' := ∃ ask : Ask, entry = ask.entry ∧ s' = s.carry fs ask answer ∧
    ask.Settled rp (s.redirected fs rp p).1.kernel ∧ ask.Present lib

/-- The directories that a call starts from stay what they are to the program. -/
def Keeps (entry : Entry) (s s' : Served σ ρ) : Prop :=
  ∀ ask : Ask, entry = ask.entry →
    ask.StartsAlike (s.redirected fs rp p).1.kernel (s'.redirected fs rp p).1.kernel

/-- So far, the process has done in front of TO what the other one did in front
    of the redirected file system. -/
structure Follows (s : Served σ ρ) : Prop where
  process : s.process = (s.redirected fs rp p).1.map rp.behind
  told : s.log.map Prod.snd = (s.redirected fs rp p).2

theorem redirected_carry (s : Served σ ρ) (ask : Ask) (answer : Answer) :
    (s.carry fs ask answer).redirected fs rp p =
      (((s.redirected fs rp p).1.plain (fs.through rp.behind) ask).1, (s.redirected fs rp p).2 ++
        [((s.redirected fs rp p).1.plain (fs.through rp.behind) ask).2]) := by
  rw [redirected, carry, List.map_append]
  exact Service.run_concat ..

end Served

/-- In every interleaving, the calls are answered as they are, in the order in
    which they are carried out, in front of the redirected file system. -/
theorem linear_of_run (env : Environ) (rp : RewritePolicy) (hinit : initRewritePolicy env = .ok rp)
    (henabled : rp.enabled = true) (hfrom : endsInSlash rp.fromPath = false)
    (hto : endsInSlash rp.toPath = false) (hunrelated : Unrelated rp.fromDirs rp.toDirs)
    {σ ρ : Type} (fs : FileSystem σ ρ) (lib : Library) (hlib : lib.Backs) (p : Process σ)
    (t : Threaded (Served σ ρ))
    (hrun : Threaded.Runs env lib (Served.site fs rp p lib) (Served.Keeps fs rp p)
      (.start ⟨p.map rp.behind, []⟩) t) :
    t.state.log.map (fun e => some e.1.entry) = t.carried.reverse.map (t.entries[·]?) ∧
      t.state.Follows fs rp p := by
  have hsite : ∀ s entry answer s', (Served.site fs rp p lib).carries s entry answer s' →
      ∃ ask : Ask, entry = ask.entry ∧ s' = s.carry fs ask answer := by
    rintro s entry answer s' ⟨ask, rfl, rfl, -⟩
    exact ⟨ask, rfl, rfl⟩
  refine ⟨Served.log_of_run rfl hsite hrun, ?_⟩
  apply Threaded.inv_of_run (fun k entry s =>
    ∃ ask : Ask, entry = ask.entry ∧ ask.SeenBehind rp k (s.redirected fs rp p).1.kernel) hinit
    _ _ _ ⟨rfl, rfl⟩ hrun
  · rintro s entry hfollows ⟨ask, rfl, htame⟩
    refine ⟨ask, rfl, (s.redirected fs rp p).1.kernel, ?_, htame, ask.startsAlike_self _⟩
    show s.process.kernel = _
    rw [hfollows.process]
    rfl
  · rintro k entry s s' ⟨ask, rfl, k₀, rfl, htame, hstarts⟩ hkeeps
    exact ⟨ask, rfl, k₀, rfl, htame, hstarts.trans (hkeeps ask rfl)⟩
  · rintro s entry answer s' ws hfollows hseen hanswered ⟨ask, rfl, rfl, hsettled, hpresent⟩
    have hcarry : ((s.redirected fs rp p).1.map rp.behind).carry fs answer =
        (((s.redirected fs rp p).1.plain (fs.through rp.behind) ask).1.map rp.behind,
          ((s.redirected fs rp p).1.plain (fs.through rp.behind) ask).2) := by
      refine Process.carry_map hinit henabled hfrom hto hunrelated hlib (fun w hw => ?_) hsettled
        hpresent hanswered
      obtain ⟨k, hk, ask', hask, hbehind⟩ := hseen w hw
      rw [Ask.entry_injective hask]
      exact ⟨k, hk, hbehind⟩
    rw [← hfollows.process] at hcarry
    refine ⟨?_, ?_⟩
    · rw [Served.redirected_carry, Served.carry, hcarry]
    · rw [Served.redirected_carry, Served.carry, List.map_append, hfollows.told, hcarry]
      rfl

/-! ## Two calls that overlap -/

theorem startsAlike_absolute {ask : Ask} (h : ask = .statA ∨ ask = .mkdirA) (k k' : Kernel) :
    ask.StartsAlike k k' := by
  rcases h with rfl | rfl <;>
  · intro a ha hrel
    obtain rfl := List.mem_singleton.mp ha
    exact absurd hrel (by decide)

/-- Nobody minds what is done between the two calls. -/
theorem undisturbed_statMkdir {t t' : Threaded (Served Counts Nat)}
    (h : t'.entries = [Ask.statA.entry, Ask.mkdirA.entry]) :
    t.Undisturbed (Served.Keeps .counting .aToB (.fresh .root)) t' := by
  intro n entry hentry _ _ ask hask
  rw [h] at hentry
  have hmem := List.mem_of_getElem? hentry
  rw [hask] at hmem
  apply startsAlike_absolute
  rcases List.mem_pair.mp hmem with hstat | hmkdir
  · exact Or.inl (Ask.entry_injective hstat)
  · exact Or.inr (Ask.entry_injective hmkdir)

/-- As if `mkdir` had been called first, with `/b` for `/a`. -/
theorem linear_statMkdir :
    Threaded.bothCarried.state.log.map (fun e => some e.1.entry) =
        [some Ask.mkdirA.entry, some Ask.statA.entry] ∧
      Threaded.bothCarried.state.Follows .counting .aToB (.fresh .root) := by
  have htame : ∀ (k : Kernel), ∀ ask ∈ [Ask.statA, .mkdirA], ask.Tame .aToB k := by
    intro k ask hask
    rcases List.mem_pair.mp hask with rfl | rfl <;>
    · refine ⟨rfl, fun a ha => ?_⟩
      obtain rfl := List.mem_singleton.mp ha
      exact .of_absolute rfl rfl (by decide) rfl (by decide)
  have hsettled : ∀ (k : Kernel), ∀ ask ∈ [Ask.statA, .mkdirA],
      ask.Settled .aToB k ∧ ask.Present .faithful := by
    intro k ask hask
    rcases List.mem_pair.mp hask with rfl | rfl <;> exact ⟨nofun, rfl⟩
  apply linear_of_run .aToB .aToB init_aToB rfl rfl rfl ⟨by decide, by decide⟩ .counting
    .faithful Library.backs_faithful (.fresh .root)
  apply Threaded.runs_bothCarried rfl
  · exact fun _ _ ask hask => ⟨ask, rfl, rfl, hsettled _ ask hask⟩
  · exact ⟨.statA, rfl, htame _ _ (by simp)⟩
  · exact ⟨.mkdirA, rfl, htame _ _ (by simp)⟩
  · exact fun _ _ ask _ => ask.startsAlike_self _
  · exact undisturbed_statMkdir rfl
  · exact undisturbed_statMkdir rfl

end LdPreload
