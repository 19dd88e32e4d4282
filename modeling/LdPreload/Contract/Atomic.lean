/-
  LdPreload.Contract.Atomic

  Calls that are one step.  `Process.interposed` computes an answer at once,
  from statics that are in place.  A thread takes many steps for it, some of
  which may fill the statics, between steps of other threads.  While what the
  library reports of the process stays the same for it, there is no difference
  (`interposed_of_run`): whatever holds of processes that ask for one thing
  after the other, holds of threads, in the order in which their answers are
  carried out.
-/

import LdPreload.Contract.Illusion
import LdPreload.Contract.Overlap

namespace LdPreload

open CMem Lexical Once

/-! ## One moment -/

section

variable {libc : Libc} {rp : RewritePolicy} {f g : PathArg → PathArg}

/-- There is one way to change arguments under a policy. -/
theorem Follows.unique (hf : Follows libc rp f) (hg : Follows libc rp g) : f = g := by
  funext a
  rcases Follows.skips_or_applies rp libc a with hskips | ⟨s, t, hs, ht, happlies⟩
  · rw [hf.skipped hskips, hg.skipped hskips]
  · have h := hf.rewritten hs ht happlies
    have h' := hg.rewritten hs ht happlies
    obtain ⟨u, hu, hspliced⟩ := h.path
    obtain ⟨u', hu', hspliced'⟩ := h'.path
    have hsame : u = u' := CString.ext (hspliced.chars.trans hspliced'.chars.symm)
    exact PathArg.ext (h.relative.trans h'.relative.symm) (h.dirfd.trans h'.dirfd.symm)
      (by rw [hu, hu', hsame])

theorem Call.withPaths_eq_mapArgs {c : Call} {a b : PathArg} (hc : c.takesTwo = true)
    (hargs : c.args = [a, b]) : c.withPaths (f a) (f b) = c.mapArgs f := by
  cases c with
  | link | rename | linkat | renameat | renameat2 =>
    obtain ⟨rfl, rfl⟩ : _ = a ∧ _ = b := by simpa [args] using hargs
    rfl
  | _ => exact absurd hc (by simp [takesTwo])

end

/-- What is answered at moments between which the library stays the same, is
    what is computed at one of them. -/
theorem AnsweredAt.eval_of_still {rp : RewritePolicy} {table : RealTable} {ws : List World}
    {w : World} {entry : Entry} {answer : Answer} (h : AnsweredAt table rp ws entry answer)
    (hstill : ∀ w' ∈ ws, w' = w) : entry.job.eval (Static.pick table rp) w = .ok answer := by
  cases h with
  | call hc hw h =>
    obtain rfl := hstill _ hw
    rw [eval_call_job, h]
    rfl
  | @twoPaths c o w₁ w₂ a b f g hc hargs hw₁ hw₂ hf hg h =>
    obtain rfl := hstill _ hw₁
    obtain rfl := hstill _ hw₂
    obtain rfl := hf.unique hg
    rw [eval_call_job, hf.forwarded c, Call.effective_of_takesTwo hc, h,
      Call.withPaths_eq_mapArgs hc hargs]
    rfl
  | getcwd hw h =>
    obtain rfl := hstill _ hw
    rw [eval_getcwd_job, h]
    rfl
  | onFd h => rw [eval_onFd_job, h]

/-! ## Whole runs -/

/-- A process behind the interposer, with what has been asked and answered so
    far, in the order in which it was carried out. -/
structure Served (σ ρ : Type) where
  process : Process σ
  log : List (Ask × Told ρ)

namespace Served

variable {σ ρ : Type} (fs : FileSystem σ ρ)

/-- An answer is carried out. -/
def carry (s : Served σ ρ) (ask : Ask) (answer : Answer) : Served σ ρ where
  process := (s.process.carry fs answer).1
  log := s.log ++ [(ask, (s.process.carry fs answer).2)]

/-- What the library reports stays the same. -/
def Still (lib : Library) (_ : Entry) (s s' : Served σ ρ) : Prop :=
  lib.world s.process.kernel = lib.world s'.process.kernel

/-- So far, the process has done what is computed call by call. -/
def Computed (lib : Library) (rp : RewritePolicy) (p : Process σ) (s : Served σ ρ) : Prop :=
  (s.process, s.log.map Prod.snd) =
    Service.run (Process.interposed fs lib rp) p (s.log.map Prod.fst)

/-- A process with threads, in front of which everything goes on. -/
def bare : Site (Served σ ρ) where
  kernel s := s.process.kernel
  admits _ _ := True
  carries s entry answer s' := ∃ ask : Ask, entry = ask.entry ∧ s' = s.carry fs ask answer

variable {fs} {env : Environ} {lib : Library} {keeps : Entry → Served σ ρ → Served σ ρ → Prop}
  {site : Site (Served σ ρ)} {t : Threaded (Served σ ρ)}

/-- The log has the calls that have been carried out. -/
theorem log_of_run {s : Served σ ρ} (hs : s.log = [])
    (hsite : ∀ s entry answer s', site.carries s entry answer s' →
      ∃ ask : Ask, entry = ask.entry ∧ s' = s.carry fs ask answer)
    (hrun : Threaded.Runs env lib site keeps (.start s) t) :
    t.state.log.map (fun e => some e.1.entry) = t.carried.reverse.map (t.entries[·]?) := by
  induction hrun with
  | refl =>
    show s.log.map _ = _
    rw [hs]
    rfl
  | @tail t _ _ hstep ih =>
    obtain ⟨hstep, -⟩ := hstep
    cases hstep with
    | call entry =>
      rw [ih]
      apply List.map_congr_left
      intro n hn
      -- what has been carried out is a call of before
      have hmem : t.entries[n]? ∈ t.carried.reverse.map (t.entries[·]?) :=
        List.mem_map_of_mem hn
      rw [← ih] at hmem
      obtain ⟨e, -, he⟩ := List.mem_map.mp hmem
      exact (List.getElem?_append_left (List.getElem?_eq_some_iff.mp he.symm).1).symm
    | advance hentry hadmits => exact ih
    | carry hentry hnew hret hcarries =>
      obtain ⟨ask, rfl, rfl⟩ := hsite _ _ _ _ hcarries
      rw [carry, List.map_append, ih, List.reverse_cons, List.map_append]
      simp [hentry]

end Served

/-- While the library reports the same to every call that is on its way, the
    answers and the process are what `Process.interposed` computes, call by
    call, in the order in which they are carried out. -/
theorem interposed_of_run (env : Environ) (rp : RewritePolicy)
    (hinit : initRewritePolicy env = .ok rp) {σ ρ : Type} (fs : FileSystem σ ρ) (lib : Library)
    (p : Process σ) (t : Threaded (Served σ ρ))
    (hrun : Threaded.Runs env lib (Served.bare fs) (Served.Still lib) (.start ⟨p, []⟩) t) :
    t.state.log.map (fun e => some e.1.entry) = t.carried.reverse.map (t.entries[·]?) ∧
      t.state.Computed fs lib rp p := by
  refine ⟨Served.log_of_run rfl (fun _ _ _ _ h => h) hrun, ?_⟩
  have hstart : Served.Computed fs lib rp p ⟨p, []⟩ := rfl
  apply Threaded.inv_of_run (fun k _ s => lib.world k = lib.world s.process.kernel) hinit
    _ _ _ hstart hrun
  · exact fun s entry _ _ => rfl
  · exact fun k entry s s' hholds hkeeps => hholds.trans hkeeps
  · rintro s entry answer s' ws hserved hseen hanswered ⟨ask, rfl, rfl⟩
    have heval : ask.entry.job.eval (Static.pick lib.table rp) (lib.world s.process.kernel) =
        .ok answer := by
      refine hanswered.eval_of_still fun w hw => ?_
      obtain ⟨k, rfl, hk⟩ := hseen w hw
      exact hk
    have hstep : s.process.interposed fs lib rp ask = s.process.carry fs answer := by
      simp only [Process.interposed, heval]
    replace hserved : (s.process, s.log.map Prod.snd) = _ := hserved
    rw [Served.Computed, Served.carry, List.map_append, List.map_append]
    show _ = Service.run _ p (s.log.map Prod.fst ++ [ask])
    rw [Service.run_concat, ← hserved, hstep]
    rfl

/-! ## Two calls that overlap -/

/-- `stat ("/a")` -/
def Ask.statA : Ask := .call (.stat (some (.ofAscii ['/', 'a'])) 0)

/-- `mkdir ("/a", 0)` -/
def Ask.mkdirA : Ask := .call (.mkdir (some (.ofAscii ['/', 'a'])) 0)

namespace Threaded

/-- Nobody has called anything. -/
def idle : Threaded (Served Counts Nat) :=
  .start ⟨(Process.fresh .root).map RewritePolicy.aToB.behind, []⟩

/-- A first thread has its answer, -/
def stat : Threaded (Served Counts Nat) :=
  idle.called .faithful (Served.bare .counting) Ask.statA.entry 110

/-- and so has a second one. -/
def statMkdir : Threaded (Served Counts Nat) :=
  stat.called .faithful (Served.bare .counting) Ask.mkdirA.entry 20

/-- `mkdir` is carried out first, -/
def mkdirCarried : Threaded (Served Counts Nat) := { statMkdir with
  carried := [1]
  state := statMkdir.state.carry .counting .mkdirA
    (.reply (.call (.forwarded (.mkdir (some (.ofAscii ['/', 'b'])) 0)))) }

/-- and then the `stat` that was called before it. -/
def bothCarried : Threaded (Served Counts Nat) := { statMkdir with
  carried := [0, 1]
  state := mkdirCarried.state.carry .counting .statA
    (.reply (.call (.forwarded (.stat (some (.ofAscii ['/', 'b'])) 0)))) }

set_option maxRecDepth 8000 in
theorem threads_statMkdir : (threads ⟨.aToB, Library.faithful.table⟩ statMkdir.moves).threads =
    [.ret (.reply (.call (.forwarded (.stat (some (.ofAscii ['/', 'b'])) 0)))),
      .ret (.reply (.call (.forwarded (.mkdir (some (.ofAscii ['/', 'b'])) 0))))] :=
  rfl

variable {site : Site (Served Counts Nat)}
  {keeps : Entry → Served Counts Nat → Served Counts Nat → Prop}

/-- In front of any such process the two can overlap in this way. -/
theorem runs_bothCarried (hkernel : site.kernel = fun s => s.process.kernel)
    (hcarries : ∀ s answer, ∀ ask ∈ [Ask.statA, .mkdirA],
      site.carries s ask.entry answer (s.carry .counting ask answer))
    (hstat : site.admits idle.state Ask.statA.entry)
    (hmkdir : site.admits stat.state Ask.mkdirA.entry) (hself : ∀ entry s, keeps entry s s)
    (hfirst : statMkdir.Undisturbed keeps mkdirCarried)
    (hsecond : mkdirCarried.Undisturbed keeps bothCarried) :
    Runs .aToB .faithful site keeps idle bothCarried := by
  have hcalled : ∀ (t : Threaded (Served Counts Nat)) entry i,
      t.called .faithful (Served.bare .counting) entry i = t.called .faithful site entry i := by
    intro t entry i
    simp only [called, hkernel, Served.bare]
  have hret := fun n : Nat => congrArg (fun threads => threads[n]?) threads_statMkdir
  have hrunStat : Runs .aToB .faithful site keeps idle stat := by
    rw [stat, hcalled]
    exact run_called _ _ _ _ (fun entry => hself entry _) hstat 110
  have hrunMkdir : Runs .aToB .faithful site keeps stat statMkdir := by
    rw [statMkdir, hcalled]
    exact run_called _ _ _ _ (fun entry => hself entry _) hmkdir 20
  have hcarryMkdir : Step .aToB .faithful site statMkdir mkdirCarried :=
    .carry (n := 1) rfl List.not_mem_nil (hret 1) (hcarries _ _ .mkdirA (by simp))
  have hcarryStat : Step .aToB .faithful site mkdirCarried bothCarried :=
    .carry (n := 0) rfl (by simp [mkdirCarried]) (hret 0) (hcarries _ _ .statA (by simp))
  exact ((hrunStat.trans hrunMkdir).tail ⟨hcarryMkdir, hfirst⟩).tail ⟨hcarryStat, hsecond⟩

end Threaded

/-- As if `mkdir` had been called first. -/
theorem interposed_statMkdir :
    Threaded.bothCarried.state.log.map (fun e => some e.1.entry) =
        [some Ask.mkdirA.entry, some Ask.statA.entry] ∧
      Threaded.bothCarried.state.Computed .counting .faithful .aToB
        ((Process.fresh .root).map RewritePolicy.aToB.behind) :=
  interposed_of_run .aToB .aToB init_aToB .counting .faithful _ _
    (Threaded.runs_bothCarried rfl (fun _ _ ask _ => ⟨ask, rfl, rfl⟩) trivial trivial
      (fun _ _ => rfl) (fun _ _ _ _ _ => rfl) (fun _ _ _ _ _ => rfl))

end LdPreload
