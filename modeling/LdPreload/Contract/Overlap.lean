/-
  LdPreload.Contract.Overlap

  Calls that overlap.  Threads call exported functions, see the directories of
  the process while they compute an answer, and what they answer is carried
  out later, when other threads may have gone ahead.  `Threaded.inv_of_run` is
  the rule for invariants of such a process: a step may use of the directories
  what its thread has seen, as long as nobody disturbs it.
-/

import LdPreload.Contract.Processes

namespace LdPreload

open CMem Lexical Once

/-- The path arguments of a call of an exported function. -/
def Entry.args : Entry → List PathArg
  | .request (.call c) => c.args
  | _ => []

/-! ## Calls with two paths -/

namespace Call

variable {c : Call} {a b : PathArg}

theorem effective_of_takesTwo (h : c.takesTwo = true) : c.effective = c := by
  cases c with
  | «open» | openat => exact absurd h (by simp [takesTwo])
  | _ => rfl

theorem untied_of_takesTwo (h : c.takesTwo = true) : c.tied = false := by
  cases c with
  | openat2 => exact absurd h (by simp [takesTwo])
  | _ => rfl

theorem symbol_withPaths (a b : PathArg) (c : Call) : (c.withPaths a b).symbol = c.symbol := by
  cases c <;> rfl

theorem shape_withPaths (a b : PathArg) (c : Call) : (c.withPaths a b).shape = c.shape := by
  cases c <;> rfl

theorem renames_withPaths (a b : PathArg) (c : Call) :
    (c.withPaths a b).renames = c.renames := by
  cases c <;> rfl

theorem takesTwo_withPaths (a b : PathArg) (c : Call) :
    (c.withPaths a b).takesTwo = c.takesTwo := by
  cases c <;> rfl

theorem args_withPaths {f g : PathArg → PathArg} (hf : KeepsCwd f) (hg : KeepsCwd g)
    (hc : c.takesTwo = true) (hargs : c.args = [a, b]) :
    (c.withPaths (f a) (g b)).args = [f a, g b] := by
  -- an argument that is followed, with a descriptor or without
  have hdirfd : ∀ {f : PathArg → PathArg}, KeepsCwd f → ∀ dirfd path,
      (⟨true, (f ⟨true, dirfd, path⟩).dirfd, (f ⟨true, dirfd, path⟩).path⟩ : PathArg) =
        f ⟨true, dirfd, path⟩ := by
    intro f hf dirfd path
    exact PathArg.ext (hf ⟨true, dirfd, path⟩).1.symm rfl rfl
  have hcwd : ∀ {f : PathArg → PathArg}, KeepsCwd f → ∀ path,
      (⟨true, atFdcwd, (f ⟨true, atFdcwd, path⟩).path⟩ : PathArg) = f ⟨true, atFdcwd, path⟩ := by
    intro f hf path
    have h := hdirfd hf atFdcwd path
    rwa [(hf ⟨true, atFdcwd, path⟩).2 rfl] at h
  cases c with
  | link | rename =>
    obtain ⟨rfl, rfl⟩ : _ = a ∧ _ = b := by simpa [args] using hargs
    simp only [withPaths, args, hcwd hf, hcwd hg]
  | linkat | renameat | renameat2 =>
    obtain ⟨rfl, rfl⟩ : _ = a ∧ _ = b := by simpa [args] using hargs
    simp only [withPaths, args, hdirfd hf, hdirfd hg]
  | _ => exact absurd hc (by simp [takesTwo])

end Call

/-! ## What was handed on -/

/-- What is relative when it is handed on, was handed on as it is. -/
theorem Follows.eq_self_of_relative {libc : Libc} {rp : RewritePolicy} {f : PathArg → PathArg}
    {a : PathArg} (hf : Follows libc rp f) (h : (f a).path.any isAbsolute = false) : f a = a := by
  rcases Follows.skips_or_applies rp libc a with hskips | ⟨s, t, hs, ht, happlies⟩
  · exact hf.skipped hskips
  · obtain ⟨u, hu, hspliced⟩ := (hf.rewritten hs ht happlies).path
    rw [hu] at h
    exact absurd (hspliced.absolute.symm.trans h) (by decide)

/-- What was handed on is resolved alike, from where it starts. -/
theorem Follows.target_congr {libc : Libc} {rp : RewritePolicy} {f : PathArg → PathArg}
    {k k' : Kernel} {a : PathArg} (hf : Follows libc rp f)
    (h : a.path.any isAbsolute = false → k.dirOf a.dirfd = k'.dirOf a.dirfd) :
    k.target (f a) = k'.target (f a) := by
  apply Kernel.target_congr
  intro hrel
  have hself := hf.eq_self_of_relative hrel
  rw [hself] at hrel ⊢
  exact h hrel

/-- What threads run in front of: a state, the directories that the library
    reports in it, when a thread may go on, and how its answer is carried out. -/
structure Site (S : Type) where
  kernel : S → Kernel
  admits : S → Entry → Prop
  carries : S → Entry → Answer → S → Prop

/-- A process with threads: the calls so far, a thread for each, what the
    threads have done, which answers have been carried out, and the state. -/
structure Threaded (S : Type) where
  entries : List Entry
  moves : List ThreadMove
  carried : List Nat
  state : S

namespace Threaded

variable {S : Type}

def start (s : S) : Threaded S := ⟨[], [], [], s⟩

/-- A step of such a process: somebody calls an exported function, a thread
    takes a step and sees the directories as they are, or the answer of a
    thread is carried out. -/
inductive Step (env : Environ) (lib : Library) (site : Site S) :
    Threaded S → Threaded S → Prop
  | call (t : Threaded S) (entry : Entry) :
    Step env lib site t { t with
      entries := t.entries ++ [entry], moves := t.moves ++ [.start entry.job] }
  | advance {t : Threaded S} {n : Nat} {entry : Entry} (hentry : t.entries[n]? = some entry)
      (hadmits : site.admits t.state entry) :
    Step env lib site t { t with
      moves := t.moves ++ [.advance n (lib.world (site.kernel t.state))] }
  | carry {t : Threaded S} {n : Nat} {entry : Entry} {answer : Answer} {s : S}
      (hentry : t.entries[n]? = some entry) (hnew : n ∉ t.carried)
      (hret : (threads ⟨env, lib.table⟩ t.moves).threads[n]? = some (.ret answer))
      (hcarries : site.carries t.state entry answer s) :
    Step env lib site t { t with carried := n :: t.carried, state := s }

/-- A step leaves alone what the calls depend on that have begun and have not
    been carried out. -/
def Undisturbed (keeps : Entry → S → S → Prop) (t t' : Threaded S) : Prop :=
  ∀ n entry, t'.entries[n]? = some entry → n ∉ t'.carried → Move.worlds n t'.moves ≠ [] →
    keeps entry t.state t'.state

/-- A run in which nobody is disturbed. -/
def Runs (env : Environ) (lib : Library) (site : Site S) (keeps : Entry → S → S → Prop) :
    Threaded S → Threaded S → Prop :=
  Relation.ReflTransGen fun t t' => Step env lib site t t' ∧ Undisturbed keeps t t'

/-- What a call on its way has seen, still holds. -/
structure Sound (lib : Library) (holds : Kernel → Entry → S → Prop) (inv : S → Prop)
    (t : Threaded S) : Prop where
  runs : LdPreload.Runs t.moves t.entries
  calm : ∀ s, Move.setenv s ∉ t.moves
  early : ∀ n, t.entries.length ≤ n → Move.worlds n t.moves = []
  seen : ∀ n entry, t.entries[n]? = some entry → n ∉ t.carried →
    ∀ w ∈ Move.worlds n t.moves, ∃ k : Kernel, w = lib.world k ∧ holds k entry t.state
  inv : inv t.state

end Threaded

section

variable {env : Environ} {rp : RewritePolicy} {lib : Library}

/-- While nobody changes the environment, there is one moment. -/
theorem moments_of_calm {s s' : Surroundings} {moves : List ThreadMove}
    (h : ∀ s, Move.setenv s ∉ moves) (hs' : s' ∈ moments s moves) : s' = s := by
  have hconst : (∀ e ∈ (Machine.fresh s Static.zero : Threads).environs Static.routine moves,
      e = s) ∧ (threads s moves).globals.environ = s := Machine.environs_const h
  obtain ⟨htrace, hend⟩ := hconst
  rcases List.mem_append.mp hs' with hs' | hs'
  · exact htrace s' hs'
  · exact (List.mem_singleton.mp hs').trans hend

/-- Then the pointers are those of the library and the policy that of the
    environment. -/
theorem Takes.eq_of_calm {moves : List ThreadMove} {table : RealTable} {rp' : RewritePolicy}
    (h : Takes ⟨env, lib.table⟩ moves table rp') (hcalm : ∀ s, Move.setenv s ∉ moves)
    (hinit : initRewritePolicy env = .ok rp) : table = lib.table ∧ rp' = rp := by
  refine ⟨funext fun real => ?_, ?_⟩
  · obtain ⟨s', hs', hreal⟩ := h.resolved real
    rw [hreal, moments_of_calm hcalm hs']
  · obtain ⟨s₁, s₂, hmoments, hrp⟩ := h.configured
    have hboth : s₁ ∈ moments ⟨env, lib.table⟩ moves ∧ s₂ ∈ moments ⟨env, lib.table⟩ moves := by
      rcases hmoments with ⟨rfl, hs₁⟩ | hsub
      · exact ⟨hs₁, hs₁⟩
      · exact ⟨hsub.subset (by simp), hsub.subset (by simp)⟩
    rw [moments_of_calm hcalm hboth.1, moments_of_calm hcalm hboth.2, hinit] at hrp
    exact (Except.ok.inj hrp).symm

end

namespace Threaded

variable {S : Type} {env : Environ} {rp : RewritePolicy} {lib : Library} {site : Site S}
  {keeps : Entry → S → S → Prop} {holds : Kernel → Entry → S → Prop} {inv : S → Prop}
  {t : Threaded S}

theorem sound_start {s : S} (h : inv s) : (start s).Sound lib holds inv where
  runs := rfl
  calm _ := List.not_mem_nil
  early _ _ := rfl
  seen _ _ hentry := absurd hentry (by simp [start])
  inv := h

theorem Sound.call (h : t.Sound lib holds inv) (entry : Entry) :
    Sound lib holds inv { t with entries := t.entries ++ [entry],
                                 moves := t.moves ++ [.start entry.job] } where
  runs := by
    show Move.started (t.moves ++ [.start entry.job]) = (t.entries ++ [entry]).map Entry.job
    rw [Move.started_append, List.map_append, show Move.started t.moves = _ from h.runs]
    rfl
  calm s hs := by
    rcases List.mem_append.mp hs with hs | hs
    · exact h.calm s hs
    · exact absurd (List.mem_singleton.mp hs) (by simp)
  early n hn := by
    rw [List.length_append] at hn
    rw [Move.worlds_append, h.early n (by omega)]
    rfl
  seen n entry' hentry hn w hw := by
    rw [Move.worlds_append] at hw
    replace hw : w ∈ Move.worlds n t.moves := by simpa [Move.worlds] using hw
    -- the new thread has seen nothing yet
    have hlt : n < t.entries.length := by
      by_contra hge
      rw [h.early n (by omega)] at hw
      exact absurd hw List.not_mem_nil
    rw [List.getElem?_append_left hlt] at hentry
    exact h.seen n entry' hentry hn w hw
  inv := h.inv

theorem Sound.advance (h : t.Sound lib holds inv) {n : Nat} {entry : Entry} {k : Kernel}
    (hentry : t.entries[n]? = some entry) (hholds : holds k entry t.state) :
    Sound lib holds inv { t with moves := t.moves ++ [.advance n (lib.world k)] } where
  runs := by
    show Move.started (t.moves ++ [.advance n _]) = t.entries.map Entry.job
    rw [Move.started_append, show Move.started t.moves = _ from h.runs]
    exact List.append_nil _
  calm s hs := by
    rcases List.mem_append.mp hs with hs | hs
    · exact h.calm s hs
    · exact absurd (List.mem_singleton.mp hs) (by simp)
  early n' hn' := by
    replace hn' : t.entries.length ≤ n' := hn'
    have hlt := (List.getElem?_eq_some_iff.mp hentry).1
    have hne : n ≠ n' := by omega
    rw [Move.worlds_append, h.early n' hn']
    simp [Move.worlds, hne]
  seen n' entry' hentry' hn' w hw := by
    rw [Move.worlds_append] at hw
    rcases List.mem_append.mp hw with hw | hw
    · exact h.seen n' entry' hentry' hn' w hw
    · -- the world that the thread sees now
      by_cases heq : n = n'
      · subst heq
        obtain rfl := Option.some.inj (hentry.symm.trans hentry')
        replace hw : w = lib.world k := by simpa [Move.worlds] using hw
        exact ⟨k, hw, hholds⟩
      · exact absurd hw (by simp [Move.worlds, heq])
  inv := h.inv

/-- An answer that is carried out has been given at moments at which the
    directories were as the thread has seen them. -/
theorem Sound.answered (h : t.Sound lib holds inv) (hinit : initRewritePolicy env = .ok rp)
    {n : Nat} {entry : Entry} {answer : Answer} (hentry : t.entries[n]? = some entry)
    (hret : (threads ⟨env, lib.table⟩ t.moves).threads[n]? = some (.ret answer)) :
    AnsweredAt lib.table rp (Move.worlds n t.moves) entry answer := by
  obtain ⟨table, rp', htakes, hanswered⟩ :=
    answered_at_moments ⟨env, lib.table⟩ t.moves t.entries h.runs
  obtain ⟨rfl, rfl⟩ := htakes.eq_of_calm h.calm hinit
  exact hanswered n entry answer hentry hret

/-- What holds at the start, and is kept when an answer is carried out that was
    given in directories that still hold, holds in every run. -/
theorem inv_of_run (holds : Kernel → Entry → S → Prop) (hinit : initRewritePolicy env = .ok rp)
    (hadmits : ∀ s entry, inv s → site.admits s entry → holds (site.kernel s) entry s)
    (hkeeps : ∀ k entry s s', holds k entry s → keeps entry s s' → holds k entry s')
    (hcarry : ∀ s entry answer s' ws, inv s →
      (∀ w ∈ ws, ∃ k : Kernel, w = lib.world k ∧ holds k entry s) →
        AnsweredAt lib.table rp ws entry answer → site.carries s entry answer s' → inv s')
    {s : S} (hstart : inv s) (hrun : Runs env lib site keeps (.start s) t) : inv t.state := by
  suffices hsound : t.Sound lib holds inv from hsound.inv
  -- by induction on the steps of the run
  induction hrun with
  | refl => exact sound_start hstart
  | tail _ hstep ih =>
    obtain ⟨hstep, hundisturbed⟩ := hstep
    cases hstep with
    | call entry => exact ih.call entry
    | advance hentry hadmit => exact ih.advance hentry (hadmits _ _ ih.inv hadmit)
    | @carry n entry answer s' hentry hnew hret hcarries =>
      refine ⟨ih.runs, ih.calm, ih.early, fun m entry' hentry' hm w hw => ?_, ?_⟩
      · obtain ⟨k, rfl, hholds⟩ :=
          ih.seen m entry' hentry' (fun hmem => hm (List.mem_cons_of_mem _ hmem)) w hw
        have hkept := hundisturbed m entry' hentry' hm (List.ne_nil_of_mem hw)
        exact ⟨k, rfl, hkeeps k entry' _ s' hholds hkept⟩
      · exact hcarry _ entry answer s' _ ih.inv (ih.seen n entry hentry hnew)
          (ih.answered hinit hentry hret) hcarries

/-- A new thread has made a call and taken `i` steps, while nobody else did
    anything. -/
def called (lib : Library) (site : Site S) (t : Threaded S) (entry : Entry) (i : Nat) :
    Threaded S where
  entries := t.entries ++ [entry]
  moves := t.moves ++ [.start entry.job] ++
    List.replicate i (.advance t.entries.length (lib.world (site.kernel t.state)))
  carried := t.carried
  state := t.state

theorem run_called (env : Environ) (lib : Library) (site : Site S) (t : Threaded S)
    {entry : Entry} (hkeeps : ∀ entry, keeps entry t.state t.state)
    (hadmits : site.admits t.state entry) (i : Nat) :
    Runs env lib site keeps t (t.called lib site entry i) := by
  induction i with
  | zero =>
    refine .single ⟨?_, fun _ entry' _ _ _ => hkeeps entry'⟩
    rw [called, List.replicate_zero, List.append_nil]
    exact .call t entry
  | succ i ih =>
    refine ih.tail ⟨?_, fun _ entry' _ _ _ => hkeeps entry'⟩
    have hentry : (t.called lib site entry i).entries[t.entries.length]? = some entry :=
      List.getElem?_concat_length
    have hsucc : t.called lib site entry (i + 1) = { t.called lib site entry i with
        moves := (t.called lib site entry i).moves ++
          [.advance t.entries.length (lib.world (site.kernel t.state))] } := by
      rw [called, List.replicate_succ', ← List.append_assoc]
      rfl
    rw [hsucc]
    exact .advance hentry hadmits

end Threaded

end LdPreload
