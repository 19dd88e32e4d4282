/-
  LdPreload.C.OnceRoutine

  `pthread_once`, step by step.  Globals are cells, each with a control and a
  routine that fills it by one store after another.  The first thread that
  asks for a cell runs the routine, the others wait until it has ended, and
  between any two steps everybody else may run and the environment may change.

  A `Job` that loads a cell only behind a `once` on it is `Guarded`.  Of such
  jobs `Coherent` holds in every run: nobody loads what a routine has only
  begun to fill, all loads of a cell give one value, and the routine has read
  it from the environment as it went by (`coherent_run`).  What is left of a
  job computes what the job does, over these values (`traced_run`).
-/

import Mathlib

namespace Once

/-- A routine that fills a cell of type `κ`.  It looks at the environment `ε`,
    stores, and may stop with `σ`. -/
inductive Routine (ε κ σ : Type) where
  | done
  | stop (e : σ)
  | query (next : ε → Routine ε κ σ)
  | store (f : κ → κ) (rest : Routine ε κ σ)

/-- Programs of threads over the cells `κ`.  They look at a world `ρ`. -/
inductive Job (ρ : Type) {ι : Type} (κ : ι → Type) (σ α : Type) where
  | ret (a : α)
  | stop (e : σ)
  | look (next : ρ → Job ρ κ σ α)
  /-- `pthread_once` on the control of a cell. -/
  | once (i : ι) (next : Job ρ κ σ α)
  /-- The cell as it is. -/
  | load (i : ι) (next : κ i → Job ρ κ σ α)

variable {ρ ε σ α β ι : Type} {κ : ι → Type}

/-! ## What they compute -/

/-- From the value `v` the routine ends with `w`, when it sees the environments
    of the list one after the other. -/
inductive Routine.Fills {κ : Type} : Routine ε κ σ → κ → List ε → κ → Prop where
  | done (v : κ) : Fills .done v [] v
  | query {next : ε → Routine ε κ σ} {v w : κ} {e : ε} {es : List ε} (h : (next e).Fills v es w) :
      Fills (.query next) v (e :: es) w
  | store {f : κ → κ} {rest : Routine ε κ σ} {v w : κ} {es : List ε} (h : rest.Fills (f v) es w) :
      Fills (.store f rest) v es w

section Fills

variable {κ : Type} {v w : κ} {es : List ε}

@[simp] theorem Routine.fills_done :
    (Routine.done : Routine ε κ σ).Fills v es w ↔ es = [] ∧ w = v := by
  refine ⟨fun h => ?_, ?_⟩
  · cases h
    exact ⟨rfl, rfl⟩
  · rintro ⟨rfl, rfl⟩
    exact .done w

@[simp] theorem Routine.fills_stop {e : σ} : ¬ (Routine.stop e : Routine ε κ σ).Fills v es w :=
  fun h => nomatch h

@[simp] theorem Routine.fills_query {next : ε → Routine ε κ σ} :
    (Routine.query next).Fills v es w ↔ ∃ e es', es = e :: es' ∧ (next e).Fills v es' w := by
  refine ⟨fun h => ?_, ?_⟩
  · cases h with
    | query h => exact ⟨_, _, rfl, h⟩
  · rintro ⟨e, es', rfl, h⟩
    exact .query h

@[simp] theorem Routine.fills_store {f : κ → κ} {rest : Routine ε κ σ} :
    (Routine.store f rest).Fills v es w ↔ rest.Fills (f v) es w := by
  refine ⟨fun h => ?_, .store⟩
  cases h with
  | store h => exact h

end Fills

/-- The routine stops in no environment. -/
def Routine.Safe {κ : Type} : Routine ε κ σ → Prop
  | .done => True
  | .stop _ => False
  | .query next => ∀ e, (next e).Safe
  | .store _ rest => rest.Safe

namespace Job

def bind : Job ρ κ σ α → (α → Job ρ κ σ β) → Job ρ κ σ β
  | ret a, g => g a
  | stop e, _ => stop e
  | look next, g => look fun r => (next r).bind g
  | once i next, g => once i (next.bind g)
  | load i next, g => load i fun v => (next v).bind g

instance : Monad (Job ρ κ σ) where
  pure := ret
  bind := bind

/-- Over cells that hold `vals` throughout, a job ends with `x`, when it sees
    the worlds of the list one after the other. -/
inductive Evals (vals : ∀ i, κ i) : Job ρ κ σ α → List ρ → Except σ α → Prop where
  | ret (a : α) : Evals vals (.ret a) [] (.ok a)
  | stop (e : σ) : Evals vals (.stop e) [] (.error e)
  | look {next : ρ → Job ρ κ σ α} {r : ρ} {rs : List ρ} {x : Except σ α}
      (h : Evals vals (next r) rs x) : Evals vals (.look next) (r :: rs) x
  | once {i : ι} {next : Job ρ κ σ α} {rs : List ρ} {x : Except σ α}
      (h : Evals vals next rs x) : Evals vals (.once i next) rs x
  | load {i : ι} {next : κ i → Job ρ κ σ α} {rs : List ρ} {x : Except σ α}
      (h : Evals vals (next (vals i)) rs x) : Evals vals (.load i next) rs x

/-- What a job ends with over such cells, when it sees one world throughout. -/
def eval (vals : ∀ i, κ i) (r : ρ) : Job ρ κ σ α → Except σ α
  | ret a => .ok a
  | stop e => .error e
  | look next => (next r).eval vals r
  | once _ next => next.eval vals r
  | load i next => (next (vals i)).eval vals r

/-- What two jobs end with, one behind the other. -/
theorem evals_bind {vals : ∀ i, κ i} {m : Job ρ κ σ α} {g : α → Job ρ κ σ β} {rs : List ρ}
    {y : Except σ β} (h : Evals vals (m >>= g) rs y) :
    (∃ a rs₁ rs₂, rs = rs₁ ++ rs₂ ∧ Evals vals m rs₁ (.ok a) ∧ Evals vals (g a) rs₂ y) ∨
      ∃ e, y = .error e ∧ Evals vals m rs (.error e) := by
  replace h : Evals vals (m.bind g) rs y := h
  induction m generalizing rs with
  | ret a => exact Or.inl ⟨a, [], rs, rfl, .ret a, h⟩
  | stop e =>
    cases h
    exact Or.inr ⟨e, rfl, .stop e⟩
  | look next ih =>
    cases h with
    | look h =>
      rcases ih _ h with ⟨a, rs₁, rs₂, rfl, h₁, h₂⟩ | ⟨e, rfl, he⟩
      · exact Or.inl ⟨a, _ :: rs₁, rs₂, rfl, .look h₁, h₂⟩
      · exact Or.inr ⟨e, rfl, .look he⟩
  | once i next ih =>
    cases h with
    | once h =>
      rcases ih h with ⟨a, rs₁, rs₂, rfl, h₁, h₂⟩ | ⟨e, rfl, he⟩
      · exact Or.inl ⟨a, rs₁, rs₂, rfl, .once h₁, h₂⟩
      · exact Or.inr ⟨e, rfl, .once he⟩
  | load i next ih =>
    cases h with
    | load h =>
      rcases ih _ h with ⟨a, rs₁, rs₂, rfl, h₁, h₂⟩ | ⟨e, rfl, he⟩
      · exact Or.inl ⟨a, rs₁, rs₂, rfl, .load h₁, h₂⟩
      · exact Or.inr ⟨e, rfl, .load he⟩

/-- Cells are loaded only behind a `once` on them; those in `filled` have it
    behind them already. -/
def Guarded : (ι → Prop) → Job ρ κ σ α → Prop
  | _, .ret _ => True
  | _, .stop _ => True
  | filled, .look next => ∀ r, (next r).Guarded filled
  | filled, .once i next => next.Guarded fun j => j = i ∨ filled j
  | filled, .load i next => filled i ∧ ∀ v, (next v).Guarded filled

theorem Guarded.mono {m : Job ρ κ σ α} {filled filled' : ι → Prop} (h : m.Guarded filled)
    (hsub : ∀ i, filled i → filled' i) : m.Guarded filled' := by
  induction m generalizing filled filled' with
  | ret a => trivial
  | stop e => trivial
  | look next ih => exact fun r => ih r (h r) hsub
  | once i next ih => exact ih h fun j hj => hj.imp_right (hsub j)
  | load i next ih => exact ⟨hsub i h.1, fun v => ih v (h.2 v) hsub⟩

end Job

/-! ## The globals -/

/-- A `pthread_once_t`. -/
inductive Control (ε κ σ : Type) where
  | idle
  /-- The thread `owner` runs the routine, and `rest` of it is left. -/
  | running (owner : Nat) (rest : Routine ε κ σ)
  | finished

/-- The cells, their controls, and the environment.  `reads` is a ghost: all
    loads so far. -/
structure Globals (ε : Type) {ι : Type} (κ : ι → Type) (σ : Type) where
  environ : ε
  control : ∀ i, Control ε (κ i) σ
  value : ∀ i, κ i
  reads : List (Sigma κ)

namespace Globals

variable [DecidableEq ι] (g : Globals ε κ σ) (i : ι)

def setControl (c : Control ε (κ i) σ) : Globals ε κ σ :=
  { g with control := Function.update g.control i c }

def setValue (v : κ i) : Globals ε κ σ := { g with value := Function.update g.value i v }

omit [DecidableEq ι] in
def record : Globals ε κ σ := { g with reads := g.reads ++ [⟨i, g.value i⟩] }

variable {g i} {c : Control ε (κ i) σ} {v : κ i} {j : ι}

@[simp] theorem control_setControl : (g.setControl i c).control i = c := Function.update_self ..

theorem control_setControl_of_ne (h : j ≠ i) : (g.setControl i c).control j = g.control j :=
  Function.update_of_ne h ..

@[simp] theorem value_setValue : (g.setValue i v).value i = v := Function.update_self ..

theorem value_setValue_of_ne (h : j ≠ i) : (g.setValue i v).value j = g.value j :=
  Function.update_of_ne h ..

end Globals

/-! ## Steps -/

variable [DecidableEq ι] (routine : ∀ i, Routine ε (κ i) σ)

/-- One step of the routine of a cell, in the thread `n` that runs it. -/
def Job.stepRoutine (n : Nat) (i : ι) (next : Job ρ κ σ α) (g : Globals ε κ σ) :
    Routine ε (κ i) σ → Job ρ κ σ α × Globals ε κ σ
  | .done => (next, g.setControl i .finished)
  | .stop e => (.stop e, g)
  | .query k => (.once i next, g.setControl i (.running n (k g.environ)))
  | .store f rest =>
    (.once i next, (g.setControl i (.running n rest)).setValue i (f (g.value i)))

/-- `pthread_once` in the thread `n`, which finds the control as it is given. -/
def Job.stepOnce (n : Nat) (i : ι) (next : Job ρ κ σ α) (g : Globals ε κ σ) :
    Control ε (κ i) σ → Job ρ κ σ α × Globals ε κ σ
  | .idle => (.once i next, g.setControl i (.running n (routine i)))
  | .finished => (next, g)
  | .running owner rest =>
    -- whoever does not run the routine waits
    if owner = n then stepRoutine n i next g rest else (.once i next, g)

/-- One step of the thread `n`. -/
def Job.step (n : Nat) (r : ρ) : Job ρ κ σ α → Globals ε κ σ → Job ρ κ σ α × Globals ε κ σ
  | .ret a, g => (.ret a, g)
  | .stop e, g => (.stop e, g)
  | .look next, g => (next r, g)
  | .load i next, g => (next (g.value i), g.record i)
  | .once i next, g => stepOnce routine n i next g (g.control i)

/-- All that a step of the thread `n` can be. -/
inductive Job.Steps (n : Nat) (r : ρ) :
    Job ρ κ σ α → Globals ε κ σ → Job ρ κ σ α → Globals ε κ σ → Prop where
  | ret {a : α} {g : Globals ε κ σ} : Steps n r (.ret a) g (.ret a) g
  | stop {e : σ} {g : Globals ε κ σ} : Steps n r (.stop e) g (.stop e) g
  | look {next : ρ → Job ρ κ σ α} {g : Globals ε κ σ} : Steps n r (.look next) g (next r) g
  | load {i : ι} {next : κ i → Job ρ κ σ α} {g : Globals ε κ σ} :
      Steps n r (.load i next) g (next (g.value i)) (g.record i)
  | enter {i : ι} {next : Job ρ κ σ α} {g : Globals ε κ σ} (h : g.control i = .idle) :
      Steps n r (.once i next) g (.once i next) (g.setControl i (.running n (routine i)))
  | query {i : ι} {next : Job ρ κ σ α} {g : Globals ε κ σ} {k : ε → Routine ε (κ i) σ}
      (h : g.control i = .running n (.query k)) :
      Steps n r (.once i next) g (.once i next) (g.setControl i (.running n (k g.environ)))
  | store {i : ι} {next : Job ρ κ σ α} {g : Globals ε κ σ} {f : κ i → κ i}
      {rest : Routine ε (κ i) σ} (h : g.control i = .running n (.store f rest)) :
      Steps n r (.once i next) g (.once i next)
        ((g.setControl i (.running n rest)).setValue i (f (g.value i)))
  | leave {i : ι} {next : Job ρ κ σ α} {g : Globals ε κ σ}
      (h : g.control i = .running n .done) :
      Steps n r (.once i next) g next (g.setControl i .finished)
  | abort {i : ι} {next : Job ρ κ σ α} {g : Globals ε κ σ} {e : σ}
      (h : g.control i = .running n (.stop e)) : Steps n r (.once i next) g (.stop e) g
  | pass {i : ι} {next : Job ρ κ σ α} {g : Globals ε κ σ} (h : g.control i = .finished) :
      Steps n r (.once i next) g next g
  | wait {i : ι} {next : Job ρ κ σ α} {g : Globals ε κ σ} {owner : Nat}
      {rest : Routine ε (κ i) σ} (h : g.control i = .running owner rest) (howner : owner ≠ n) :
      Steps n r (.once i next) g (.once i next) g

theorem Job.steps_step (n : Nat) (r : ρ) (m : Job ρ κ σ α) (g : Globals ε κ σ) :
    Job.Steps routine n r m g (m.step routine n r g).1 (m.step routine n r g).2 := by
  cases m with
  | ret a => exact .ret
  | stop e => exact .stop
  | look next => exact .look
  | load i next => exact .load
  | once i next =>
    show Steps routine n r (.once i next) g (stepOnce routine n i next g (g.control i)).1
      (stepOnce routine n i next g (g.control i)).2
    generalize hc : g.control i = c
    cases c with
    | idle => exact .enter hc
    | finished => exact .pass hc
    | running owner rest =>
      rw [stepOnce]
      by_cases howner : owner = n
      · subst howner
        rw [if_pos rfl]
        cases rest with
        | done => exact .leave hc
        | stop e => exact .abort hc
        | query k => exact .query hc
        | store f rest => exact .store hc
      · rw [if_neg howner]
        exact .wait hc howner

/-! ## Runs -/

/-- The threads of a process, over its globals. -/
structure Machine (ρ ε : Type) {ι : Type} (κ : ι → Type) (σ α : Type) where
  globals : Globals ε κ σ
  threads : List (Job ρ κ σ α)

inductive Move (ρ ε : Type) {ι : Type} (κ : ι → Type) (σ α : Type) where
  /-- The environment becomes `e`. -/
  | setenv (e : ε)
  /-- A thread starts the job `m`. -/
  | start (m : Job ρ κ σ α)
  /-- Thread `n` takes one step in the world `r`. -/
  | advance (n : Nat) (r : ρ)

namespace Machine

def step (s : Machine ρ ε κ σ α) : Move ρ ε κ σ α → Machine ρ ε κ σ α
  | .setenv e => { s with globals := { s.globals with environ := e } }
  | .start m => { s with threads := s.threads ++ [m] }
  | .advance n r =>
    match s.threads[n]? with
    | some m =>
      { globals := (m.step routine n r s.globals).2
        threads := s.threads.set n (m.step routine n r s.globals).1 }
    | none => s

def run (s : Machine ρ ε κ σ α) (moves : List (Move ρ ε κ σ α)) : Machine ρ ε κ σ α :=
  moves.foldl (step routine) s

/-- The environments in front of the moves of a run. -/
def environs (s : Machine ρ ε κ σ α) : List (Move ρ ε κ σ α) → List ε
  | [] => []
  | mv :: moves => s.globals.environ :: (s.step routine mv).environs moves

/-- A process before its first thread: no cell is filled. -/
def fresh (e : ε) (value₀ : ∀ i, κ i) : Machine ρ ε κ σ α where
  globals := { environ := e, control := fun _ => .idle, value := value₀, reads := [] }
  threads := []

end Machine

namespace Move

/-- The jobs that are started, in this order. -/
def started : List (Move ρ ε κ σ α) → List (Job ρ κ σ α)
  | [] => []
  | .start m :: moves => m :: started moves
  | _ :: moves => started moves

/-- The worlds of the steps of the thread `n`. -/
def worlds (n : Nat) : List (Move ρ ε κ σ α) → List ρ
  | [] => []
  | .advance n' r :: moves => if n' = n then r :: worlds n moves else worlds n moves
  | _ :: moves => worlds n moves

end Move

section Runs

variable {routine} {s : Machine ρ ε κ σ α} {moves moves' : List (Move ρ ε κ σ α)}

theorem Machine.run_append :
    s.run routine (moves ++ moves') = (s.run routine moves).run routine moves' :=
  List.foldl_append ..

theorem Machine.environs_append :
    s.environs routine (moves ++ moves') =
      s.environs routine moves ++ (s.run routine moves).environs routine moves' := by
  induction moves generalizing s with
  | nil => rfl
  | cons mv moves ih => exact congrArg (s.globals.environ :: ·) ih

omit [DecidableEq ι] in
theorem Move.started_append : Move.started (moves ++ moves') =
    Move.started moves ++ Move.started moves' := by
  induction moves with
  | nil => rfl
  | cons mv moves ih =>
    cases mv with
    | start m => exact congrArg (m :: ·) ih
    | setenv | advance => exact ih

omit [DecidableEq ι] in
theorem Move.worlds_append (n : Nat) : Move.worlds n (moves ++ moves') =
    Move.worlds n moves ++ Move.worlds n moves' := by
  induction moves with
  | nil => rfl
  | cons mv moves ih =>
    cases mv with
    | advance n' r =>
      simp only [List.cons_append, worlds, ih]
      split <;> rfl
    | setenv | start => exact ih

theorem Job.Steps.environ {n : Nat} {r : ρ} {m m' : Job ρ κ σ α} {g g' : Globals ε κ σ}
    (h : Job.Steps routine n r m g m' g') : g'.environ = g.environ := by
  cases h <;> rfl

theorem Machine.environ_step {mv : Move ρ ε κ σ α} (h : ∀ e, mv ≠ .setenv e) :
    (s.step routine mv).globals.environ = s.globals.environ := by
  cases mv with
  | setenv e => exact absurd rfl (h e)
  | start m => rfl
  | advance n r =>
    rw [Machine.step]
    cases s.threads[n]? with
    | none => rfl
    | some m => exact (Job.steps_step routine n r m s.globals).environ

/-- While nobody changes the environment, it stays. -/
theorem Machine.environs_const (h : ∀ e, Move.setenv e ∉ moves) :
    (∀ e ∈ s.environs routine moves, e = s.globals.environ) ∧
      (s.run routine moves).globals.environ = s.globals.environ := by
  induction moves generalizing s with
  | nil => exact ⟨fun e he => absurd he List.not_mem_nil, rfl⟩
  | cons mv moves ih =>
    have hstep : (s.step routine mv).globals.environ = s.globals.environ :=
      Machine.environ_step fun e he => h e (he ▸ List.mem_cons_self ..)
    obtain ⟨htrace, hend⟩ := ih (s := s.step routine mv) fun e he =>
      h e (List.mem_cons_of_mem _ he)
    refine ⟨fun e he => ?_, hend.trans hstep⟩
    rcases List.mem_cons.mp he with rfl | he
    · rfl
    · exact (htrace e he).trans hstep

end Runs

/-! ## Coherence -/

section Coherence

variable {value₀ : ∀ i, κ i} {trace trace' : List ε} {g g' : Globals ε κ σ} {i : ι}

/-- How far a cell has been filled, out of environments of the trace. -/
def FilledTo {κ : Type} (routine : Routine ε κ σ) (v₀ : κ) (trace : List ε) (v : κ) :
    Control ε κ σ → Prop
  | .idle => v = v₀
  | .running _ rest => rest.Safe ∧ ∃ seen, seen.Sublist trace ∧
      ∀ es w, rest.Fills v es w → routine.Fills v₀ (seen ++ es) w
  | .finished => ∃ seen, seen.Sublist trace ∧ routine.Fills v₀ seen v

omit [DecidableEq ι] in
theorem FilledTo.mono {κ : Type} {routine : Routine ε κ σ} {v₀ v : κ} {c : Control ε κ σ}
    (h : FilledTo routine v₀ trace v c) (hsub : trace.Sublist trace') :
    FilledTo routine v₀ trace' v c := by
  cases c with
  | idle => exact h
  | running owner rest =>
    obtain ⟨hsafe, seen, hseen, hrest⟩ := h
    exact ⟨hsafe, seen, hseen.trans hsub, hrest⟩
  | finished =>
    obtain ⟨seen, hseen, hfills⟩ := h
    exact ⟨seen, hseen.trans hsub, hfills⟩

/-- Every cell is filled as far as its control says, and what has been loaded
    of a cell is what it was filled with. -/
structure Sound (routine : ∀ i, Routine ε (κ i) σ) (value₀ : ∀ i, κ i) (trace : List ε)
    (g : Globals ε κ σ) : Prop where
  filled : ∀ i, FilledTo (routine i) (value₀ i) trace (g.value i) (g.control i)
  reads : ∀ i v, ⟨i, v⟩ ∈ g.reads → g.control i = .finished ∧ v = g.value i

variable {routine}

/-- The globals change in a cell that is not filled yet. -/
theorem Sound.of_cell (h : Sound routine value₀ trace g) (hsub : trace.Sublist trace')
    (hbusy : g.control i ≠ .finished)
    (hoff : ∀ j, j ≠ i → g'.control j = g.control j ∧ g'.value j = g.value j)
    (hreads : g'.reads = g.reads)
    (hcell : FilledTo (routine i) (value₀ i) trace' (g'.value i) (g'.control i)) :
    Sound routine value₀ trace' g' := by
  refine ⟨fun j => ?_, fun j v hv => ?_⟩
  · by_cases hj : j = i
    · subst hj
      exact hcell
    · rw [(hoff j hj).1, (hoff j hj).2]
      exact (h.filled j).mono hsub
  · rw [hreads] at hv
    obtain ⟨hfinished, hvalue⟩ := h.reads j v hv
    have hj : j ≠ i := by
      rintro rfl
      exact hbusy hfinished
    rw [(hoff j hj).1, (hoff j hj).2]
    exact ⟨hfinished, hvalue⟩

omit [DecidableEq ι] in
theorem Sound.mono (h : Sound routine value₀ trace g) (hsub : trace.Sublist trace') :
    Sound routine value₀ trace' g :=
  ⟨fun i => (h.filled i).mono hsub, h.reads⟩

/-- The cells that have been filled. -/
def Globals.Filled (g : Globals ε κ σ) (i : ι) : Prop := g.control i = .finished

theorem Globals.Filled.setControl {c : Control ε (κ i) σ} (hbusy : g.control i ≠ .finished) {j : ι}
    (hj : g.Filled j) : (g.setControl i c).Filled j := by
  have hne : j ≠ i := by
    rintro rfl
    exact hbusy hj
  exact (control_setControl_of_ne hne).trans hj

section Steps

variable {n : Nat} {r : ρ} {m m' : Job ρ κ σ α}

/-- A filled cell stays filled. -/
theorem Job.Steps.filled (hstep : Job.Steps routine n r m g m' g') {j : ι} (hj : g.Filled j) :
    g'.Filled j := by
  cases hstep with
  | ret | stop | look | load | wait | abort | pass => exact hj
  | enter hc | query hc | store hc | leave hc => exact hj.setControl (by simp [hc])

/-- And it keeps its value. -/
theorem Job.Steps.value_of_filled (hstep : Job.Steps routine n r m g m' g') {j : ι}
    (hj : g.Filled j) : g'.value j = g.value j := by
  cases hstep with
  | ret | stop | look | load | wait | abort | pass | enter | query | leave => rfl
  | @store i _ _ _ _ hc =>
    have hne : j ≠ i := by
      rintro rfl
      exact absurd (hc.symm.trans hj) (by simp)
    exact Globals.value_setValue_of_ne hne

/-- A step of a guarded job fills cells as their routines say, and loads
    nothing but what has been filled. -/
theorem Sound.steps (hsafe : ∀ i, (routine i).Safe) (h : Sound routine value₀ trace g)
    (hm : m.Guarded g.Filled) (hstep : Job.Steps routine n r m g m' g') :
    Sound routine value₀ (trace ++ [g.environ]) g' ∧ m'.Guarded g'.Filled := by
  have hsub : trace.Sublist (trace ++ [g.environ]) := List.sublist_append_left ..
  have hstay : m.Guarded g'.Filled := hm.mono fun _ => hstep.filled
  cases hstep with
  | ret | stop | wait => exact ⟨h.mono hsub, hm⟩
  | look => exact ⟨h.mono hsub, hm r⟩
  | abort => exact ⟨h.mono hsub, trivial⟩
  | @load i next =>
    -- the guard says that the cell is filled
    refine ⟨⟨(h.mono hsub).filled, fun j v hv => ?_⟩, hm.2 _⟩
    rcases List.mem_append.mp hv with hv | hv
    · exact h.reads j v hv
    · cases List.mem_singleton.mp hv
      exact ⟨hm.1, rfl⟩
  | @pass i _ _ hc =>
    refine ⟨h.mono hsub, Job.Guarded.mono (m := m') hm fun j hj => ?_⟩
    rcases hj with rfl | hj
    · exact hc
    · exact hj
  | @enter i next _ hc =>
    have hcell := h.filled i
    rw [hc] at hcell
    refine ⟨h.of_cell hsub (by simp [hc]) (fun j hj => ⟨Globals.control_setControl_of_ne hj, rfl⟩)
      rfl ?_, hstay⟩
    rw [Globals.control_setControl]
    refine ⟨hsafe i, [], List.nil_sublist _, fun es w hw => ?_⟩
    rwa [show (g.setControl i (.running n (routine i))).value i = value₀ i from hcell] at hw
  | @query i next _ k hc =>
    have hcell := h.filled i
    rw [hc] at hcell
    obtain ⟨hrestSafe, seen, hseen, hrest⟩ := hcell
    refine ⟨h.of_cell hsub (by simp [hc]) (fun j hj => ⟨Globals.control_setControl_of_ne hj, rfl⟩)
      rfl ?_, hstay⟩
    rw [Globals.control_setControl]
    -- the environment of this moment is the last that was seen
    refine ⟨hrestSafe _, seen ++ [g.environ], hseen.append (List.Sublist.refl _), fun es w hw => ?_⟩
    rw [List.append_assoc]
    exact hrest _ _ (.query hw)
  | @store i next _ f rest hc =>
    have hcell := h.filled i
    rw [hc] at hcell
    obtain ⟨hrestSafe, seen, hseen, hrest⟩ := hcell
    refine ⟨h.of_cell hsub (by simp [hc])
      (fun j hj => ⟨Globals.control_setControl_of_ne hj, Globals.value_setValue_of_ne hj⟩)
      rfl ?_, hstay⟩
    rw [Globals.value_setValue]
    show FilledTo _ _ _ _ ((g.setControl i (.running n rest)).control i)
    rw [Globals.control_setControl]
    exact ⟨hrestSafe, seen, hseen.trans hsub, fun es w hw => hrest _ _ (.store hw)⟩
  | @leave i _ _ hc =>
    have hcell := h.filled i
    rw [hc] at hcell
    obtain ⟨-, seen, hseen, hrest⟩ := hcell
    refine ⟨h.of_cell hsub (by simp [hc]) (fun j hj => ⟨Globals.control_setControl_of_ne hj, rfl⟩)
      rfl ?_, Job.Guarded.mono (m := m') hstay fun j hj => ?_⟩
    · rw [Globals.control_setControl]
      have hfills := hrest [] _ (.done _)
      rw [List.append_nil] at hfills
      exact ⟨seen, hseen.trans hsub, hfills⟩
    · rcases hj with rfl | hj
      · exact Globals.control_setControl
      · exact hj

/-- What a job computes over the filled cells is computed by its steps. -/
theorem Sound.evals (h : Sound routine value₀ trace g) (hm : m.Guarded g.Filled)
    (hstep : Job.Steps routine n r m g m' g') :
    ∃ ws, ws.Sublist [r] ∧ ∀ vals : ∀ i, κ i, (∀ i, g'.Filled i → vals i = g'.value i) →
      ∀ ws' x, m'.Evals vals ws' x → m.Evals vals (ws ++ ws') x := by
  have hnone : ([] : List ρ).Sublist [r] := List.nil_sublist _
  cases hstep with
  | ret | stop | wait | enter | query | store => exact ⟨[], hnone, fun _ _ _ _ hx => hx⟩
  | look => exact ⟨[r], List.Sublist.refl _, fun _ _ _ _ hx => .look hx⟩
  | pass | leave => exact ⟨[], hnone, fun _ _ _ _ hx => .once hx⟩
  | load =>
    refine ⟨[], hnone, fun vals hvals ws' x hx => .load ?_⟩
    rw [hvals _ hm.1]
    exact hx
  | @abort i _ _ e hc =>
    -- no routine stops
    have hcell := h.filled i
    rw [hc] at hcell
    exact absurd hcell.1 id

end Steps

/-! ## Coherent runs -/

namespace Machine

variable {s : Machine ρ ε κ σ α} {mv : Move ρ ε κ σ α} {moves : List (Move ρ ε κ σ α)}

/-- The globals are sound, and no thread is about to load what is not filled. -/
structure Coherent (routine : ∀ i, Routine ε (κ i) σ) (value₀ : ∀ i, κ i) (trace : List ε)
    (s : Machine ρ ε κ σ α) : Prop where
  sound : Sound routine value₀ trace s.globals
  guarded : ∀ m ∈ s.threads, m.Guarded s.globals.Filled

/-- The run starts guarded jobs only. -/
def Admissible (moves : List (Move ρ ε κ σ α)) : Prop :=
  ∀ m ∈ Move.started moves, m.Guarded fun _ => False

omit [DecidableEq ι] in
theorem coherent_fresh (e : ε) :
    Coherent routine value₀ [] (fresh e value₀ : Machine ρ ε κ σ α) where
  sound := ⟨fun _ => rfl, fun _ _ hv => absurd hv List.not_mem_nil⟩
  guarded _ hm := absurd hm List.not_mem_nil

theorem Coherent.step (hsafe : ∀ i, (routine i).Safe) (h : Coherent routine value₀ trace s)
    (hmv : Admissible [mv]) :
    Coherent routine value₀ (trace ++ [s.globals.environ]) (s.step routine mv) := by
  have hsub : trace.Sublist (trace ++ [s.globals.environ]) := List.sublist_append_left ..
  cases mv with
  | setenv e =>
    exact ⟨⟨fun i => (h.sound.filled i).mono hsub, h.sound.reads⟩, h.guarded⟩
  | start m =>
    refine ⟨h.sound.mono hsub, fun m' hm' => ?_⟩
    rcases List.mem_append.mp hm' with hm' | hm'
    · exact h.guarded m' hm'
    · rw [List.mem_singleton.mp hm']
      exact (hmv m (List.mem_singleton_self _)).mono fun _ hfalse => absurd hfalse id
  | advance n r =>
    rw [Machine.step]
    cases hget : s.threads[n]? with
    | none => exact ⟨h.sound.mono hsub, h.guarded⟩
    | some m =>
      have hstep := Job.steps_step routine n r m s.globals
      obtain ⟨hsound, hm⟩ := h.sound.steps hsafe (h.guarded m (List.mem_of_getElem? hget)) hstep
      refine ⟨hsound, fun m' hm' => ?_⟩
      rcases List.mem_or_eq_of_mem_set hm' with hm' | rfl
      · exact (h.guarded m' hm').mono fun _ => hstep.filled
      · exact hm

/-- In every run of guarded jobs, the cells are filled by their routines, from
    environments of the run, and all loads of a cell give what it is filled
    with. -/
theorem coherent_run (hsafe : ∀ i, (routine i).Safe) (e : ε) (hmoves : Admissible moves) :
    Coherent routine value₀ ((fresh e value₀).environs routine moves)
      ((fresh e value₀).run routine moves) := by
  induction moves using List.reverseRecOn with
  | nil => exact coherent_fresh e
  | append_singleton moves mv ih =>
    have hsplit : ∀ m, m ∈ Move.started moves ∨ m ∈ Move.started [mv] →
        m.Guarded fun _ => False := by
      intro m hm
      apply hmoves
      rw [Move.started_append]
      exact List.mem_append.mpr hm
    rw [environs_append, run_append]
    exact (ih fun m hm => hsplit m (Or.inl hm)).step hsafe fun m hm => hsplit m (Or.inr hm)

/-- The job `m'` is what the worlds `ws` have left of `m`: over the filled
    cells, `m` ends as `m'` does, when it has seen these worlds first. -/
def LeftOf (g : Globals ε κ σ) (m : Job ρ κ σ α) (ws : List ρ) (m' : Job ρ κ σ α) : Prop :=
  ∀ vals : ∀ i, κ i, (∀ i, g.Filled i → vals i = g.value i) →
    ∀ ws' x, m'.Evals vals ws' x → m.Evals vals (ws ++ ws') x

/-- The threads are what the moves have left of the jobs that they started. -/
structure Traced (moves : List (Move ρ ε κ σ α)) (s : Machine ρ ε κ σ α) : Prop where
  length : s.threads.length = (Move.started moves).length
  left : ∀ {n m'}, s.threads[n]? = some m' → ∃ m ws, (Move.started moves)[n]? = some m ∧
    ws.Sublist (Move.worlds n moves) ∧ LeftOf s.globals m ws m'

theorem Traced.step (hcoherent : Coherent routine value₀ trace s) (h : Traced moves s) :
    Traced (moves ++ [mv]) (s.step routine mv) := by
  -- the worlds of a thread that does not move now
  have hold : ∀ {n m'} {g' : Globals ε κ σ}, s.threads[n]? = some m' →
      (∀ i, s.globals.Filled i → g'.Filled i ∧ g'.value i = s.globals.value i) →
      ∃ m ws, (Move.started (moves ++ [mv]))[n]? = some m ∧
        ws.Sublist (Move.worlds n (moves ++ [mv])) ∧ LeftOf g' m ws m' := by
    intro n m' g' hget hg'
    obtain ⟨m, ws, hm, hws, hleft⟩ := h.left hget
    rw [Move.started_append, Move.worlds_append]
    refine ⟨m, ws, ?_, hws.trans (List.sublist_append_left ..), fun vals hvals => ?_⟩
    · rw [List.getElem?_append_left (List.getElem?_eq_some_iff.mp hm).1, hm]
    · exact hleft vals fun i hi => (hvals i (hg' i hi).1).trans (hg' i hi).2
  cases mv with
  | setenv e =>
    refine ⟨?_, fun hget => hold hget fun i hi => ⟨hi, rfl⟩⟩
    rw [Move.started_append, List.length_append]
    exact h.length
  | start m₀ =>
    refine ⟨?_, fun {n m'} hget => ?_⟩
    · rw [Move.started_append, List.length_append, ← h.length]
      exact List.length_append
    · by_cases hn : n < s.threads.length
      · rw [Machine.step, List.getElem?_append_left hn] at hget
        exact hold hget fun i hi => ⟨hi, rfl⟩
      · -- the new thread, of which everything is left
        have hlast : n = s.threads.length := by
          have hlt := (List.getElem?_eq_some_iff.mp hget).1
          simp only [Machine.step, List.length_append, List.length_singleton] at hlt
          omega
        subst hlast
        rw [Machine.step, List.getElem?_concat_length] at hget
        obtain rfl := Option.some.inj hget
        refine ⟨m₀, [], ?_, List.nil_sublist _, fun _ _ _ _ hx => hx⟩
        rw [Move.started_append, h.length]
        exact List.getElem?_concat_length
  | advance n₀ r =>
    have hstarted : Move.started (moves ++ [.advance n₀ r]) = Move.started moves := by
      rw [Move.started_append]
      exact List.append_nil _
    rw [Machine.step]
    cases hget₀ : s.threads[n₀]? with
    | none =>
      exact ⟨by rw [hstarted]; exact h.length, fun hget => hold hget fun i hi => ⟨hi, rfl⟩⟩
    | some m₁ =>
      have hstep := Job.steps_step routine n₀ r m₁ s.globals
      have hkept : ∀ i, s.globals.Filled i →
          (m₁.step routine n₀ r s.globals).2.Filled i ∧
            (m₁.step routine n₀ r s.globals).2.value i = s.globals.value i :=
        fun i hi => ⟨hstep.filled hi, hstep.value_of_filled hi⟩
      refine ⟨by rw [hstarted, ← h.length]; exact List.length_set .., fun {n m'} hget => ?_⟩
      by_cases hn : n₀ = n
      · -- the thread that moves: one step more
        subst hn
        have hlt := (List.getElem?_eq_some_iff.mp hget₀).1
        have hm' : (m₁.step routine n₀ r s.globals).1 = m' := by
          have : (s.threads.set n₀ (m₁.step routine n₀ r s.globals).1)[n₀]? = some m' := hget
          rw [List.getElem?_set_self hlt] at this
          exact Option.some.inj this
        obtain ⟨m, ws, hm, hws, hleft⟩ := h.left hget₀
        obtain ⟨ws₁, hws₁, hevals⟩ := hcoherent.sound.evals
          (hcoherent.guarded m₁ (List.mem_of_getElem? hget₀)) hstep
        refine ⟨m, ws ++ ws₁, by rw [hstarted, hm], ?_, fun vals hvals ws' x hx => ?_⟩
        · rw [Move.worlds_append]
          refine hws.append ?_
          simpa [Move.worlds] using hws₁
        · rw [List.append_assoc]
          refine hleft vals (fun i hi => ?_) _ _ (hevals vals hvals ws' x (hm' ▸ hx))
          exact (hvals i (hkept i hi).1).trans (hkept i hi).2
      · have hother : s.threads[n]? = some m' := by
          have : (s.threads.set n₀ (m₁.step routine n₀ r s.globals).1)[n]? = some m' := hget
          rwa [List.getElem?_set_ne hn] at this
        exact hold hother hkept

/-- In every run of guarded jobs, what is left of a job is left by worlds of
    its own steps. -/
theorem traced_run (hsafe : ∀ i, (routine i).Safe) (e : ε) (hmoves : Admissible moves) :
    Traced moves ((fresh e value₀).run routine moves) := by
  induction moves using List.reverseRecOn with
  | nil => exact ⟨rfl, fun hget => absurd hget (by simp [run, fresh])⟩
  | append_singleton moves mv ih =>
    have hmoves' : Admissible moves := by
      intro m hm
      apply hmoves
      rw [Move.started_append]
      exact List.mem_append_left _ hm
    rw [run_append]
    exact (ih hmoves').step (coherent_run hsafe e hmoves')

end Machine

end Coherence

end Once
