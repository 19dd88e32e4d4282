/-
  LdPreload.C.OnceCell

  A global that is filled on first use, as `pthread_once` does it, and the
  programs that read it.  A program either *consults* the cell, which fills it
  from the environment of that moment if nobody has done so yet, or *peeks*
  at whatever it holds.  Between two of its steps other threads may run, the
  environment may change, and so may the world that the program looks at.

  `Guarded` programs peek only after they have consulted.  For them the cell
  might as well be a constant: run alone they compute what `eval` says for the
  value in force (`exec_eq_eval`), and in any interleaving all values that any
  of them ever reads are one value, computed from the environment as it stood
  at the first consultation (`reads_of_run`).
-/

import Mathlib

namespace Once

/-- Programs over a cell of type `κ`.  They look at a world `ρ` and may stop
    with `σ`. -/
inductive Prog (ρ κ σ α : Type) where
  | ret (a : α)
  | stop (e : σ)
  | look (next : ρ → Prog ρ κ σ α)
  | consult (next : κ → Prog ρ κ σ α)
  | peek (next : κ → Prog ρ κ σ α)

variable {ρ ε κ σ α β : Type}

namespace Prog

def bind : Prog ρ κ σ α → (α → Prog ρ κ σ β) → Prog ρ κ σ β
  | ret a, g => g a
  | stop e, _ => stop e
  | look next, g => look fun r => (next r).bind g
  | consult next, g => consult fun k => (next k).bind g
  | peek next, g => peek fun k => (next k).bind g

instance : Monad (Prog ρ κ σ) where
  pure := ret
  bind := bind

/-- A computation without the cell. -/
def lift : Except σ α → Prog ρ κ σ α
  | .ok a => ret a
  | .error e => stop e

instance : MonadLift (Except σ) (Prog ρ κ σ) := ⟨lift⟩

end Prog

/-- The world as it is now. -/
def look : Prog ρ κ σ ρ := .look .ret

/-- The cell, filled if need be. -/
def consult : Prog ρ κ σ κ := .consult .ret

/-- The cell as it is, filled or not. -/
def peek : Prog ρ κ σ κ := .peek .ret

/-! ## Programs over a constant cell -/

/-- What a program computes in the world `r` when the cell holds `k`
    throughout. -/
def eval (r : ρ) (k : κ) : Prog ρ κ σ α → Except σ α
  | .ret a => .ok a
  | .stop e => .error e
  | .look next => eval r k (next r)
  | .consult next => eval r k (next k)
  | .peek next => eval r k (next k)

section Eval

variable {r : ρ} {k : κ}

@[simp] theorem eval_pure (a : α) : eval r k (pure a : Prog ρ κ σ α) = .ok a := rfl

@[simp] theorem eval_look : eval r k (look : Prog ρ κ σ ρ) = .ok r := rfl

@[simp] theorem eval_consult : eval r k (consult : Prog ρ κ σ κ) = .ok k := rfl

@[simp] theorem eval_peek : eval r k (peek : Prog ρ κ σ κ) = .ok k := rfl

@[simp] theorem eval_lift (x : Except σ α) : eval r k (liftM x : Prog ρ κ σ α) = x := by
  cases x <;> rfl

@[simp] theorem eval_bind (m : Prog ρ κ σ α) (g : α → Prog ρ κ σ β) :
    eval r k (m >>= g) = (eval r k m >>= fun a => eval r k (g a)) := by
  show eval r k (m.bind g) = _
  induction m with
  | ret a => rfl
  | stop e => rfl
  | look next ih => exact ih r
  | consult next ih => exact ih k
  | peek next ih => exact ih k

theorem eval_bind_ok {m : Prog ρ κ σ α} {a : α} (h : eval r k m = .ok a)
    (g : α → Prog ρ κ σ β) : eval r k (m >>= g) = eval r k (g a) := by
  rw [eval_bind, h]
  rfl

theorem eval_lift_bind_ok {x : Except σ α} {a : α} (h : x = .ok a) (g : α → Prog ρ κ σ β) :
    eval r k ((liftM x : Prog ρ κ σ α) >>= g) = eval r k (g a) :=
  eval_bind_ok (by rw [eval_lift, h]) g

end Eval

/-! ## Guarded programs -/

/-- The cell is only peeked at behind a consultation; `filled` tells that there
    has been one. -/
def Guarded : Bool → Prog ρ κ σ α → Prop
  | _, .ret _ => True
  | _, .stop _ => True
  | filled, .look next => ∀ r, Guarded filled (next r)
  | _, .consult next => ∀ k, Guarded true (next k)
  | filled, .peek next => filled = true ∧ ∀ k, Guarded filled (next k)

section Guarded

variable {filled : Bool}

theorem guarded_pure (a : α) : Guarded filled (pure a : Prog ρ κ σ α) := trivial

theorem guarded_look : Guarded filled (look : Prog ρ κ σ ρ) := fun _ => trivial

theorem guarded_peek : Guarded true (peek : Prog ρ κ σ κ) := ⟨rfl, fun _ => trivial⟩

theorem guarded_lift (x : Except σ α) : Guarded filled (liftM x : Prog ρ κ σ α) := by
  cases x <;> trivial

/-- A program that needs no consultation in front does not mind one. -/
theorem Guarded.after {m : Prog ρ κ σ α} (h : Guarded filled m) : Guarded true m := by
  -- a guard only ever asks for `filled`
  induction m generalizing filled with
  | ret a => trivial
  | stop e => trivial
  | look next ih => exact fun r => ih r (h r)
  | consult next ih => exact fun k => ih k (h k)
  | peek next ih => exact ⟨rfl, fun k => ih k (h.2 k)⟩

theorem Guarded.bind {m : Prog ρ κ σ α} {g : α → Prog ρ κ σ β} (hm : Guarded filled m)
    (hg : ∀ a, Guarded filled (g a)) : Guarded filled (m >>= g) := by
  show Guarded filled (m.bind g)
  induction m generalizing filled with
  | ret a => exact hg a
  | stop e => trivial
  | look next ih => exact fun r => ih r (hm r) hg
  -- behind the consultation `g` runs with the cell filled
  | consult next ih => exact fun k => ih k (hm k) fun a => (hg a).after
  | peek next ih => exact ⟨hm.1, fun k => ih k (hm.2 k) hg⟩

/-- Behind a consultation everything may peek. -/
theorem guarded_consult_bind {g : κ → Prog ρ κ σ β} (hg : ∀ k, Guarded true (g k)) :
    Guarded filled (consult >>= g) :=
  hg

end Guarded

/-! ## The cell -/

/-- A cell and the environment it is filled from.  `reads` is a ghost: all
    values that programs have read so far. -/
structure Cell (ε κ : Type) where
  environ : ε
  done : Bool
  value : κ
  reads : List κ

namespace Cell

/-- `pthread_once`: fill the cell unless that has been done. -/
def fill (init : ε → Except σ κ) (c : Cell ε κ) : Except σ (Cell ε κ) :=
  if c.done then
    .ok c
  else do
    let k ← init c.environ
    return { c with done := true, value := k }

def record (c : Cell ε κ) : Cell ε κ := { c with reads := c.reads ++ [c.value] }

/-- The value that a consultation finds or leaves. -/
def InForce (init : ε → Except σ κ) (c : Cell ε κ) (k : κ) : Prop :=
  if c.done then c.value = k else init c.environ = .ok k

theorem fill_of_inForce {init : ε → Except σ κ} {c : Cell ε κ} {k : κ} (h : c.InForce init k) :
    c.fill init = .ok { c with done := true, value := k } := by
  obtain ⟨environ, done, value, reads⟩ := c
  cases done with
  | true =>
    have hk : value = k := h
    rw [← hk]
    rfl
  | false =>
    have hk : init environ = .ok k := h
    show (init environ >>= fun k => _) = _
    rw [hk]
    rfl

end Cell

variable (init : ε → Except σ κ)

/-- One step of a program. -/
def Prog.step (r : ρ) : Prog ρ κ σ α → Cell ε κ → Prog ρ κ σ α × Cell ε κ
  | .ret a, c => (.ret a, c)
  | .stop e, c => (.stop e, c)
  | .look next, c => (next r, c)
  | .consult next, c =>
    match c.fill init with
    | .ok c' => (next c'.value, c'.record)
    | .error e => (.stop e, c)
  | .peek next, c => (next c.value, c.record)

/-- A program run to its end, alone and in one world. -/
def exec (r : ρ) : Prog ρ κ σ α → Cell ε κ → Except σ α × Cell ε κ
  | .ret a, c => (.ok a, c)
  | .stop e, c => (.error e, c)
  | .look next, c => exec r (next r) c
  | .consult next, c =>
    match c.fill init with
    | .ok c' => exec r (next c'.value) c'.record
    | .error e => (.error e, c)
  | .peek next, c => exec r (next c.value) c.record

/-- `exec` takes the steps of the program one after the other. -/
theorem exec_step (r : ρ) (m : Prog ρ κ σ α) (c : Cell ε κ) :
    exec init r (m.step init r c).1 (m.step init r c).2 = exec init r m c := by
  cases m with
  | ret a => rfl
  | stop e => rfl
  | look next => rfl
  | consult next =>
    rw [Prog.step, exec]
    cases c.fill init <;> rfl
  | peek next => rfl

variable {init}

/-- Alone, a guarded program computes what it computes over the value in
    force, and leaves that value in force. -/
theorem exec_eq_eval {r : ρ} {m : Prog ρ κ σ α} {c : Cell ε κ} {k : κ}
    (hm : Guarded c.done m) (hk : c.InForce init k) :
    (exec init r m c).1 = eval r k m ∧ (exec init r m c).2.InForce init k := by
  induction m generalizing c with
  | ret a => exact ⟨rfl, hk⟩
  | stop e => exact ⟨rfl, hk⟩
  | look next ih => exact ih r (hm r) hk
  | consult next ih =>
    rw [exec, Cell.fill_of_inForce hk]
    exact ih k (hm k) rfl
  | peek next ih =>
    -- the guard tells that the cell has been filled
    obtain ⟨hdone, hnext⟩ := hm
    have hvalue : c.value = k := by
      rw [Cell.InForce, hdone] at hk
      exact hk
    rw [exec, hvalue]
    refine ih k (hnext k) ?_
    rw [Cell.InForce, Cell.record, hdone]
    exact hvalue

/-! ## Runs of a system -/

/-- The threads that share a cell. -/
structure System (ρ ε κ σ α : Type) where
  cell : Cell ε κ
  threads : List (Prog ρ κ σ α)

inductive Event (ρ ε κ σ α : Type) where
  /-- The environment becomes `e`. -/
  | setenv (e : ε)
  /-- A thread starts the program `m`. -/
  | start (m : Prog ρ κ σ α)
  /-- Thread `i` takes one step in the world `r`. -/
  | advance (i : Nat) (r : ρ)

namespace System

variable (init) in
def step (s : System ρ ε κ σ α) : Event ρ ε κ σ α → System ρ ε κ σ α
  | .setenv e => { s with cell := { s.cell with environ := e } }
  | .start m => { s with threads := s.threads ++ [m] }
  | .advance i r =>
    match s.threads[i]? with
    | some m =>
      { cell := (m.step init r s.cell).2, threads := s.threads.set i (m.step init r s.cell).1 }
    | none => s

variable (init) in
def run (s : System ρ ε κ σ α) (events : List (Event ρ ε κ σ α)) : System ρ ε κ σ α :=
  events.foldl (step init) s

/-- Before the first consultation: nothing was read, and no thread is about to. -/
structure Fresh (s : System ρ ε κ σ α) : Prop where
  done : s.cell.done = false
  reads : s.cell.reads = []
  threads : ∀ m ∈ s.threads, Guarded false m

/-- After it: everything that was read is the value of the cell. -/
structure Settled (k : κ) (s : System ρ ε κ σ α) : Prop where
  done : s.cell.done = true
  value : s.cell.value = k
  reads : ∀ x ∈ s.cell.reads, x = k
  threads : ∀ m ∈ s.threads, Guarded true m

/-- Events start guarded programs only. -/
def Admissible (events : List (Event ρ ε κ σ α)) : Prop :=
  ∀ m, Event.start m ∈ events → Guarded false m

theorem guarded_of_mem_set {filled : Bool} {threads : List (Prog ρ κ σ α)} {i : Nat}
    {m' : Prog ρ κ σ α} (h : ∀ m ∈ threads, Guarded filled m) (hm' : Guarded filled m') :
    ∀ m ∈ threads.set i m', Guarded filled m := by
  intro m hm
  rcases List.mem_or_eq_of_mem_set hm with hm | rfl
  · exact h m hm
  · exact hm'

/-- A settled system stays settled, on the same value. -/
theorem Settled.step {k : κ} {s : System ρ ε κ σ α} (h : s.Settled k) {ev : Event ρ ε κ σ α}
    (hev : ∀ m, ev = .start m → Guarded false m) : (s.step init ev).Settled k := by
  obtain ⟨hdone, hvalue, hreads, hthreads⟩ := h
  cases ev with
  | setenv e => exact ⟨hdone, hvalue, hreads, hthreads⟩
  | start m =>
    refine ⟨hdone, hvalue, hreads, fun x hx => ?_⟩
    rcases List.mem_append.mp hx with hx | hx
    · exact hthreads x hx
    · rw [List.mem_singleton.mp hx]
      exact (hev m rfl).after
  | advance i r =>
    rw [System.step]
    cases hget : s.threads[i]? with
    | none => exact ⟨hdone, hvalue, hreads, hthreads⟩
    | some m =>
      have hm := hthreads m (List.mem_of_getElem? hget)
      -- both kinds of reads add the value of the cell to the ghost
      have hrecord : ∀ x ∈ s.cell.record.reads, x = k := by
        intro x hx
        rcases List.mem_append.mp hx with hx | hx
        · exact hreads x hx
        · rw [List.mem_singleton.mp hx, hvalue]
      cases m with
      | ret a => exact ⟨hdone, hvalue, hreads, guarded_of_mem_set hthreads trivial⟩
      | stop e => exact ⟨hdone, hvalue, hreads, guarded_of_mem_set hthreads trivial⟩
      | look next => exact ⟨hdone, hvalue, hreads, guarded_of_mem_set hthreads (hm r)⟩
      | peek next => exact ⟨hdone, hvalue, hrecord, guarded_of_mem_set hthreads (hm.2 _)⟩
      | consult next =>
        -- the cell is filled already, so the environment no longer counts
        have hfill : s.cell.fill init = .ok s.cell := if_pos hdone
        simp only [Prog.step, hfill]
        exact ⟨hdone, hvalue, hrecord, guarded_of_mem_set hthreads (hm _)⟩

theorem Settled.run {k : κ} {s : System ρ ε κ σ α} (h : s.Settled k)
    {events : List (Event ρ ε κ σ α)} (hev : Admissible events) :
    (s.run init events).Settled k := by
  induction events generalizing s with
  | nil => exact h
  | cons ev events ih =>
    refine ih (h.step fun m hm => hev m ?_) fun m hm => hev m (List.mem_cons_of_mem _ hm)
    rw [hm]
    exact List.mem_cons_self ..

/-- A fresh system stays fresh, or the event is a first consultation, which
    settles it on what the environment gives. -/
theorem Fresh.step {s : System ρ ε κ σ α} (h : s.Fresh) {ev : Event ρ ε κ σ α}
    (hev : ∀ m, ev = .start m → Guarded false m) :
    (s.step init ev).Fresh ∨
      ∃ i r next k, ev = .advance i r ∧ s.threads[i]? = some (.consult next) ∧
        init s.cell.environ = .ok k ∧ (s.step init ev).Settled k := by
  obtain ⟨hdone, hreads, hthreads⟩ := h
  cases ev with
  | setenv e => exact Or.inl ⟨hdone, hreads, hthreads⟩
  | start m =>
    refine Or.inl ⟨hdone, hreads, fun x hx => ?_⟩
    rcases List.mem_append.mp hx with hx | hx
    · exact hthreads x hx
    · rw [List.mem_singleton.mp hx]
      exact hev m rfl
  | advance i r =>
    rw [System.step]
    cases hget : s.threads[i]? with
    | none => exact Or.inl ⟨hdone, hreads, hthreads⟩
    | some m =>
      have hm := hthreads m (List.mem_of_getElem? hget)
      cases m with
      | ret a => exact Or.inl ⟨hdone, hreads, guarded_of_mem_set hthreads trivial⟩
      | stop e => exact Or.inl ⟨hdone, hreads, guarded_of_mem_set hthreads trivial⟩
      | look next => exact Or.inl ⟨hdone, hreads, guarded_of_mem_set hthreads (hm r)⟩
      -- a guarded thread does not peek before the first consultation
      | peek next => exact absurd hm.1 (by decide)
      | consult next =>
        cases hinit : init s.cell.environ with
        | error e =>
          -- the routine stops the thread, and the cell stays unfilled
          have hfill : s.cell.fill init = .error e := by
            rw [Cell.fill, hdone, hinit]
            rfl
          simp only [Prog.step, hfill]
          exact Or.inl ⟨hdone, hreads, guarded_of_mem_set hthreads trivial⟩
        | ok k =>
          -- the first consultation: the ghost was empty until now
          have hfill : s.cell.fill init = .ok { s.cell with done := true, value := k } := by
            rw [Cell.fill, hdone, hinit]
            rfl
          refine Or.inr ⟨i, r, next, k, rfl, hget, rfl, ?_⟩
          simp only [Prog.step, hfill]
          refine ⟨rfl, rfl, ?_, guarded_of_mem_set (fun x hx => (hthreads x hx).after) (hm k)⟩
          intro x hx
          simpa [Cell.record, hreads] using hx

/-- In every run of guarded programs, whatever is read is one value: the one
    that `init` gives for the environment at the first consultation. -/
theorem reads_of_run {s : System ρ ε κ σ α} (h : s.Fresh) {events : List (Event ρ ε κ σ α)}
    (hev : Admissible events) :
    (s.run init events).Fresh ∨
      ∃ pre post i r next k, events = pre ++ .advance i r :: post ∧ (s.run init pre).Fresh ∧
        (s.run init pre).threads[i]? = some (.consult next) ∧
        init (s.run init pre).cell.environ = .ok k ∧ (s.run init events).Settled k := by
  induction events generalizing s with
  | nil => exact Or.inl h
  | cons ev events ih =>
    have hhead : ∀ m, ev = .start m → Guarded false m := by
      intro m hm
      apply hev
      rw [hm]
      exact List.mem_cons_self ..
    have htail : Admissible events := fun m hm => hev m (List.mem_cons_of_mem _ hm)
    rcases (h.step hhead : (s.step init ev).Fresh ∨ _) with hfresh |
      ⟨i, r, next, k, rfl, hget, hinit, hsettled⟩
    · -- the first consultation is in the rest of the run, if there is one
      rcases ih hfresh htail with hend | ⟨pre, post, i, r, next, k, rfl, hpre, hget, hinit, hend⟩
      · exact Or.inl hend
      · exact Or.inr ⟨ev :: pre, post, i, r, next, k, rfl, hpre, hget, hinit, hend⟩
    · -- it is this event, and the system stays settled from here on
      exact Or.inr ⟨[], events, i, r, next, k, rfl, h, hget, hinit, hsettled.run htail⟩

end System

end Once
