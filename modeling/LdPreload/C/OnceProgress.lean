/-
  LdPreload.C.OnceProgress

  Nobody waits for ever.  The thread that runs the routine of a cell is not
  waiting itself, so a process with a thread that has not ended has a thread
  that can go on (`exists_runnable`).  And there is only so much that threads
  can do: in a run of jobs of at most `d` steps each, the steps that are not
  spent waiting are bounded by the number of jobs and the lengths of the
  routines (`effort_run_le`).
-/

import LdPreload.C.OnceRoutine

namespace Once

variable {ρ ε σ α β ι : Type} {κ : ι → Type}

/-! ## Lengths -/

/-- At most `n` steps. -/
def Routine.Bounded {κ : Type} : Nat → Routine ε κ σ → Prop
  | _, .done => True
  | _, .stop _ => True
  | 0, _ => False
  | n + 1, .query next => ∀ e, (next e).Bounded n
  | n + 1, .store _ rest => rest.Bounded n

namespace Job

/-- At most `n` steps, not counting those in which a routine is run or waited
    for. -/
def Bounded : Nat → Job ρ κ σ α → Prop
  | _, .ret _ => True
  | _, .stop _ => True
  | 0, _ => False
  | n + 1, .look next => ∀ r, (next r).Bounded n
  | n + 1, .once _ next => next.Bounded n
  | n + 1, .load _ next => ∀ v, (next v).Bounded n

theorem Bounded.mono {m : Job ρ κ σ α} {n n' : Nat} (h : m.Bounded n) (hle : n ≤ n') :
    m.Bounded n' := by
  induction m generalizing n n' with
  | ret a => cases n' <;> trivial
  | stop e => cases n' <;> trivial
  | look next ih =>
    obtain _ | n := n
    · exact absurd h id
    obtain _ | n' := n'
    · omega
    exact fun r => ih r (h r) (by omega)
  | once i next ih =>
    obtain _ | n := n
    · exact absurd h id
    obtain _ | n' := n'
    · omega
    exact ih (show next.Bounded n from h) (by omega)
  | load i next ih =>
    obtain _ | n := n
    · exact absurd h id
    obtain _ | n' := n'
    · omega
    exact fun v => ih v (h v) (by omega)

/-- One job behind another takes the steps of both. -/
theorem Bounded.bind {m : Job ρ κ σ α} {g : α → Job ρ κ σ β} {n k : Nat} (hm : m.Bounded n)
    (hg : ∀ a, (g a).Bounded k) : (m >>= g).Bounded (n + k) := by
  show (m.bind g).Bounded (n + k)
  induction m generalizing n with
  | ret a => exact (hg a).mono (Nat.le_add_left ..)
  | stop e => cases n + k <;> trivial
  | look next ih =>
    obtain _ | n := n
    · exact absurd hm id
    rw [Nat.succ_add]
    exact fun r => ih r (hm r)
  | once i next ih =>
    obtain _ | n := n
    · exact absurd hm id
    rw [Nat.succ_add]
    exact ih (show next.Bounded n from hm)
  | load i next ih =>
    obtain _ | n := n
    · exact absurd hm id
    rw [Nat.succ_add]
    exact fun v => ih v (hm v)

/-- The job has come to its end. -/
def ended : Job ρ κ σ α → Bool
  | .ret _ | .stop _ => true
  | _ => false

/-- The thread `n` waits for another one to run a routine. -/
def waits (n : Nat) (g : Globals ε κ σ) : Job ρ κ σ α → Bool
  | .once i _ =>
    match g.control i with
    | .running owner _ => owner != n
    | _ => false
  | _ => false

theorem waits_once {n : Nat} {g : Globals ε κ σ} {i : ι} {next : Job ρ κ σ α} :
    (Job.once i next).waits n g = true ↔
      ∃ owner rest, g.control i = .running owner rest ∧ owner ≠ n := by
  rw [waits]
  cases g.control i with
  | idle | finished => simp
  | running owner rest =>
    simp only [bne_iff_ne]
    refine ⟨fun h => ⟨owner, rest, rfl, h⟩, ?_⟩
    rintro ⟨owner', rest', hc, hne⟩
    rwa [(Control.running.inj hc).1]

end Job

/-! ## Somebody can go on -/

namespace Machine

variable {s : Machine ρ ε κ σ α} {n : Nat} {m : Job ρ κ σ α}

/-- The thread `n` has not ended and does not wait. -/
def runnable (s : Machine ρ ε κ σ α) (n : Nat) : Bool :=
  match s.threads[n]? with
  | some m => !m.ended && !m.waits n s.globals
  | none => false

theorem runnable_of_getElem (hget : s.threads[n]? = some m) :
    s.runnable n = (!m.ended && !m.waits n s.globals) := by
  rw [runnable, hget]

/-- Whoever runs a routine is in the middle of asking for the cell. -/
def Owned (s : Machine ρ ε κ σ α) : Prop :=
  ∀ i owner rest, s.globals.control i = .running owner rest →
    ∃ next, s.threads[owner]? = some (.once i next)

/-- Where a thread has not ended, a thread can go on. -/
theorem Owned.exists_runnable (h : Owned s) (hm : m ∈ s.threads) (hended : m.ended = false) :
    ∃ n, s.runnable n = true := by
  obtain ⟨n, hn⟩ := List.mem_iff_getElem?.mp hm
  cases hwaits : m.waits n s.globals with
  | false => exact ⟨n, by rw [runnable_of_getElem hn, hended, hwaits]; rfl⟩
  | true =>
    -- the owner is at its `once`, and does not wait for itself
    cases m with
    | once i next =>
      obtain ⟨owner, rest, hc, -⟩ := Job.waits_once.mp hwaits
      obtain ⟨next', howner⟩ := h i owner rest hc
      have hself : (Job.once i next').waits owner s.globals = false := by
        rw [← Bool.not_eq_true, Job.waits_once]
        rintro ⟨owner', rest', hc', hne⟩
        exact hne (Control.running.inj (hc'.symm.trans hc)).1
      refine ⟨owner, ?_⟩
      rw [runnable_of_getElem howner, hself]
      rfl
    | ret | stop | look | load => exact absurd hwaits (by simp [Job.waits])

end Machine

section Progress

variable [DecidableEq ι] {routine : ∀ i, Routine ε (κ i) σ} {value₀ : ∀ i, κ i} {trace : List ε}
  {g g' : Globals ε κ σ} {n : Nat} {r : ρ} {m m' : Job ρ κ σ α}

/-- A step passes no routine on: one that is running afterwards is run by this
    thread, which asks for the cell, or was run by another one before. -/
theorem Job.Steps.owner (hstep : Job.Steps routine n r m g m' g')
    (hown : ∀ i rest, g.control i = .running n rest → ∃ next, m = .once i next)
    (hsafe : ∀ i e, g.control i ≠ .running n (.stop e)) {i : ι} {owner : Nat}
    {rest : Routine ε (κ i) σ} (hc : g'.control i = .running owner rest) :
    (owner = n ∧ ∃ next, m' = .once i next) ∨ owner ≠ n ∧ g.control i = .running owner rest := by
  -- where the control is the same, the owner is another thread or at its `once`
  have hsame : g.control i = .running owner rest → (∀ next, m ≠ .once i next) → owner ≠ n := by
    rintro hc hne rfl
    obtain ⟨next, hm⟩ := hown i rest hc
    exact hne next hm
  have hoff : ∀ {j : ι} {next : Job ρ κ σ α} {c : Control ε (κ j) σ}, m = .once j next → i ≠ j →
      (g.setControl j c).control i = .running owner rest →
        owner ≠ n ∧ g.control i = .running owner rest := by
    intro j next c hm hj hc
    rw [Globals.control_setControl_of_ne hj] at hc
    refine ⟨hsame hc fun next' hm' => hj ?_, hc⟩
    exact (Job.once.inj (hm'.symm.trans hm)).1
  cases hstep with
  | ret | stop | look | load =>
    exact Or.inr ⟨hsame hc fun next hm => absurd hm (by simp), hc⟩
  | @wait j next _ owner' rest' hj hne =>
    by_cases howner : owner = n
    · obtain ⟨next', hm⟩ := hown i rest (howner ▸ hc)
      exact Or.inl ⟨howner, next', hm⟩
    · exact Or.inr ⟨howner, hc⟩
  | @pass j _ _ hj =>
    refine Or.inr ⟨hsame hc ?_, hc⟩
    rintro next hm
    obtain rfl := (Job.once.inj hm).1
    exact absurd (hc.symm.trans hj) (by simp)
  | abort hj => exact absurd hj (hsafe _ _)
  | @leave j _ _ hj =>
    by_cases hij : i = j
    · subst hij
      rw [Globals.control_setControl] at hc
      exact absurd hc (by simp)
    · exact Or.inr (hoff rfl hij hc)
  | @enter j next _ hj | @query j next _ _ hj =>
    by_cases hij : i = j
    · subst hij
      rw [Globals.control_setControl] at hc
      exact Or.inl ⟨(Control.running.inj hc).1.symm, next, rfl⟩
    · exact Or.inr (hoff rfl hij hc)
  | @store j next _ f rest' hj =>
    replace hc : (g.setControl j (.running n rest')).control i = .running owner rest := hc
    by_cases hij : i = j
    · subst hij
      rw [Globals.control_setControl] at hc
      exact Or.inl ⟨(Control.running.inj hc).1.symm, next, rfl⟩
    · exact Or.inr (hoff rfl hij hc)

namespace Machine

variable {s : Machine ρ ε κ σ α} {mv : Move ρ ε κ σ α} {moves : List (Move ρ ε κ σ α)}

theorem Owned.step (hcoherent : Coherent routine value₀ trace s) (h : Owned s) :
    Owned (s.step routine mv) := by
  intro i owner rest hc
  cases mv with
  | setenv e => exact h i owner rest hc
  | start m =>
    obtain ⟨next, howner⟩ := h i owner rest hc
    refine ⟨next, ?_⟩
    rw [Machine.step, List.getElem?_append_left (List.getElem?_eq_some_iff.mp howner).1, howner]
  | advance n r =>
    rw [Machine.step] at hc ⊢
    cases hget : s.threads[n]? with
    | none =>
      rw [hget] at hc
      exact h i owner rest hc
    | some m =>
      rw [hget] at hc
      have hown : ∀ i rest, s.globals.control i = .running n rest → ∃ next, m = .once i next := by
        intro i rest hc
        obtain ⟨next, howner⟩ := h i n rest hc
        exact ⟨next, Option.some.inj (hget.symm.trans howner)⟩
      have hsafe : ∀ i e, s.globals.control i ≠ .running n (.stop e) := by
        intro i e hc
        have hfilled := hcoherent.sound.filled i
        rw [hc] at hfilled
        exact hfilled.1
      rcases (Job.steps_step routine n r m s.globals).owner hown hsafe hc with
        ⟨rfl, next, hm'⟩ | ⟨hne, hc'⟩
      · refine ⟨next, ?_⟩
        show (s.threads.set owner (m.step routine owner r s.globals).1)[owner]? = _
        rw [List.getElem?_set_self (List.getElem?_eq_some_iff.mp hget).1, hm']
      · obtain ⟨next, howner⟩ := h i owner rest hc'
        refine ⟨next, ?_⟩
        show (s.threads.set n (m.step routine n r s.globals).1)[owner]? = _
        rw [List.getElem?_set_ne (Ne.symm hne), howner]

/-- In every run, whoever runs a routine can go on with it. -/
theorem owned_run (hsafe : ∀ i, (routine i).Safe) (e : ε) (hmoves : Admissible moves) :
    Owned ((fresh e value₀).run routine moves) := by
  induction moves using List.reverseRecOn with
  | nil => exact fun i owner rest hc => absurd hc (by simp [run, fresh])
  | append_singleton moves mv ih =>
    have hmoves' : Admissible moves := by
      intro m hm
      apply hmoves
      rw [Move.started_append]
      exact List.mem_append_left _ hm
    have hcoherent : Coherent routine value₀ _ ((fresh e value₀).run routine moves) :=
      coherent_run hsafe e hmoves'
    rw [run_append]
    exact (ih hmoves').step hcoherent

end Machine

/-! ## There is only so much to do -/

omit [DecidableEq ι] in
/-- At most `k` steps are left of a control. -/
def Control.Bounded {κ : Type} (routine : Routine ε κ σ) (k : Nat) : Control ε κ σ → Prop
  | .idle => ∃ l, routine.Bounded l ∧ k = l + 2
  | .running _ rest => ∃ l, rest.Bounded l ∧ k = l + 1
  | .finished => True

/-- A step of a thread that neither has ended nor waits comes off what is left
    of the thread, or off what is left of a control. -/
theorem Job.Steps.bounded (hstep : Job.Steps routine n r m g m' g') (hended : m.ended = false)
    (hwaits : m.waits n g = false) {k : Nat} {c : ι → Nat} (hm : m.Bounded k)
    (hg : ∀ i, (g.control i).Bounded (routine i) (c i)) :
    ((∃ k', k' < k ∧ m'.Bounded k') ∧ ∀ i, (g'.control i).Bounded (routine i) (c i)) ∨
      m'.Bounded k ∧ ∃ i l, l < c i ∧
        ∀ j, (g'.control j).Bounded (routine j) (Function.update c i l j) := by
  have hupdate : ∀ {i : ι} {c' : Control ε (κ i) σ} {l : Nat}, c'.Bounded (routine i) l →
      ∀ j, ((g.setControl i c').control j).Bounded (routine j) (Function.update c i l j) := by
    intro i c' l hc' j
    by_cases hj : j = i
    · subst hj
      rw [Globals.control_setControl, Function.update_self]
      exact hc'
    · rw [Globals.control_setControl_of_ne hj, Function.update_of_ne hj]
      exact hg j
  -- a job that is not at its end has a step left
  have hless : ∀ {m' : Job ρ κ σ α}, (∀ k', m.Bounded (k' + 1) → m'.Bounded k') →
      (∃ k', k' < k ∧ m'.Bounded k') := by
    intro m' hnext
    obtain _ | k := k
    · cases m with
      | ret | stop => exact absurd hended (by simp [ended])
      | look | once | load => exact absurd hm id
    · exact ⟨k, Nat.lt_succ_self k, hnext k hm⟩
  cases hstep with
  | ret | stop => exact absurd hended (by simp [ended])
  | wait hc hne =>
    rw [← Bool.not_eq_true, waits_once] at hwaits
    exact absurd ⟨_, _, hc, hne⟩ hwaits
  | look => exact Or.inl ⟨hless fun k' h => h r, hg⟩
  | load => exact Or.inl ⟨hless fun k' h => h _, hg⟩
  | pass hc => exact Or.inl ⟨hless fun k' h => h, hg⟩
  | abort hc => exact Or.inl ⟨hless fun k' h => by cases k' <;> trivial, hg⟩
  | @leave i _ _ hc =>
    refine Or.inl ⟨hless fun k' h => h, fun j => ?_⟩
    have hfinished : (Control.finished : Control ε (κ i) σ).Bounded (routine i) (c i) := trivial
    have hj := hupdate hfinished j
    rwa [Function.update_eq_self] at hj
  | @enter i next _ hc =>
    have hi := hg i
    rw [hc] at hi
    obtain ⟨l, hl, hci⟩ := hi
    exact Or.inr ⟨hm, i, l + 1, by omega, hupdate ⟨l, hl, rfl⟩⟩
  | @query i next _ e hc =>
    have hi := hg i
    rw [hc] at hi
    obtain ⟨l, hl, hci⟩ := hi
    obtain _ | l := l
    · exact absurd hl id
    · exact Or.inr ⟨hm, i, l + 1, by omega, hupdate ⟨l, hl _, rfl⟩⟩
  | @store i next _ f rest hc =>
    have hi := hg i
    rw [hc] at hi
    obtain ⟨l, hl, hci⟩ := hi
    obtain _ | l := l
    · exact absurd hl id
    · exact Or.inr ⟨hm, i, l + 1, by omega, hupdate ⟨l, hl, rfl⟩⟩

namespace Machine

variable {s : Machine ρ ε κ σ α} {mv : Move ρ ε κ σ α} {moves : List (Move ρ ε κ σ α)}

/-- A thread that has ended or waits does nothing. -/
theorem step_of_not_runnable (h : s.runnable n = false) : s.step routine (.advance n r) = s := by
  rw [step]
  cases hget : s.threads[n]? with
  | none => rfl
  | some m =>
    rw [runnable_of_getElem hget, Bool.and_eq_false_iff, Bool.not_eq_false', Bool.not_eq_false']
      at h
    have hstep : m.step routine n r s.globals = (m, s.globals) := by
      cases m with
      | ret | stop => rfl
      | look | load => exact absurd h (by simp [Job.ended, Job.waits])
      | once i next =>
        obtain ⟨owner, rest, hc, hne⟩ := Job.waits_once.mp (h.resolve_left (by simp [Job.ended]))
        rw [Job.step, hc, Job.stepOnce, if_neg hne]
    have hset : s.threads.set n m = s.threads := by
      obtain ⟨hlt, rfl⟩ := List.getElem?_eq_some_iff.mp hget
      exact List.set_getElem_self hlt
    simp only [hstep, hset]

/-- The steps of a run that are not spent waiting. -/
def effort (routine : ∀ i, Routine ε (κ i) σ) (s : Machine ρ ε κ σ α) :
    List (Move ρ ε κ σ α) → Nat
  | [] => 0
  | .advance n r :: moves =>
    (s.runnable n).toNat + effort routine (s.step routine (.advance n r)) moves
  | mv :: moves => effort routine (s.step routine mv) moves

/-- What the threads and the controls have left. -/
structure Costs (routine : ∀ i, Routine ε (κ i) σ) (s : Machine ρ ε κ σ α) (t : Nat → Nat)
    (c : ι → Nat) : Prop where
  threads : ∀ {n : Nat} {m : Job ρ κ σ α}, s.threads[n]? = some m → m.Bounded (t n)
  controls : ∀ i, (s.globals.control i).Bounded (routine i) (c i)

variable [Fintype ι] {t : Nat → Nat} {c : ι → Nat}

/-- All of it. -/
def total (s : Machine ρ ε κ σ α) (t : Nat → Nat) (c : ι → Nat) : Nat :=
  ∑ n ∈ Finset.range s.threads.length, t n + ∑ i, c i

theorem Costs.start {d : Nat} (h : Costs routine s t c) (hm : m.Bounded d) :
    ∃ t', Costs routine (s.step routine (.start m)) t' c ∧
      (s.step routine (.start m)).total t' c = s.total t c + d := by
  refine ⟨Function.update t s.threads.length d, ⟨fun {n m'} hget => ?_, h.controls⟩, ?_⟩
  · by_cases hn : n = s.threads.length
    · subst hn
      rw [step, List.getElem?_concat_length] at hget
      rw [Function.update_self, ← Option.some.inj hget]
      exact hm
    · have hlt := (List.getElem?_eq_some_iff.mp hget).1
      simp only [step, List.length_append, List.length_singleton] at hlt
      rw [step, List.getElem?_append_left (by omega)] at hget
      rw [Function.update_of_ne hn]
      exact h.threads hget
  · have hsum : ∑ n ∈ Finset.range s.threads.length, Function.update t s.threads.length d n =
        ∑ n ∈ Finset.range s.threads.length, t n :=
      Finset.sum_congr rfl fun n hn =>
        Function.update_of_ne (Nat.ne_of_lt (Finset.mem_range.mp hn)) ..
    simp only [total, step, List.length_append, List.length_singleton, Finset.sum_range_succ, hsum,
      Function.update_self]
    omega

/-- A step that is not spent waiting leaves less. -/
theorem Costs.advance (h : Costs routine s t c) (hrunnable : s.runnable n = true) :
    ∃ t' c', Costs routine (s.step routine (.advance n r)) t' c' ∧
      (s.step routine (.advance n r)).total t' c' < s.total t c := by
  rw [step]
  cases hget : s.threads[n]? with
  | none => exact absurd hrunnable (by simp [runnable, hget])
  | some m =>
    have hlt := (List.getElem?_eq_some_iff.mp hget).1
    rw [runnable_of_getElem hget, Bool.and_eq_true, Bool.not_eq_true', Bool.not_eq_true']
      at hrunnable
    have hthread : ∀ {k' : Nat}, (m.step routine n r s.globals).1.Bounded k' →
        ∀ {n' : Nat} {m' : Job ρ κ σ α},
          (s.threads.set n (m.step routine n r s.globals).1)[n']? = some m' →
            m'.Bounded (Function.update t n k' n') := by
      intro k' hk' n' m' hget'
      by_cases hn : n = n'
      · subst hn
        rw [List.getElem?_set_self hlt] at hget'
        rw [Function.update_self, ← Option.some.inj hget']
        exact hk'
      · rw [List.getElem?_set_ne hn] at hget'
        rw [Function.update_of_ne (Ne.symm hn)]
        exact h.threads hget'
    rcases (Job.steps_step routine n r m s.globals).bounded hrunnable.1 hrunnable.2
      (h.threads hget) h.controls with ⟨⟨k', hk', hm'⟩, hcontrols⟩ | ⟨hm', i, l, hl, hcontrols⟩
    · refine ⟨Function.update t n k', c, ⟨hthread hm', hcontrols⟩, ?_⟩
      have hsum : ∑ j ∈ Finset.range s.threads.length, Function.update t n k' j <
          ∑ j ∈ Finset.range s.threads.length, t j := by
        refine Finset.sum_lt_sum (fun j _ => ?_) ⟨n, Finset.mem_range.mpr hlt, ?_⟩
        · by_cases hj : j = n
          · subst hj
            rw [Function.update_self]
            exact Nat.le_of_lt hk'
          · rw [Function.update_of_ne hj]
        · rw [Function.update_self]
          exact hk'
      simp only [total, List.length_set]
      omega
    · refine ⟨t, Function.update c i l, ⟨fun hget' => ?_, hcontrols⟩, ?_⟩
      · have hold := hthread hm' hget'
        rwa [Function.update_eq_self] at hold
      · have hsum : ∑ j, Function.update c i l j < ∑ j, c j := by
          refine Finset.sum_lt_sum (fun j _ => ?_) ⟨i, Finset.mem_univ i, ?_⟩
          · by_cases hj : j = i
            · subst hj
              rw [Function.update_self]
              exact Nat.le_of_lt hl
            · rw [Function.update_of_ne hj]
          · rw [Function.update_self]
            exact hl
        simp only [total, List.length_set]
        omega

/-- What a run does beside waiting, it had left, or has started. -/
theorem effort_le {d : Nat} (h : Costs routine s t c)
    (hmoves : ∀ m ∈ Move.started moves, m.Bounded d) :
    s.effort routine moves ≤ s.total t c + d * (Move.started moves).length := by
  induction moves generalizing s t c with
  | nil => exact Nat.zero_le _
  | cons mv moves ih =>
    cases mv with
    | setenv e => exact ih ⟨h.threads, h.controls⟩ hmoves
    | start m =>
      obtain ⟨t', h', htotal⟩ := h.start (hmoves m (List.mem_cons_self ..))
      have := ih h' fun m hm => hmoves m (List.mem_cons_of_mem _ hm)
      rw [htotal] at this
      simp only [effort, Move.started, List.length_cons]
      rw [Nat.mul_succ]
      omega
    | advance n r =>
      rw [effort]
      cases hrunnable : s.runnable n with
      | false =>
        rw [step_of_not_runnable hrunnable, Bool.toNat_false, Nat.zero_add]
        exact ih h hmoves
      | true =>
        obtain ⟨t', c', h', htotal⟩ := h.advance (r := r) hrunnable
        have := ih h' hmoves
        rw [Bool.toNat_true]
        simp only [Move.started]
        omega

/-- In every run of jobs of at most `d` steps, from the very start. -/
theorem effort_run_le {d : Nat} {l : ι → Nat} (hroutine : ∀ i, (routine i).Bounded (l i)) (e : ε)
    (hmoves : ∀ m ∈ Move.started moves, m.Bounded d) :
    (fresh e value₀).effort routine moves ≤
      ∑ i, (l i + 2) + d * (Move.started moves).length := by
  have hcosts : Costs routine (fresh e value₀ : Machine ρ ε κ σ α) (fun _ => 0) fun i => l i + 2 :=
    ⟨fun hget => absurd hget (by simp [fresh]), fun i => ⟨l i, hroutine i, rfl⟩⟩
  have hle := effort_le hcosts hmoves
  have htotal : (fresh e value₀ : Machine ρ ε κ σ α).total (fun _ => 0) (fun i => l i + 2) =
      ∑ i, (l i + 2) := by
    rw [total]
    exact Nat.zero_add _
  rwa [htotal] at hle

end Machine

end Progress

end Once
