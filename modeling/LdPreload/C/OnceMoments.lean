/-
  LdPreload.C.OnceMoments

  Programs over a cell in a world that moves: every time a program looks, it
  may find another world (`Sees`).  `eval` has one world throughout, and the
  two agree for a program that depends on the world at one moment only.

  How much later looks matter is told up to a relation `R` of worlds that
  agree in what never changes.  A `Blind` program depends on nothing else; an
  `AtMoment` program is blind once it has looked for the first time.
-/

import LdPreload.C.OnceCell

namespace Once

variable {ρ κ σ α β : Type} {k : κ} {R : ρ → ρ → Prop} {r : ρ} {rs : List ρ} {x : Except σ α}

namespace Prog

/-- Over a cell that holds `k` throughout, a program ends with `x`, when it
    finds the worlds of the list one after the other. -/
inductive Sees (k : κ) : Prog ρ κ σ α → List ρ → Except σ α → Prop where
  | ret (a : α) : Sees k (.ret a) [] (.ok a)
  | stop (e : σ) : Sees k (.stop e) [] (.error e)
  | look {next : ρ → Prog ρ κ σ α} {r : ρ} {rs : List ρ} {x : Except σ α}
      (h : Sees k (next r) rs x) : Sees k (.look next) (r :: rs) x
  | consult {next : κ → Prog ρ κ σ α} {rs : List ρ} {x : Except σ α}
      (h : Sees k (next k) rs x) : Sees k (.consult next) rs x
  | peek {next : κ → Prog ρ κ σ α} {rs : List ρ} {x : Except σ α}
      (h : Sees k (next k) rs x) : Sees k (.peek next) rs x

/-- What two programs end with, one behind the other. -/
theorem sees_bind {m : Prog ρ κ σ α} {g : α → Prog ρ κ σ β} {y : Except σ β}
    (h : Sees k (m >>= g) rs y) :
    (∃ a rs₁ rs₂, rs = rs₁ ++ rs₂ ∧ Sees k m rs₁ (.ok a) ∧ Sees k (g a) rs₂ y) ∨
      ∃ e, y = .error e ∧ Sees k m rs (.error e) := by
  replace h : Sees k (m.bind g) rs y := h
  induction m generalizing rs with
  | ret a => exact Or.inl ⟨a, [], rs, rfl, .ret a, h⟩
  | stop e =>
    cases h
    exact Or.inr ⟨e, rfl, .stop e⟩
  | look next ih =>
    cases h with
    | look h =>
      rcases ih _ h with ⟨a, rs₁, rs₂, rfl, h₁, h₂⟩ | ⟨e, rfl, he⟩
      · exact Or.inl ⟨a, _ :: rs₁, rs₂, rfl, .look h₁, h₂⟩
      · exact Or.inr ⟨e, rfl, .look he⟩
  | consult next ih =>
    cases h with
    | consult h =>
      rcases ih _ h with ⟨a, rs₁, rs₂, rfl, h₁, h₂⟩ | ⟨e, rfl, he⟩
      · exact Or.inl ⟨a, rs₁, rs₂, rfl, .consult h₁, h₂⟩
      · exact Or.inr ⟨e, rfl, .consult he⟩
  | peek next ih =>
    cases h with
    | peek h =>
      rcases ih _ h with ⟨a, rs₁, rs₂, rfl, h₁, h₂⟩ | ⟨e, rfl, he⟩
      · exact Or.inl ⟨a, rs₁, rs₂, rfl, .peek h₁, h₂⟩
      · exact Or.inr ⟨e, rfl, .peek he⟩

theorem sees_pure {a b : α} (h : (pure a : Prog ρ κ σ α).Sees k rs (.ok b)) : rs = [] ∧ b = a := by
  cases h
  exact ⟨rfl, rfl⟩

theorem sees_map {m : Prog ρ κ σ α} {g : α → β} {b : β}
    (h : Sees k (m >>= fun a => pure (g a)) rs (.ok b)) : ∃ a, b = g a ∧ m.Sees k rs (.ok a) := by
  rcases sees_bind h with ⟨a, rs₁, rs₂, rfl, h₁, h₂⟩ | ⟨e, he, -⟩
  · obtain ⟨rfl, rfl⟩ := sees_pure h₂
    rw [List.append_nil]
    exact ⟨a, rfl, h₁⟩
  · exact absurd he (by simp)

theorem sees_error_of_map {m : Prog ρ κ σ α} {g : α → β} {e : σ}
    (h : Sees k (m >>= fun a => pure (g a)) rs (.error e)) : m.Sees k rs (.error e) := by
  rcases sees_bind h with ⟨a, rs₁, rs₂, rfl, -, h₂⟩ | ⟨e', he, h⟩
  · exact nomatch h₂
  · rwa [Except.error.inj he]

/-! ## What depends on the world -/

/-- Worlds that `R` relates are the same to the program, look by look. -/
def Blind (R : ρ → ρ → Prop) : Prog ρ κ σ α → Prop
  | .ret _ => True
  | .stop _ => True
  | .look next => (∀ r r', R r r' → next r = next r') ∧ ∀ r, (next r).Blind R
  | .consult next => ∀ k, (next k).Blind R
  | .peek next => ∀ k, (next k).Blind R

/-- Behind its first look, the program is blind. -/
def AtMoment (R : ρ → ρ → Prop) : Prog ρ κ σ α → Prop
  | .ret _ => True
  | .stop _ => True
  | .look next => ∀ r, (next r).Blind R
  | .consult next => ∀ k, (next k).AtMoment R
  | .peek next => ∀ k, (next k).AtMoment R

theorem blind_lift (x : Except σ α) : (liftM x : Prog ρ κ σ α).Blind R := by
  cases x <;> trivial

theorem Blind.bind {m : Prog ρ κ σ α} {g : α → Prog ρ κ σ β} (hm : m.Blind R)
    (hg : ∀ a, (g a).Blind R) : (m >>= g).Blind R := by
  show (m.bind g).Blind R
  induction m with
  | ret a => exact hg a
  | stop e => trivial
  | look next ih =>
    refine ⟨fun r r' hr => ?_, fun r => ih r (hm.2 r)⟩
    show (next r).bind g = (next r').bind g
    rw [hm.1 r r' hr]
  | consult next ih => exact fun k => ih k (hm k)
  | peek next ih => exact fun k => ih k (hm k)

theorem Blind.atMoment {m : Prog ρ κ σ α} (hm : m.Blind R) : m.AtMoment R := by
  induction m with
  | ret a => trivial
  | stop e => trivial
  | look next ih => exact hm.2
  | consult next ih => exact fun k => ih k (hm k)
  | peek next ih => exact fun k => ih k (hm k)

/-- The moment may come first. -/
theorem AtMoment.bind {m : Prog ρ κ σ α} {g : α → Prog ρ κ σ β} (hm : m.AtMoment R)
    (hg : ∀ a, (g a).Blind R) : (m >>= g).AtMoment R := by
  show (m.bind g).AtMoment R
  induction m with
  | ret a => exact (hg a).atMoment
  | stop e => trivial
  | look next ih => exact fun r => Blind.bind (hm r) hg
  | consult next ih => exact fun k => ih k (hm k)
  | peek next ih => exact fun k => ih k (hm k)

/-- At most `l` looks, and at most `c` reads of the cell. -/
def Uses : Nat → Nat → Prog ρ κ σ α → Prop
  | _, _, .ret _ => True
  | _, _, .stop _ => True
  | l + 1, c, .look next => ∀ r, (next r).Uses l c
  | l, c + 1, .consult next => ∀ k, (next k).Uses l c
  | l, c + 1, .peek next => ∀ k, (next k).Uses l c
  | _, _, _ => False

theorem uses_pure (l c : Nat) (a : α) : (pure a : Prog ρ κ σ α).Uses l c := by
  cases l <;> cases c <;> trivial

theorem uses_lift (l c : Nat) (x : Except σ α) : (liftM x : Prog ρ κ σ α).Uses l c := by
  cases x <;> cases l <;> cases c <;> trivial

theorem uses_lift_bind {x : Except σ α} {g : α → Prog ρ κ σ β} {l c : Nat}
    (hg : ∀ a, (g a).Uses l c) : ((liftM x : Prog ρ κ σ α) >>= g).Uses l c := by
  cases x with
  | ok a => exact hg a
  | error e => cases l <;> cases c <;> trivial

theorem uses_look_bind {g : ρ → Prog ρ κ σ β} {l c : Nat} (hg : ∀ r, (g r).Uses l c) :
    (Once.look >>= g).Uses (l + 1) c := hg

theorem uses_peek_bind {g : κ → Prog ρ κ σ β} {l c : Nat} (hg : ∀ k, (g k).Uses l c) :
    (Once.peek >>= g).Uses l (c + 1) := hg

theorem uses_consult_bind {g : κ → Prog ρ κ σ β} {l c : Nat} (hg : ∀ k, (g k).Uses l c) :
    (Once.consult >>= g).Uses l (c + 1) := hg

theorem Uses.mono {m : Prog ρ κ σ α} {l l' c c' : Nat} (h : m.Uses l c) (hl : l ≤ l')
    (hc : c ≤ c') : m.Uses l' c' := by
  induction m generalizing l l' c c' with
  | ret a => exact uses_pure l' c' a
  | stop e => cases l' <;> cases c' <;> trivial
  | look next ih =>
    obtain _ | l := l
    · cases c <;> exact absurd h id
    obtain _ | l' := l'
    · omega
    exact fun r => ih r (h r) (by omega) hc
  | consult next ih | peek next ih =>
    obtain _ | c := c
    · cases l <;> exact absurd h id
    obtain _ | c' := c'
    · omega
    exact fun k => ih k (h k) hl (by omega)

/-- One program behind another uses what both use. -/
theorem Uses.bind {m : Prog ρ κ σ α} {g : α → Prog ρ κ σ β} {l l' c c' : Nat} (hm : m.Uses l c)
    (hg : ∀ a, (g a).Uses l' c') : (m >>= g).Uses (l + l') (c + c') := by
  show (m.bind g).Uses (l + l') (c + c')
  induction m generalizing l c with
  | ret a => exact (hg a).mono (Nat.le_add_left ..) (Nat.le_add_left ..)
  | stop e => cases l + l' <;> cases c + c' <;> trivial
  | look next ih =>
    obtain _ | l := l
    · cases c <;> exact absurd hm id
    rw [Nat.succ_add]
    exact fun r => ih r (hm r)
  | consult next ih | peek next ih =>
    obtain _ | c := c
    · cases l <;> exact absurd hm id
    rw [Nat.succ_add]
    exact fun k => ih k (hm k)

/-- What only computes adds nothing. -/
theorem Uses.bind_local {m : Prog ρ κ σ α} {g : α → Prog ρ κ σ β} {l c : Nat} (hm : m.Uses l c)
    (hg : ∀ a, (g a).Uses 0 0) : (m >>= g).Uses l c :=
  hm.bind hg

/-- Who never looks is blind. -/
theorem Uses.blind {m : Prog ρ κ σ α} {c : Nat} (h : m.Uses 0 c) : m.Blind R := by
  induction m generalizing c with
  | ret a => trivial
  | stop e => trivial
  | look next ih => cases c <;> exact absurd h id
  | consult next ih | peek next ih =>
    obtain _ | c := c
    · exact absurd h id
    exact fun k => ih k (h k)

/-- Who looks at most once does so at one moment. -/
theorem Uses.atMoment {m : Prog ρ κ σ α} {c : Nat} (h : m.Uses 1 c) : m.AtMoment R := by
  induction m generalizing c with
  | ret a => trivial
  | stop e => trivial
  | look next ih => exact fun r => Uses.blind (c := c) (h r)
  | consult next ih | peek next ih =>
    obtain _ | c := c
    · exact absurd h id
    exact fun k => ih k (h k)

/-- The moment may come second, behind a program that never looks. -/
theorem Uses.bind_atMoment {m : Prog ρ κ σ α} {g : α → Prog ρ κ σ β} {c : Nat} (hm : m.Uses 0 c)
    (hg : ∀ a, (g a).AtMoment R) : (m >>= g).AtMoment R := by
  show (m.bind g).AtMoment R
  induction m generalizing c with
  | ret a => exact hg a
  | stop e => trivial
  | look next ih => cases c <;> exact absurd hm id
  | consult next ih | peek next ih =>
    obtain _ | c := c
    · exact absurd hm id
    exact fun k => ih k (hm k)

/-- The program does not return before it has looked. -/
def Looks : Prog ρ κ σ α → Prop
  | .ret _ => False
  | .stop _ => True
  | .look _ => True
  | .consult next => ∀ k, (next k).Looks
  | .peek next => ∀ k, (next k).Looks

theorem Looks.bind {m : Prog ρ κ σ α} {g : α → Prog ρ κ σ β} (hg : ∀ a, (g a).Looks) :
    (m >>= g).Looks := by
  show (m.bind g).Looks
  induction m with
  | ret a => exact hg a
  | stop e => trivial
  | look next ih => trivial
  | consult next ih | peek next ih => exact ih

/-! ## One world for all -/

theorem Sees.eq_eval_of_blind {m : Prog ρ κ σ α} (h : m.Sees k rs x) (hm : m.Blind R)
    (hrs : ∀ r' ∈ rs, R r' r) : x = eval r k m := by
  induction h with
  | ret a => rfl
  | stop e => rfl
  | @look next r' rs x h ih =>
    show x = eval r k (next r)
    rw [← hm.1 r' r (hrs r' (List.mem_cons_self ..))]
    exact ih (hm.2 r') fun r'' hr'' => hrs r'' (List.mem_cons_of_mem _ hr'')
  | consult h ih => exact ih (hm k) hrs
  | peek h ih => exact ih (hm k) hrs

/-- A program that depends on one moment might as well have been alone in the
    world of that moment.  Without a look, any moment will do. -/
theorem Sees.eq_eval {m : Prog ρ κ σ α} {rs' : List ρ} (h : m.Sees k rs x) (hm : m.AtMoment R)
    (hrs : ∀ r ∈ rs, ∀ r' ∈ rs, R r r') (hsub : rs ⊆ rs') (hne : rs' ≠ []) :
    ∃ r ∈ rs', x = eval r k m := by
  induction h with
  | ret a =>
    obtain ⟨r, hr⟩ := List.exists_mem_of_ne_nil _ hne
    exact ⟨r, hr, rfl⟩
  | stop e =>
    obtain ⟨r, hr⟩ := List.exists_mem_of_ne_nil _ hne
    exact ⟨r, hr, rfl⟩
  | @look next r rs x h ih =>
    exact ⟨r, hsub (List.mem_cons_self ..), h.eq_eval_of_blind (hm r) fun r' hr' =>
      hrs r' (List.mem_cons_of_mem _ hr') r (List.mem_cons_self ..)⟩
  | consult h ih => exact ih (hm k) hrs hsub
  | peek h ih => exact ih (hm k) hrs hsub

theorem Sees.ne_nil {m : Prog ρ κ σ α} {a : α} (h : m.Sees k rs (.ok a)) (hm : m.Looks) :
    rs ≠ [] := by
  generalize hx : (Except.ok a : Except σ α) = x at h
  induction h with
  | ret a => exact absurd hm id
  | stop e => exact absurd hx (by simp)
  | look h ih => exact List.cons_ne_nil _ _
  | consult h ih => exact ih (hm k) hx
  | peek h ih => exact ih (hm k) hx

end Prog

end Once
