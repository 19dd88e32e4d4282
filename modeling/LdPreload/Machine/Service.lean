/-
  LdPreload.Machine.Service

  Services that take requests one after the other, each with an answer.  What
  relates the states of two services and makes them answer alike, request by
  request, makes them answer alike over whole runs (`run_rel`).
-/

import Mathlib

namespace Service

variable {S T Q A : Type*}

/-- The state behind a list of requests, and the answers to them. -/
def run (serve : S → Q → S × A) (s : S) : List Q → S × List A
  | [] => (s, [])
  | q :: qs =>
    let rest := run serve (serve s q).1 qs
    (rest.1, (serve s q).2 :: rest.2)

/-- Each request meets `P` in the state in which it is served. -/
def Meets (serve : S → Q → S × A) (P : S → Q → Prop) : S → List Q → Prop
  | _, [] => True
  | s, q :: qs => P s q ∧ Meets serve P (serve s q).1 qs

theorem run_concat (serve : S → Q → S × A) (s : S) (qs : List Q) (q : Q) :
    run serve s (qs ++ [q]) = ((serve (run serve s qs).1 q).1,
      (run serve s qs).2 ++ [(serve (run serve s qs).1 q).2]) := by
  induction qs generalizing s with
  | nil => rfl
  | cons q' qs ih =>
    rw [List.cons_append, run, ih]
    rfl

/-- Related services stay related, and answer alike. -/
theorem run_rel (serve : S → Q → S × A) (serve' : T → Q → T × A) (R : S → T → Prop)
    {P : S → Q → Prop} {s : S} {t : T} {qs : List Q}
    (hstep : ∀ s t q, R s t → P s q → R (serve s q).1 (serve' t q).1 ∧
      (serve s q).2 = (serve' t q).2)
    (h : R s t) (hP : Meets serve P s qs) :
    R (run serve s qs).1 (run serve' t qs).1 ∧ (run serve s qs).2 = (run serve' t qs).2 := by
  induction qs generalizing s t with
  | nil => exact ⟨h, rfl⟩
  | cons q qs ih =>
    obtain ⟨hnext, hanswer⟩ := hstep s t q h hP.1
    obtain ⟨hend, hanswers⟩ := ih hnext hP.2
    refine ⟨hend, ?_⟩
    show (serve s q).2 :: (run serve (serve s q).1 qs).2 =
      (serve' t q).2 :: (run serve' (serve' t q).1 qs).2
    rw [hanswer, hanswers]

end Service
