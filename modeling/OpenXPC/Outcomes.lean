import Mathlib.Tactic.Common
import OpenXPC.GuardedRuns

/-! # Outcomes of fallible computations

A computation ends in a value or in an error. What it may end in is described by a
property of the values and a property of the errors. -/
namespace OpenXPC.Outcomes
open GuardedRuns

universe u v

variable {ε : Type u} {α β : Type v} {E E' : ε → Prop} {P Q : α → Prop} {R : β → Prop}

def Ends (E : ε → Prop) (P : α → Prop) : Except ε α → Prop
  | .ok a => P a
  | .error e => E e

@[simp] theorem ends_ok {a : α} : Ends E P (.ok a) ↔ P a := Iff.rfl

@[simp] theorem ends_error {e : ε} : Ends E P (.error e : Except ε α) ↔ E e := Iff.rfl

theorem Ends.mono {x : Except ε α} (h : Ends E P x) (hE : ∀ e, E e → E' e)
    (hP : ∀ a, P a → Q a) : Ends E' Q x := by
  cases x with
  | error e => exact hE e h
  | ok a => exact hP a h

theorem Ends.bind {x : Except ε α} {f : α → Except ε β} (h : Ends E P x)
    (hf : ∀ a, P a → Ends E R (f a)) : Ends E R (x >>= f) := by
  cases x with
  | error e => exact h
  | ok a => exact hf a h

theorem Ends.map {x : Except ε α} {f : α → β} (h : Ends E (fun a => R (f a)) x) :
    Ends E R (x.map f) := by
  cases x with
  | error e => exact h
  | ok a => exact h

theorem Ends.of_ok {x : Except ε α} {a : α} (h : Ends E P x) (hx : x = .ok a) : P a := by
  subst hx
  exact h

/-- A computation without an error to end in has a value. -/
theorem Ends.exists_ok {x : Except ε α} (h : Ends E P x) (hE : ∀ e, ¬ E e) :
    ∃ a, x = .ok a ∧ P a := by
  cases x with
  | error e => exact absurd h (hE e)
  | ok a => exact ⟨a, rfl, h⟩

theorem meets_and {C D : α → β → Prop} {s : α} {tr : List (β × Except ε α)} (hC : Meets C s tr)
    (hD : Meets D s tr) : Meets (fun s a => C s a ∧ D s a) s tr := by
  induction tr generalizing s with
  | nil => trivial
  | cons p tr ih =>
    obtain ⟨a, r⟩ := p
    cases r with
    | error e => exact ⟨hC, hD⟩
    | ok s' => exact ⟨⟨hC.1, hD.1⟩, ih hC.2 hD.2⟩

/-- What each step ends in, every step of a run ends in. -/
theorem Run.ends {m : Machine α β ε} {C : α → β → Prop}
    (hstep : ∀ s a, P s → m.allowed s a → C s a → Ends E P (m.exec s a)) {s : α}
    {tr : List (β × Except ε α)} (hr : Run m s tr) (hs : P s) (hc : Meets C s tr) :
    ∀ p ∈ tr, Ends E P p.2 := by
  induction hr with
  | nil s => simp
  | @fault s a e ha he =>
    intro p hp
    rw [List.mem_singleton.mp hp, ← he]
    exact hstep s a hs ha hc
  | @step s s' a tr ha he ht ih =>
    have hs' : Ends E P (.ok s') := he ▸ hstep s a hs ha hc.1
    intro p hp
    rcases List.mem_cons.mp hp with rfl | hp
    · exact hs'
    · exact ih hs' hc.2 p hp

end OpenXPC.Outcomes
