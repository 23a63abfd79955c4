import Mathlib.Tactic.Common

/-! # Runs of a fallible machine, with a condition on each step

A machine has a set of allowed actions in each state and an execution function
that either reaches a next state or faults. A run lists the actions taken with
the outcome of each. The two rules below carry an invariant through a run whose
steps all meet a condition, and turn a condition that is also necessary at each
single step into an exact description of the good runs. -/
namespace OpenXPC.GuardedRuns

structure Machine (σ α ε : Type*) where
  allowed : σ → α → Prop
  exec : σ → α → Except ε σ

variable {σ α ε : Type*}

/-- A run stops at its first fault. -/
inductive Run (m : Machine σ α ε) : σ → List (α × Except ε σ) → Prop
  | nil (s : σ) : Run m s []
  | fault {s : σ} {a : α} {e : ε} (ha : m.allowed s a) (he : m.exec s a = .error e) :
      Run m s [(a, .error e)]
  | step {s s' : σ} {a : α} {tr : List (α × Except ε σ)} (ha : m.allowed s a)
      (he : m.exec s a = .ok s') (ht : Run m s' tr) : Run m s ((a, .ok s') :: tr)

/-- Every action of the run is taken in a state that meets the condition. -/
def Meets (C : σ → α → Prop) : σ → List (α × Except ε σ) → Prop
  | _, [] => True
  | s, (a, .ok s') :: tr => C s a ∧ Meets C s' tr
  | s, (a, .error _) :: _ => C s a

theorem meets_true (s : σ) (tr : List (α × Except ε σ)) : Meets (fun _ _ => True) s tr := by
  induction tr generalizing s with
  | nil => trivial
  | cons p tr ih =>
    obtain ⟨a, r⟩ := p
    cases r with
    | error e => trivial
    | ok s' => exact ⟨trivial, ih s'⟩

/-- The outcome is a state, and the state has the property. -/
def Holds (G : σ → Prop) (r : Except ε σ) : Prop := ∃ s, r = .ok s ∧ G s

@[simp] theorem holds_ok {G : σ → Prop} {s : σ} : Holds G (Except.ok s : Except ε σ) ↔ G s := by
  simp [Holds]

@[simp] theorem not_holds_error {G : σ → Prop} {e : ε} : ¬ Holds G (.error e) := by
  simp [Holds]

theorem Run.holds {m : Machine σ α ε} {I G : σ → Prop} {C : σ → α → Prop}
    (hstep : ∀ s a, I s → m.allowed s a → C s a → ∃ s', m.exec s a = .ok s' ∧ I s')
    (hgood : ∀ s, I s → G s) {s : σ} {tr : List (α × Except ε σ)} (hr : Run m s tr)
    (hs : I s) (hc : Meets C s tr) : ∀ p ∈ tr, Holds G p.2 := by
  induction hr with
  | nil s => simp
  | @fault s a e ha he =>
    obtain ⟨s', hok, -⟩ := hstep s a hs ha hc
    rw [he] at hok
    cases hok
  | @step s s' a tr ha he ht ih =>
    obtain ⟨s'', hok, hs''⟩ := hstep s a hs ha hc.1
    obtain rfl : s' = s'' := Except.ok.inj (he.symm.trans hok)
    intro p hp
    rcases List.mem_cons.mp hp with rfl | hp
    · exact holds_ok.mpr (hgood s' hs'')
    · exact ih hs'' hc.2 p hp

/-- What an invariant gives for each single step, it gives along a run. -/
theorem Run.meets {m : Machine σ α ε} {I : σ → Prop} {C : σ → α → Prop}
    (hstep : ∀ s a s', I s → m.allowed s a → m.exec s a = .ok s' → I s')
    (hmeet : ∀ s a, I s → m.allowed s a → C s a) {s : σ} {tr : List (α × Except ε σ)}
    (hr : Run m s tr) (hs : I s) : Meets C s tr := by
  induction hr with
  | nil s => trivial
  | @fault s a e ha he => exact hmeet s a hs ha
  | @step s s' a tr ha he ht ih => exact ⟨hmeet s a hs ha, ih (hstep s a s' hs ha he)⟩

/-- An invariant of the steps holds in every state that a run reaches. -/
theorem Run.reached {m : Machine σ α ε} {I : σ → Prop}
    (hstep : ∀ s a s', I s → m.allowed s a → m.exec s a = .ok s' → I s') {s : σ}
    {tr : List (α × Except ε σ)} (hr : Run m s tr) (hs : I s) :
    ∀ p ∈ tr, ∀ s', p.2 = .ok s' → I s' := by
  induction hr with
  | nil s => exact fun p hp => absurd hp List.not_mem_nil
  | fault ha he =>
    intro p hp s' hs'
    rw [List.mem_singleton.mp hp] at hs'
    cases hs'
  | @step s s₁ a tr ha he ht ih =>
    have hs₁ := hstep s a s₁ hs ha he
    intro p hp s' hs'
    rcases List.mem_cons.mp hp with rfl | hp
    · cases hs'
      exact hs₁
    · exact ih hs₁ p hp s' hs'

/-- When a good outcome of one step forces the condition on that step, the good
runs are exactly the runs whose steps all meet it. -/
theorem Run.holds_iff_meets {m : Machine σ α ε} {I G : σ → Prop} {C : σ → α → Prop}
    (hstep : ∀ s a, I s → m.allowed s a → C s a → ∃ s', m.exec s a = .ok s' ∧ I s')
    (hgood : ∀ s, I s → G s)
    (hback : ∀ s a s', I s → m.allowed s a → m.exec s a = .ok s' → G s' → C s a)
    {s : σ} {tr : List (α × Except ε σ)} (hr : Run m s tr) (hs : I s) :
    (∀ p ∈ tr, Holds G p.2) ↔ Meets C s tr := by
  refine ⟨fun h => ?_, hr.holds hstep hgood hs⟩
  induction hr with
  | nil s => trivial
  | @fault s a e ha he => exact absurd (h _ List.mem_cons_self) not_holds_error
  | @step s s' a tr ha he ht ih =>
    have hg : G s' := holds_ok.mp (h _ List.mem_cons_self)
    have hc : C s a := hback s a s' hs ha he hg
    obtain ⟨s'', hok, hs''⟩ := hstep s a hs ha hc
    obtain rfl : s' = s'' := Except.ok.inj (he.symm.trans hok)
    exact ⟨hc, ih hs'' (fun p hp => h p (List.mem_cons_of_mem _ hp))⟩

/-- The same for a property of the states reached, where a fault says nothing against
a run. -/
theorem Run.reached_iff_meets {m : Machine σ α ε} {I G : σ → Prop} {C : σ → α → Prop}
    (hstep : ∀ s a s', I s → m.allowed s a → C s a → m.exec s a = .ok s' → I s')
    (hgood : ∀ s, I s → G s)
    (hfault : ∀ s a e, I s → m.allowed s a → m.exec s a = .error e → C s a)
    (hback : ∀ s a s', I s → m.allowed s a → m.exec s a = .ok s' → G s' → C s a)
    {s : σ} {tr : List (α × Except ε σ)} (hr : Run m s tr) (hs : I s) :
    (∀ p ∈ tr, ∀ s', p.2 = .ok s' → G s') ↔ Meets C s tr := by
  induction hr with
  | nil s => simp [Meets]
  | @fault s a e ha he => simpa [Meets] using hfault s a e hs ha he
  | @step s s' a tr ha he ht ih =>
    constructor
    · intro h
      have hg : G s' := h _ List.mem_cons_self s' rfl
      have hc : C s a := hback s a s' hs ha he hg
      exact ⟨hc, (ih (hstep s a s' hs ha hc he)).mp (fun p hp => h p (List.mem_cons_of_mem _ hp))⟩
    · intro hc p hp s'' hs''
      have hs' : I s' := hstep s a s' hs ha hc.1 he
      rcases List.mem_cons.mp hp with rfl | hp
      · cases hs''
        exact hgood s' hs'
      · exact (ih hs').mpr hc.2 p hp s'' hs''

end OpenXPC.GuardedRuns
