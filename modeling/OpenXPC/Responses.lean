import OpenXPC.GuardedRuns

/-! # Answers within a bound

A request is answered within a bound when every step of the party that answers makes a
measure smaller, and the steps of the others make it larger by a known amount at most. -/
namespace OpenXPC.Responses
open GuardedRuns

variable {σ α ε : Type*} {m : Machine σ α ε} {I : σ → Prop} {s s' : σ} {a : α}
  {tr tr' : List (α × Except ε σ)}

def total (cost : α → ℕ) : List (α × Except ε σ) → ℕ
  | [] => 0
  | p :: tr => cost p.1 + total cost tr

/-- The steps are paid for by the measure and the allowances. -/
theorem total_le {measure : σ → ℕ} {cost allowance : α → ℕ}
    (hstep : ∀ s a, I s → m.allowed s a → ∃ s', m.exec s a = .ok s' ∧ I s' ∧
      measure s' + cost a ≤ measure s + allowance a)
    (hr : Run m s tr) (hs : I s) : total cost tr ≤ measure s + total allowance tr := by
  induction hr with
  | nil s => exact Nat.zero_le _
  | @fault s a e ha he =>
    obtain ⟨s', hok, -⟩ := hstep s a hs ha
    rw [he] at hok
    cases hok
  | @step s s' a tr ha he ht ih =>
    obtain ⟨s₁, hok, hs₁, hpaid⟩ := hstep s a hs ha
    obtain rfl : s' = s₁ := Except.ok.inj (he.symm.trans hok)
    have hrest := ih hs₁
    simp only [total]
    omega

/-- A run is cut at one of its steps. -/
theorem exists_of_append (hstep : ∀ s a s', I s → m.allowed s a → m.exec s a = .ok s' → I s')
    (hr : Run m s (tr ++ (a, .ok s') :: tr')) (hs : I s) :
    ∃ s₀, I s₀ ∧ m.allowed s₀ a ∧ m.exec s₀ a = .ok s' ∧ Run m s' tr' := by
  induction tr generalizing s with
  | nil =>
    cases hr with
    | step ha he ht => exact ⟨s, hs, ha, he, ht⟩
  | cons p tr ih =>
    rw [List.cons_append] at hr
    generalize hrest : tr ++ (a, .ok s') :: tr' = rest at hr
    cases hr with
    | fault ha he => simp at hrest
    | step ha he ht =>
      subst hrest
      exact ih ht (hstep _ _ _ hs ha he)

theorem meets_of_forall {C : α → Prop} (h : ∀ p ∈ tr, C p.1) : Meets (fun _ a => C a) s tr := by
  induction tr generalizing s with
  | nil => trivial
  | cons p tr ih =>
    obtain ⟨hp, htr⟩ := List.forall_mem_cons.mp h
    obtain ⟨a, r⟩ := p
    cases r with
    | error e => exact hp
    | ok s' => exact ⟨hp, ih htr⟩

end OpenXPC.Responses
