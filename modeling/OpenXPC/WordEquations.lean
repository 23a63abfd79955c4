import Mathlib.Data.List.Basic
import Mathlib.Tactic.Common

/-! # Two images of a word

A word over pieces has two images, in which each piece stands for a word. Where the
images are equal, the first and the last piece with different meanings can be compared,
and so can the numbers of letters of a kind. -/
namespace OpenXPC.WordEquations

variable {α β : Type} {f g : α → List β} {ts : List α}

theorem exists_first_ne (heq : ts.flatMap f = ts.flatMap g) (hne : ∃ t ∈ ts, f t ≠ g t) :
    ∃ t ∈ ts, f t ≠ g t ∧ ∃ r r', f t ++ r = g t ++ r' := by
  induction ts with
  | nil =>
    obtain ⟨t, ht, -⟩ := hne
    cases ht
  | cons t ts ih =>
    rw [List.flatMap_cons, List.flatMap_cons] at heq
    by_cases ht : f t = g t
    · rw [ht] at heq
      obtain ⟨u, hu, hfu⟩ := hne
      have hrest : u ∈ ts := (List.mem_cons.mp hu).resolve_left (fun h => hfu (h ▸ ht))
      obtain ⟨v, hv, hdiffer⟩ := ih (List.append_cancel_left heq) ⟨u, hrest, hfu⟩
      exact ⟨v, List.mem_cons_of_mem t hv, hdiffer⟩
    · exact ⟨t, List.mem_cons_self, ht, _, _, heq⟩

/-- The first piece of the word read backwards. -/
theorem exists_last_ne (heq : ts.flatMap f = ts.flatMap g) (hne : ∃ t ∈ ts, f t ≠ g t) :
    ∃ t ∈ ts, f t ≠ g t ∧ ∃ r r', (f t).reverse ++ r = (g t).reverse ++ r' := by
  have hreverse := congrArg List.reverse heq
  rw [List.reverse_flatMap, List.reverse_flatMap] at hreverse
  obtain ⟨u, hu, hfu⟩ := hne
  obtain ⟨t, ht, hft, hdiffer⟩ := exists_first_ne hreverse
    ⟨u, List.mem_reverse.mpr hu, fun h => hfu (List.reverse_injective h)⟩
  exact ⟨t, List.mem_reverse.mp ht, fun h => hft (congrArg List.reverse h), hdiffer⟩

/-- What stands before the first occurrence of a letter. -/
theorem eq_of_append_cons_eq {a : β} {xs ys rs rs' : List β} (hxs : a ∉ xs) (hys : a ∉ ys)
    (heq : xs ++ a :: rs = ys ++ a :: rs') : xs = ys := by
  induction xs generalizing ys with
  | nil =>
    cases ys with
    | nil => rfl
    | cons y ys => exact absurd (List.cons.inj heq).1 (fun h => hys (h ▸ List.mem_cons_self))
  | cons x xs ih =>
    rw [List.mem_cons, not_or] at hxs
    cases ys with
    | nil => exact absurd (List.cons.inj heq).1.symm hxs.1
    | cons y ys =>
      rw [List.mem_cons, not_or] at hys
      obtain ⟨rfl, htail⟩ := List.cons.inj heq
      rw [ih hxs.2 hys.2 htail]

/-- When only two pieces have different meanings, their numbers weigh the letters. -/
theorem countP_balance [DecidableEq α] {a b : α} (hab : a ≠ b)
    (hfg : ∀ t, t ≠ a → t ≠ b → f t = g t) (p : β → Bool) (ts : List α) :
    (ts.flatMap f).countP p + (ts.count a * (g a).countP p + ts.count b * (g b).countP p) =
      (ts.flatMap g).countP p + (ts.count a * (f a).countP p + ts.count b * (f b).countP p) := by
  induction ts with
  | nil => simp
  | cons t ts ih =>
    simp only [List.flatMap_cons, List.countP_append]
    by_cases ha : t = a
    · subst ha
      rw [List.count_cons_self, List.count_cons_of_ne hab, Nat.succ_mul, Nat.succ_mul]
      omega
    · by_cases hb : t = b
      · subst hb
        rw [List.count_cons_self, List.count_cons_of_ne ha, Nat.succ_mul, Nat.succ_mul]
        omega
      · rw [List.count_cons_of_ne ha, List.count_cons_of_ne hb, hfg t ha hb]
        omega

theorem countP_eq_of_flatMap_eq [DecidableEq α] {a b : α} (hab : a ≠ b)
    (hfg : ∀ t, t ≠ a → t ≠ b → f t = g t) (heq : ts.flatMap f = ts.flatMap g) (p : β → Bool) :
    ts.count a * (g a).countP p + ts.count b * (g b).countP p =
      ts.count a * (f a).countP p + ts.count b * (f b).countP p := by
  have hbalance := countP_balance hab hfg p ts
  rw [heq] at hbalance
  exact Nat.add_left_cancel hbalance

end OpenXPC.WordEquations
