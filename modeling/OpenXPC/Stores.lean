import Mathlib.Data.List.Basic
import Mathlib.Tactic.Common

/-! # Stores of blocks

A store is the sequence of the blocks of one kind that were ever allocated; the cell of
a block that has been freed is empty. No address is used twice. -/
namespace OpenXPC.Stores

structure Store (α : Type) where
  cells : List (Option α)

namespace Store

variable {α : Type} {s t u : Store α} {i j : ℕ} {a b : α}

def size (s : Store α) : ℕ := s.cells.length

def get (s : Store α) (i : ℕ) : Option α := (s.cells[i]?).join

def set (s : Store α) (i : ℕ) (a : α) : Store α := ⟨s.cells.set i (some a)⟩

def free (s : Store α) (i : ℕ) : Store α := ⟨s.cells.set i none⟩

def alloc (s : Store α) (a : α) : Store α := ⟨s.cells ++ [some a]⟩

@[simp] theorem size_set (s : Store α) (i : ℕ) (a : α) : (s.set i a).size = s.size := by
  simp [size, set]

@[simp] theorem size_free (s : Store α) (i : ℕ) : (s.free i).size = s.size := by
  simp [size, free]

@[simp] theorem size_alloc (s : Store α) (a : α) : (s.alloc a).size = s.size + 1 := by
  simp [size, alloc]

theorem lt_size_of_get (hi : s.get i = some a) : i < s.size := by
  by_contra hn
  have habsent : s.cells[i]? = none := List.getElem?_eq_none (Nat.le_of_not_gt hn)
  simp [get, habsent] at hi

theorem get_set (hi : s.get i = some b) (a : α) (j : ℕ) :
    (s.set i a).get j = if j = i then some a else s.get j := by
  have hlt : i < s.cells.length := lt_size_of_get hi
  by_cases hj : j = i
  · subst hj
    simp [get, set, hlt]
  · simp [get, set, hj, List.getElem?_set_ne (Ne.symm hj)]

theorem get_free (s : Store α) (i j : ℕ) : (s.free i).get j = if j = i then none else s.get j := by
  by_cases hj : j = i
  · subst hj
    by_cases hlt : j < s.cells.length <;> simp [get, free, hlt]
  · simp [get, free, hj, List.getElem?_set_ne (Ne.symm hj)]

theorem get_alloc (s : Store α) (a : α) (j : ℕ) :
    (s.alloc a).get j = if j = s.size then some a else s.get j := by
  rcases Nat.lt_trichotomy j s.cells.length with hj | hj | hj
  · have hne : j ≠ s.size := Nat.ne_of_lt hj
    simp [get, alloc, List.getElem?_append_left hj, hne]
  · simp [get, alloc, hj, size]
  · have hne : j ≠ s.size := Nat.ne_of_gt hj
    have hafter : s.cells[j]? = none := List.getElem?_eq_none (Nat.le_of_lt hj)
    simp [get, alloc, hne, hafter, List.getElem?_append_right (Nat.le_of_lt hj),
      List.getElem?_eq_none (l := [some a]) (Nat.le_sub_of_add_le' hj)]

theorem get_alloc_size (s : Store α) (a : α) : (s.alloc a).get s.size = some a := by
  rw [get_alloc, if_pos rfl]

theorem get_alloc_of_get (hi : s.get i = some b) (a : α) : (s.alloc a).get i = some b := by
  rw [get_alloc, if_neg (Nat.ne_of_lt (lt_size_of_get hi)), hi]

/-! ## Later stores -/

/-- The blocks of the first store are as they were. -/
structure Extends (s t : Store α) : Prop where
  size_le : s.size ≤ t.size
  old : ∀ i, i < s.size → t.get i = s.get i

namespace Extends

theorem refl (s : Store α) : Extends s s := ⟨Nat.le_refl _, fun _ _ => rfl⟩

theorem trans (h₁ : Extends s t) (h₂ : Extends t u) : Extends s u :=
  ⟨Nat.le_trans h₁.size_le h₂.size_le, fun i hi => by
    rw [h₂.old i (Nat.lt_of_lt_of_le hi h₁.size_le), h₁.old i hi]⟩

theorem get (h : Extends s t) (hi : s.get i = some a) : t.get i = some a := by
  rw [h.old i (lt_size_of_get hi), hi]

theorem alloc (h : Extends s t) (a : α) : Extends s (t.alloc a) := by
  refine ⟨by rw [size_alloc]; exact Nat.le_succ_of_le h.size_le, fun i hi => ?_⟩
  rw [get_alloc, if_neg (Nat.ne_of_lt (Nat.lt_of_lt_of_le hi h.size_le)), h.old i hi]

/-- A block that was not there is written. -/
theorem set (h : Extends s t) (hi : t.get i = some b) (hnew : s.size ≤ i) (a : α) :
    Extends s (t.set i a) := by
  refine ⟨by rw [size_set]; exact h.size_le, fun j hj => ?_⟩
  rw [get_set hi, if_neg (Nat.ne_of_lt (Nat.lt_of_lt_of_le hj hnew)), h.old j hj]

theorem free (h : Extends s t) (hnew : s.size ≤ i) : Extends s (t.free i) := by
  refine ⟨by rw [size_free]; exact h.size_le, fun j hj => ?_⟩
  rw [get_free, if_neg (Nat.ne_of_lt (Nat.lt_of_lt_of_le hj hnew)), h.old j hj]

end Extends

/-! ## Properties of all live blocks from an address on -/

def ForallFrom (lo : ℕ) (p : α → Prop) (s : Store α) : Prop := ∀ i a, lo ≤ i → s.get i = some a → p a

namespace ForallFrom

variable {lo : ℕ} {p : α → Prop}

theorem alloc (hs : s.ForallFrom lo p) (ha : p a) : (s.alloc a).ForallFrom lo p := by
  intro i b hlo hi
  rw [get_alloc] at hi
  split_ifs at hi
  · cases hi
    exact ha
  · exact hs i b hlo hi

theorem set (hs : s.ForallFrom lo p) (hi : s.get i = some b) (ha : p a) :
    (s.set i a).ForallFrom lo p := by
  intro j c hlo hj
  rw [get_set hi] at hj
  split_ifs at hj
  · cases hj
    exact ha
  · exact hs j c hlo hj

theorem free (hs : s.ForallFrom lo p) : (s.free i).ForallFrom lo p := by
  intro j c hlo hj
  rw [get_free] at hj
  split_ifs at hj
  exact hs j c hlo hj

end ForallFrom
end Store
end OpenXPC.Stores
