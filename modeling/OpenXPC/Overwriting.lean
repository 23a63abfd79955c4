import Mathlib.Data.List.Basic
import Mathlib.Tactic.Common

/-! # Lists that are overwritten in place

A list stands for a block of cells. Writing replaces as many cells as are written, so
what lies before and behind them stays. -/
namespace OpenXPC.Overwriting

variable {α : Type*} {xs ys zs : List α} {i n : ℕ}

/-- The cells from `i` on are replaced by `ys`. -/
def overwrite (xs : List α) (i : ℕ) (ys : List α) : List α :=
  xs.take i ++ ys ++ xs.drop (i + ys.length)

theorem length_overwrite (h : i + ys.length ≤ xs.length) :
    (overwrite xs i ys).length = xs.length := by
  rw [overwrite, List.length_append, List.length_append, List.length_take, List.length_drop]
  omega

theorem take_overwrite_of_le (hi : i ≤ xs.length) (hn : n ≤ i) :
    (overwrite xs i ys).take n = xs.take n := by
  have hlen : n ≤ (xs.take i).length := by
    rw [List.length_take]
    omega
  rw [overwrite, List.append_assoc, List.take_append_of_le_length hlen, List.take_take,
    Nat.min_eq_left hn]

/-- The cells before the ones that are written, and the first of these. -/
theorem take_overwrite (hi : i ≤ xs.length) (hn : n ≤ ys.length) :
    (overwrite xs i ys).take (i + n) = xs.take i ++ ys.take n := by
  have hlen : (xs.take i).length = i := by
    rw [List.length_take]
    omega
  rw [overwrite, List.append_assoc, List.take_append, hlen, Nat.add_sub_cancel_left,
    List.take_append_of_le_length hn, List.take_of_length_le (by omega)]

theorem getElem?_overwrite_singleton {c : α} (h : i < xs.length) :
    (overwrite xs i [c])[i]? = some c := by
  have hlen : (xs.take i).length = i := by
    rw [List.length_take]
    omega
  rw [overwrite, List.append_assoc, List.getElem?_append_right (by omega), hlen, Nat.sub_self]
  rfl

end OpenXPC.Overwriting
