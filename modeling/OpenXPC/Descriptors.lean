import Mathlib.Data.Int.Notation
import Mathlib.Logic.Function.Basic
import Mathlib.Tactic.Common

/-! # Closing descriptors

`close_fds_except` goes through the descriptor numbers from 3 to 1022 and closes each
that is not in the list, whatever is open. A descriptor is open when the table of the
process has a file for it; `close` of any other number is an error that is ignored. -/
namespace OpenXPC.Descriptors

/-- The open files of a process, by descriptor. -/
abbrev Table (File : Type) := ℕ → Option File

variable {File : Type} {table : Table File} {fds : List ℤ} {d i n : ℕ}

def IsOpen (table : Table File) (d : ℕ) : Prop := (table d).isSome

def close (table : Table File) (d : ℕ) : Table File := Function.update table d none

/-- The inner loop, which ends at the first descriptor that is `i`. -/
def present (i : ℤ) : List ℤ → Bool
  | [] => false
  | fd :: fds => if fd = i then true else present i fds

/-- The outer loop from `i` on, with the number of rounds that are left. -/
def closeFrom (fds : List ℤ) : ℕ → ℕ → Table File → Table File
  | 0, _, table => table
  | n + 1, i, table => closeFrom fds n (i + 1) (if present i fds then table else close table i)

/-- The table and the result, which is always 0. -/
def closeFdsExcept (fds : List ℤ) (table : Table File) : Table File × ℤ :=
  (closeFrom fds (1023 - 3) 3 table, 0)

/-- What is open after the call is what was open and is below 3 or in the list. -/
def KeepsOnly (fds : List ℤ) (table : Table File) : Prop :=
  ∀ d, IsOpen (closeFdsExcept fds table).1 d ↔ IsOpen table d ∧ (d < 3 ∨ (d : ℤ) ∈ fds)

theorem present_iff {i : ℤ} : present i fds = true ↔ i ∈ fds := by
  induction fds with
  | nil => simp [present]
  | cons fd fds ih =>
    rw [present, List.mem_cons]
    split_ifs with hfd
    · simp [hfd]
    · rw [ih, or_iff_right (Ne.symm hfd)]

/-- One round closes its own descriptor or none. -/
theorem round_apply (table : Table File) (fds : List ℤ) (i d : ℕ) :
    (if present i fds then table else close table i) d =
      if d = i ∧ (d : ℤ) ∉ fds then none else table d := by
  by_cases hi : (i : ℤ) ∈ fds
  · rw [if_pos (present_iff.mpr hi), if_neg]
    rintro ⟨rfl, hd⟩
    exact hd hi
  · rw [if_neg (mt present_iff.mp hi), close, Function.update_apply]
    by_cases hd : d = i
    · rw [if_pos hd, if_pos ⟨hd, hd ▸ hi⟩]
    · rw [if_neg hd, if_neg (fun h => hd h.1)]

/-- The rounds from `i` on close the descriptors in their range that are not listed. -/
theorem closeFrom_apply (fds : List ℤ) (n i : ℕ) (table : Table File) (d : ℕ) :
    closeFrom fds n i table d =
      if (i ≤ d ∧ d < i + n) ∧ (d : ℤ) ∉ fds then none else table d := by
  induction n generalizing i table with
  | zero =>
    rw [closeFrom, if_neg]
    omega
  | succ n ih =>
    rw [closeFrom, ih, round_apply]
    by_cases hmem : (d : ℤ) ∈ fds
    · simp [hmem]
    · simp only [hmem, not_false_eq_true, and_true]
      split_ifs <;> first | rfl | omega

theorem isOpen_closeFdsExcept : IsOpen (closeFdsExcept fds table).1 d ↔
    IsOpen table d ∧ (d < 3 ∨ (d : ℤ) ∈ fds ∨ 1023 ≤ d) := by
  simp only [IsOpen, closeFdsExcept, closeFrom_apply]
  split_ifs with hd
  · refine iff_of_false (by simp) (fun h => ?_)
    rcases h.2 with hlow | hmem | hhigh
    · omega
    · exact hd.2 hmem
    · omega
  · refine (and_iff_left ?_).symm
    by_contra hnot
    simp only [not_or] at hnot
    exact hd ⟨by omega, hnot.2.1⟩

/-- The call does what it promises if and only if every open descriptor beyond the
numbers it goes through is listed. -/
theorem keepsOnly_iff (fds : List ℤ) (table : Table File) :
    KeepsOnly fds table ↔ ∀ d, 1023 ≤ d → IsOpen table d → (d : ℤ) ∈ fds := by
  constructor
  · intro hkeeps d hd hopen
    have hafter := (hkeeps d).mp (isOpen_closeFdsExcept.mpr ⟨hopen, .inr (.inr hd)⟩)
    exact hafter.2.resolve_left (by omega)
  · intro hlisted d
    rw [isOpen_closeFdsExcept]
    constructor
    · rintro ⟨hopen, hd | hd | hd⟩
      · exact ⟨hopen, .inl hd⟩
      · exact ⟨hopen, .inr hd⟩
      · exact ⟨hopen, .inr (hlisted d hd hopen)⟩
    · rintro ⟨hopen, hd | hd⟩
      · exact ⟨hopen, .inl hd⟩
      · exact ⟨hopen, .inr (.inl hd)⟩

/-- The last of 1024 descriptors, open besides the first three. -/
def fourOpen : Table Unit := fun d => if d < 3 ∨ d = 1023 then some () else none

/-- With an empty list descriptor 1023 stays open. -/
theorem fourOpen_not_keepsOnly : ¬ KeepsOnly [] fourOpen := by
  intro hkeeps
  have hopen : IsOpen fourOpen 1023 := rfl
  have hstays := (@isOpen_closeFdsExcept _ fourOpen [] 1023).mpr
    ⟨hopen, .inr (.inr (Nat.le_refl _))⟩
  rcases ((hkeeps 1023).mp hstays).2 with hlow | hmem
  · omega
  · cases hmem

end OpenXPC.Descriptors
