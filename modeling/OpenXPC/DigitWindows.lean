import Mathlib.Data.Nat.Digits.Defs
import Mathlib.Tactic.Ring

/-! # Digits out of a window

Digits to a base need not be smaller than it: a number still determines its digits,
once they are known to be as many and to lie in one window as wide as the base. With a
leading weight it determines how many they are, too. -/
namespace OpenXPC.DigitWindows
open Nat (ofDigits)

variable {b c d s : ℕ} {l m : List ℕ}

def InWindow (c w : ℕ) (l : List ℕ) : Prop := ∀ a ∈ l, c ≤ a ∧ a < c + w

theorem ofDigits_injective (hlen : l.length = m.length) (hl : InWindow c b l)
    (hm : InWindow c b m) (h : ofDigits b l = ofDigits b m) : l = m := by
  induction l generalizing m with
  | nil => exact (List.length_eq_zero_iff.mp hlen.symm).symm
  | cons a l ih =>
    cases m with
    | nil => cases hlen
    | cons a' m =>
      obtain ⟨ha, hrest⟩ := List.forall_mem_cons.mp hl
      obtain ⟨ha', hrest'⟩ := List.forall_mem_cons.mp hm
      obtain ⟨i, rfl⟩ := Nat.exists_eq_add_of_le ha.1
      obtain ⟨j, rfl⟩ := Nat.exists_eq_add_of_le ha'.1
      have hi : i < b := by omega
      have hj : j < b := by omega
      have hsum : i + b * ofDigits b l = j + b * ofDigits b m := by
        rw [Nat.ofDigits_cons, Nat.ofDigits_cons] at h
        omega
      have hij : i = j := by
        have hmod := congrArg (· % b) hsum
        simpa only [Nat.add_mul_mod_self_left, Nat.mod_eq_of_lt hi, Nat.mod_eq_of_lt hj] using hmod
      subst hij
      have htail : ofDigits b l = ofDigits b m :=
        Nat.eq_of_mul_eq_mul_left (Nat.zero_lt_of_lt hi) (Nat.add_left_cancel hsum)
      rw [ih (Nat.succ.inj hlen) hrest hrest' htail]

/-- A window one wider than the base holds two numerals of one number. -/
theorem ofDigits_carry (b c : ℕ) : ofDigits b [c + b, c] = ofDigits b [c, c + 1] := by
  simp only [Nat.ofDigits_cons, Nat.ofDigits_nil]
  ring

theorem ofDigits_add_le (hl : ∀ a ∈ l, a + d ≤ d * b) : ofDigits b l + d ≤ d * b ^ l.length := by
  induction l with
  | nil => simp
  | cons a l ih =>
    obtain ⟨ha, hl⟩ := List.forall_mem_cons.mp hl
    rw [Nat.ofDigits_cons]
    calc a + b * ofDigits b l + d = (a + d) + b * ofDigits b l := by ring
      _ ≤ d * b + b * ofDigits b l := Nat.add_le_add_right ha _
      _ = b * (ofDigits b l + d) := by ring
      _ ≤ b * (d * b ^ l.length) := Nat.mul_le_mul_left b (ih hl)
      _ = d * b ^ (a :: l).length := by rw [List.length_cons, pow_succ]; ring

/-- The digits below a weight in front of them. -/
def led (s b : ℕ) (l : List ℕ) : ℕ := s * b ^ l.length + ofDigits b l

theorem led_lt (hd : 0 < d) (hl : ∀ a ∈ l, a + d ≤ d * b) :
    led s b l < (s + d) * b ^ l.length := by
  have hle := ofDigits_add_le hl
  rw [led, Nat.add_mul]
  omega

theorem led_lt_of_length_lt (hb : 0 < b) (hd : 0 < d) (hgap : s + d ≤ s * b)
    (hl : ∀ a ∈ l, a + d ≤ d * b) (hlen : l.length < m.length) : led s b l < led s b m := by
  calc led s b l < (s + d) * b ^ l.length := led_lt hd hl
    _ ≤ s * b * b ^ l.length := Nat.mul_le_mul_right _ hgap
    _ = s * b ^ (l.length + 1) := by rw [pow_succ]; ring
    _ ≤ s * b ^ m.length := Nat.mul_le_mul_left s (Nat.pow_le_pow_right hb hlen)
    _ ≤ led s b m := Nat.le_add_right _ _

theorem led_injective (hb : 0 < b) (hd : 0 < d) (hgap : s + d ≤ s * b)
    (hld : ∀ a ∈ l, a + d ≤ d * b) (hmd : ∀ a ∈ m, a + d ≤ d * b) (hl : InWindow c b l)
    (hm : InWindow c b m) (h : led s b l = led s b m) : l = m := by
  have hlen : l.length = m.length := by
    rcases Nat.lt_trichotomy l.length m.length with hlt | heq | hlt
    · exact absurd h (Nat.ne_of_lt (led_lt_of_length_lt hb hd hgap hld hlt))
    · exact heq
    · exact absurd h.symm (Nat.ne_of_lt (led_lt_of_length_lt hb hd hgap hmd hlt))
  rw [led, led, hlen] at h
  exact ofDigits_injective hlen hl hm (Nat.add_left_cancel h)

end OpenXPC.DigitWindows
