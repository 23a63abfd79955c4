import Mathlib.Algebra.BigOperators.Group.Finset.Basic
import Mathlib.Algebra.Ring.Nat

/-! # Sums of exclusive ors

Under exclusive or the machine words are a group in which every word is its own
negative. A sum in such a group keeps of every summand only the parity of its
occurrences. -/
namespace OpenXPC.XorSums

universe u v

variable {α : Type u} {M : Type v} [AddCommMonoid M]

section Parity

variable (hself : ∀ x : M, x + x = 0)
include hself

theorem nsmul_mod_two (n : ℕ) (x : M) : n • x = (n % 2) • x := by
  have hdouble : (2 * (n / 2)) • x = 0 := by rw [mul_nsmul, two_nsmul, hself, nsmul_zero]
  calc n • x = (2 * (n / 2) + n % 2) • x := by rw [Nat.div_add_mod]
    _ = (n % 2) • x := by rw [add_nsmul, hdouble, zero_add]

theorem nsmul_eq_of_parity {m n : ℕ} (h : m % 2 = n % 2) (x : M) : m • x = n • x := by
  rw [nsmul_mod_two hself m, nsmul_mod_two hself n, h]

variable [DecidableEq α]

theorem sum_map_eq_of_parity {l l' : List α} (h : ∀ a, l.count a % 2 = l'.count a % 2)
    (f : α → M) : (l.map f).sum = (l'.map f).sum := by
  have hover : ∀ (k : List α) (s : Finset α), k.toFinset ⊆ s →
      (k.map f).sum = ∑ a ∈ s, k.count a • f a := by
    intro k s hs
    rw [Finset.sum_list_map_count]
    refine Finset.sum_subset hs fun a _ ha => ?_
    rw [List.mem_toFinset] at ha
    rw [List.count_eq_zero_of_not_mem ha, zero_nsmul]
  rw [hover l (l.toFinset ∪ l'.toFinset) Finset.subset_union_left,
    hover l' (l.toFinset ∪ l'.toFinset) Finset.subset_union_right]
  apply Finset.sum_congr rfl
  intro a _
  exact nsmul_eq_of_parity hself (h a) (f a)

end Parity

/-- A machine word, added by exclusive or. -/
@[ext]
structure XorWord where
  word : UInt64
  deriving DecidableEq

namespace XorWord

instance : Add XorWord := ⟨fun a b => ⟨a.word ^^^ b.word⟩⟩

instance : Zero XorWord := ⟨⟨0⟩⟩

@[simp] theorem word_add (a b : XorWord) : (a + b).word = a.word ^^^ b.word := rfl

@[simp] theorem word_zero : (0 : XorWord).word = 0 := rfl

theorem mk_add (a b : UInt64) : (⟨a ^^^ b⟩ : XorWord) = ⟨a⟩ + ⟨b⟩ := rfl

instance : AddCommMonoid XorWord where
  add_assoc a b c := by
    apply XorWord.ext
    exact UInt64.xor_assoc a.word b.word c.word
  zero_add a := by
    apply XorWord.ext
    exact UInt64.zero_xor
  add_zero a := by
    apply XorWord.ext
    exact UInt64.xor_zero
  add_comm a b := by
    apply XorWord.ext
    exact UInt64.xor_comm a.word b.word
  nsmul := nsmulRec

theorem add_self (a : XorWord) : a + a = 0 := by
  apply XorWord.ext
  exact UInt64.xor_self

end XorWord

end OpenXPC.XorSums
