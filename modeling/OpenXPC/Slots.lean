import Mathlib.Algebra.Order.BigOperators.Group.Finset
import Mathlib.Logic.Relation
import OpenXPC.Containers

/-! # Container slots

A slot is one position of a container: an element of an array or the value of a
pair. The references a heap holds are counted as sums over its live objects. -/
namespace OpenXPC

section Totals

variable {A : Type} (f : XpcObject A → ℕ)

def Heap.weight (h : Heap A) (x : ObjId) : ℕ := ((h.get x).map f).getD 0

/-- The sum of a weight over the live objects. -/
def Heap.total (h : Heap A) : ℕ := ∑ x ∈ Finset.range h.size, h.weight f x

variable {f}

theorem Heap.weight_of_get {h : Heap A} {x : ObjId} {o : XpcObject A} (hx : h.get x = some o) :
    h.weight f x = f o := by simp [weight, hx]

theorem Heap.exists_of_total_pos {h : Heap A} (hpos : 0 < h.total f) :
    ∃ x o, h.get x = some o ∧ 0 < f o := by
  obtain ⟨x, -, hx⟩ := Finset.sum_pos_iff.mp hpos
  cases hget : h.get x with
  | none => simp [weight, hget] at hx
  | some o => exact ⟨x, o, hget, by simpa [weight, hget] using hx⟩

theorem Heap.le_total {h : Heap A} {x : ObjId} {o : XpcObject A} (hx : h.get x = some o) :
    f o ≤ h.total f := by
  have hmem : x ∈ Finset.range h.size := Finset.mem_range.mpr (lt_size_of_get hx)
  rw [← weight_of_get (f := f) hx]
  exact Finset.single_le_sum (fun _ _ => Nat.zero_le _) hmem

/-- A change of one object changes the total by the change of its weight. -/
theorem Heap.total_change {h h' : Heap A} {x : ObjId} (hx : x < h.size) (hsize : h'.size = h.size)
    (hother : ∀ y, y ≠ x → h'.get y = h.get y) :
    h'.total f + h.weight f x = h.total f + h'.weight f x := by
  have hmem : x ∈ Finset.range h.size := Finset.mem_range.mpr hx
  have hrest : ∑ y ∈ (Finset.range h.size).erase x, h'.weight f y =
      ∑ y ∈ (Finset.range h.size).erase x, h.weight f y := by
    apply Finset.sum_congr rfl
    intro y hy
    simp only [weight, hother y (Finset.ne_of_mem_erase hy)]
  have hold := Finset.add_sum_erase (Finset.range h.size) (h.weight f) hmem
  have hnew := Finset.add_sum_erase (Finset.range h.size) (h'.weight f) hmem
  rw [total, total, hsize]
  omega

theorem Heap.total_set {h : Heap A} {x : ObjId} {old : XpcObject A} (hx : h.get x = some old)
    (o : XpcObject A) : (h.set x o).total f + f old = h.total f + f o := by
  have hchange := total_change (f := f) (lt_size_of_get hx) (size_set h x o)
    (fun y hy => by rw [get_set hx, if_neg hy])
  rwa [weight_of_get hx, weight_of_get (o := o) (by rw [get_set hx, if_pos rfl])] at hchange

theorem Heap.total_alloc (h : Heap A) (o : XpcObject A) :
    (h.alloc o).1.total f = h.total f + f o := by
  rw [total, size_alloc, Finset.sum_range_succ, total]
  congr 1
  · apply Finset.sum_congr rfl
    intro y hy
    have hne : y ≠ h.size := Nat.ne_of_lt (Finset.mem_range.mp hy)
    rw [weight, get_alloc, if_neg hne, weight]
  · exact weight_of_get (by rw [get_alloc, if_pos rfl])

theorem Heap.total_mono {h h' : Heap A} (hsize : h'.size = h.size)
    (hle : ∀ x o', h'.get x = some o' → ∃ o, h.get x = some o ∧ f o' ≤ f o) :
    h'.total f ≤ h.total f := by
  rw [total, total, hsize]
  apply Finset.sum_le_sum
  intro x _
  cases hx : h'.get x with
  | none => simp [weight, hx]
  | some o' =>
    obtain ⟨o, ho, hf⟩ := hle x o' hx
    rwa [weight_of_get hx, weight_of_get ho]

end Totals

def Payload.slots : Payload (List ObjId) → List ObjId
  | .leaf _ => []
  | .array elems => elems
  | .dictionary pairs => pairs.map Prod.snd

def XpcObject.slots (o : XpcObject (List ObjId)) : List ObjId := o.xoU.slots

namespace Heap

variable {h h' : Heap (List ObjId)} {x y : ObjId} {o : XpcObject (List ObjId)}

/-- The number of slots of live containers that hold the object. -/
def slotsTo (h : Heap (List ObjId)) (x : ObjId) : ℕ := h.total (fun o => o.slots.count x)

def slotTotal (h : Heap (List ObjId)) : ℕ := h.total (fun o => o.slots.length)

def Slot (h : Heap (List ObjId)) (x y : ObjId) : Prop := ∃ o, h.get x = some o ∧ y ∈ o.slots

theorem slotsTo_pos_iff : 0 < h.slotsTo y ↔ ∃ x, h.Slot x y := by
  constructor
  · intro hpos
    obtain ⟨x, o, ho, hc⟩ := exists_of_total_pos hpos
    exact ⟨x, o, ho, List.count_pos_iff.mp hc⟩
  · intro hslot
    obtain ⟨x, o, ho, hy⟩ := hslot
    exact Nat.lt_of_lt_of_le (List.count_pos_iff.mpr hy)
      (le_total (f := fun o => o.slots.count y) ho)

theorem Keeps.slotsTo_le (hk : h.Keeps h') (y : ObjId) : h.slotsTo y ≤ h'.slotsTo y := by
  have hsub : Finset.range h.size ⊆ Finset.range h'.size := by
    intro x hx
    exact Finset.mem_range.mpr (Nat.lt_of_lt_of_le (Finset.mem_range.mp hx) hk.size_le)
  have hle : ∑ x ∈ Finset.range h.size, h.weight (fun o => o.slots.count y) x ≤
      ∑ x ∈ Finset.range h.size, h'.weight (fun o => o.slots.count y) x := by
    apply Finset.sum_le_sum
    intro x _
    cases hx : h.get x with
    | none => simp [weight, hx]
    | some o =>
      obtain ⟨o', ho', hu, -⟩ := hk.get_of_get hx
      rw [weight_of_get hx, weight_of_get ho', XpcObject.slots, XpcObject.slots, hu]
  exact Nat.le_trans hle (Finset.sum_le_sum_of_subset hsub)

/-- An object that one slot holds has one holder. -/
theorem eq_of_slotsTo_eq_one {z : ObjId} (hone : h.slotsTo y = 1) (hx : h.Slot x y)
    (hz : h.Slot z y) : x = z := by
  by_contra hne
  obtain ⟨o, ho, hyo⟩ := hx
  obtain ⟨p, hp, hyp⟩ := hz
  have hsub : ({x, z} : Finset ℕ) ⊆ Finset.range h.size := by
    intro u hu
    rcases Finset.mem_insert.mp hu with rfl | hu
    · exact Finset.mem_range.mpr (lt_size_of_get ho)
    · rw [Finset.mem_singleton.mp hu]
      exact Finset.mem_range.mpr (lt_size_of_get hp)
  have hle := Finset.sum_le_sum_of_subset (f := h.weight (fun o => o.slots.count y)) hsub
  rw [Finset.sum_pair hne, weight_of_get ho, weight_of_get hp] at hle
  change _ ≤ h.slotsTo y at hle
  have hpos₁ := List.count_pos_iff.mpr hyo
  have hpos₂ := List.count_pos_iff.mpr hyp
  omega

/-- The cells of the object and of all below it have the property. -/
def AllBelow (h : Heap (List ObjId)) (p : Option (XpcObject (List ObjId)) → Prop) (x : ObjId) : Prop :=
  ∀ y, Relation.ReflTransGen h.Slot x y → p (h.get y)

section Below

variable {p : Option (XpcObject (List ObjId)) → Prop}

theorem allBelow_iff (hx : h.get x = some o) :
    h.AllBelow p x ↔ p (some o) ∧ ∀ z ∈ o.slots, h.AllBelow p z := by
  constructor
  · exact fun hall => ⟨hx ▸ hall x .refl, fun z hz y hy => hall y (.head ⟨o, hx, hz⟩ hy)⟩
  · rintro ⟨hroot, hall⟩ y hy
    rcases Relation.ReflTransGen.cases_head hy with rfl | ⟨z, ⟨q, hq, hz⟩, hzy⟩
    · rwa [hx]
    · obtain rfl : o = q := Option.some.inj (hx.symm.trans hq)
      exact hall z hz y hzy

/-- What is below an object depends on a set that is closed under slots. -/
theorem allBelow_congr {S : ObjId → Prop} (hx : S x) (hclosed : ∀ y z, S y → h.Slot y z → S z)
    (hget : ∀ y, S y → h'.get y = h.get y) : h'.AllBelow p x ↔ h.AllBelow p x := by
  have hslot : ∀ y z, S y → (h'.Slot y z ↔ h.Slot y z) := by
    intro y z hy
    simp only [Slot, hget y hy]
  have hreach : ∀ y, Relation.ReflTransGen h.Slot x y → S y ∧ Relation.ReflTransGen h'.Slot x y := by
    intro y hy
    induction hy with
    | refl => exact ⟨hx, .refl⟩
    | tail _ hyz ih => exact ⟨hclosed _ _ ih.1 hyz, ih.2.tail ((hslot _ _ ih.1).mpr hyz)⟩
  have hreach' : ∀ y, Relation.ReflTransGen h'.Slot x y → S y ∧ Relation.ReflTransGen h.Slot x y := by
    intro y hy
    induction hy with
    | refl => exact ⟨hx, .refl⟩
    | tail _ hyz ih =>
      have hyz' := (hslot _ _ ih.1).mp hyz
      exact ⟨hclosed _ _ ih.1 hyz', ih.2.tail hyz'⟩
  constructor
  · intro hall y hy
    obtain ⟨hS, hy'⟩ := hreach y hy
    rw [← hget y hS]
    exact hall y hy'
  · intro hall y hy
    obtain ⟨hS, hy'⟩ := hreach' y hy
    rw [hget y hS]
    exact hall y hy'

end Below

end Heap
end OpenXPC
