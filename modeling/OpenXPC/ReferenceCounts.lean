import OpenXPC.Copying
import OpenXPC.Decoding
import OpenXPC.Slots

/-! # The counts of what the library builds

A value is created with a count of one. Appending it and inserting it under a new key
count the slot on top of that; written over the value of a key it keeps its one. -/
namespace OpenXPC.ReferenceCounts
open InsertionMap Wire

/-! ## Owned trees -/

/-- The count of the root is one, and that of an object below the number of its slots. -/
def OwnedOnce (h : Heap (List ObjId)) (x : ObjId) : Prop :=
  (∃ o, h.get x = some o ∧ o.xoRefcnt = 1) ∧
    ∀ y, Relation.TransGen h.Slot x y → ∃ o, h.get y = some o ∧ o.xoRefcnt.toNat = h.slotsTo y

/-- The object and all below it have a count of one. -/
def CountsOne (h : Heap (List ObjId)) (x : ObjId) : Prop :=
  h.AllBelow (fun c => ∃ o, c = some o ∧ o.xoRefcnt = 1) x

/-- Slots are only for objects that have been made. -/
def SlotsMade (h : Heap (List ObjId)) : Prop := ∀ x y, h.Slot x y → y < h.size

theorem slotsMade_empty : SlotsMade ⟨[]⟩ := by
  rintro x y ⟨o, ho, -⟩
  simp [Heap.get] at ho

/-- New objects, the first of them not in any slot, with slots for later new ones, each
of which is in at most one. -/
structure Spawns (h₀ h : Heap (List ObjId)) : Prop where
  size_lt : h₀.size < h.size
  old : ∀ y, y < h₀.size → h.get y = h₀.get y
  upward : ∀ x y, h₀.size ≤ x → h.Slot x y → h₀.size < y ∧ y < h.size
  single : ∀ y, h₀.size ≤ y → h.slotsTo y ≤ 1
  root : ∃ o, h.get h₀.size = some o ∧ o.xoRefcnt = 1

section Counting

variable {h₀ h h' h₁ : Heap (List ObjId)} {x y c : ℕ} {o o' w : XpcObject (List ObjId)} {q : Prop}

theorem countsOne_iff (hx : h.get x = some o) (hone : o.xoRefcnt = 1) :
    CountsOne h x ↔ ∀ z ∈ o.slots, CountsOne h z :=
  (Heap.allBelow_iff hx).trans (and_iff_right ⟨o, rfl, hone⟩)

namespace Spawns

theorem slotsMade (hs : Spawns h₀ h) (hm : SlotsMade h₀) : SlotsMade h := by
  intro x y hxy
  rcases Nat.lt_or_ge x h₀.size with hx | hx
  · have hold : h₀.Slot x y := by simpa only [Heap.Slot, hs.old x hx] using hxy
    exact Nat.lt_trans (hm x y hold) hs.size_lt
  · exact (hs.upward x y hx hxy).2

/-- No object in a slot has been made last. -/
theorem root_free (hs : Spawns h₀ h) (hm : SlotsMade h₀) : h.slotsTo h₀.size = 0 := by
  by_contra hne
  obtain ⟨x, hx⟩ := Heap.slotsTo_pos_iff.mp (Nat.pos_of_ne_zero hne)
  rcases Nat.lt_or_ge x h₀.size with hlt | hge
  · have hold : h₀.Slot x h₀.size := by simpa only [Heap.Slot, hs.old x hlt] using hx
    exact Nat.lt_irrefl _ (hm _ _ hold)
  · exact Nat.lt_irrefl _ (hs.upward _ _ hge hx).1

/-- The new objects have no slots for the old ones. -/
theorem slotsTo_old (hs : Spawns h₀ h) (hy : y < h₀.size) : h.slotsTo y = h₀.slotsTo y := by
  have hsub : Finset.range h₀.size ⊆ Finset.range h.size := by
    intro x hx
    exact Finset.mem_range.mpr (Nat.lt_trans (Finset.mem_range.mp hx) hs.size_lt)
  have hnew : ∀ x ∈ Finset.range h.size, x ∉ Finset.range h₀.size →
      h.weight (fun o => o.slots.count y) x = 0 := by
    intro x _ hx
    have hge : h₀.size ≤ x := Nat.not_lt.mp (fun hlt => hx (Finset.mem_range.mpr hlt))
    cases hget : h.get x with
    | none => simp [Heap.weight, hget]
    | some o =>
      rw [Heap.weight_of_get hget, List.count_eq_zero]
      intro hmem
      have hup := (hs.upward x y hge ⟨o, hget, hmem⟩).1
      omega
  rw [Heap.slotsTo, Heap.slotsTo, Heap.total, Heap.total, ← Finset.sum_subset hsub hnew]
  apply Finset.sum_congr rfl
  intro x hx
  rw [Heap.weight, Heap.weight, hs.old x (Finset.mem_range.mp hx)]

theorem trans (h₁₂ : Spawns h₀ h) (h₂₃ : Spawns h h₁) : Spawns h₀ h₁ := by
  have hlt := h₁₂.size_lt
  have hlt' := h₂₃.size_lt
  refine ⟨Nat.lt_trans hlt hlt', fun y hy => ?_, fun x y hx hxy => ?_, fun y hy => ?_, ?_⟩
  · rw [h₂₃.old y (Nat.lt_trans hy hlt), h₁₂.old y hy]
  · rcases Nat.lt_or_ge x h.size with hxh | hxh
    · have hold : h.Slot x y := by simpa only [Heap.Slot, h₂₃.old x hxh] using hxy
      obtain ⟨hy, hyh⟩ := h₁₂.upward x y hx hold
      exact ⟨hy, Nat.lt_trans hyh hlt'⟩
    · obtain ⟨hy, hyh⟩ := h₂₃.upward x y hxh hxy
      exact ⟨Nat.lt_trans hlt hy, hyh⟩
  · rcases Nat.lt_or_ge y h.size with hyh | hyh
    · rw [h₂₃.slotsTo_old hyh]
      exact h₁₂.single y hy
    · exact h₂₃.single y hyh
  · rw [h₂₃.old _ hlt]
    exact h₁₂.root

theorem alloc (hm : SlotsMade h) (hone : o.xoRefcnt = 1) (hslots : o.slots = []) :
    Spawns h (h.alloc o).1 := by
  have hnone : ∀ y, ¬ (h.alloc o).1.Slot h.size y := by
    rintro y ⟨p, hp, hy⟩
    rw [Heap.get_alloc, if_pos rfl] at hp
    cases hp
    rw [hslots] at hy
    cases hy
  refine ⟨by simp, fun y hy => ?_, fun x y hx hxy => ?_, fun y hy => ?_, o, ?_, hone⟩
  · rw [Heap.get_alloc, if_neg (Nat.ne_of_lt hy)]
  · obtain ⟨p, hp, hyp⟩ := hxy
    have hlt := Heap.lt_size_of_get hp
    rw [Heap.size_alloc] at hlt
    obtain rfl : x = h.size := Nat.le_antisymm (Nat.le_of_lt_succ hlt) hx
    exact absurd ⟨p, hp, hyp⟩ (hnone y)
  · have hzero : h.slotsTo y = 0 := by
      by_contra hne
      obtain ⟨x, hx⟩ := Heap.slotsTo_pos_iff.mp (Nat.pos_of_ne_zero hne)
      exact absurd (hm x y hx) (Nat.not_lt.mpr hy)
    have hsum : (h.alloc o).1.slotsTo y = h.slotsTo y + o.slots.count y := Heap.total_alloc h o
    rw [hsum, hzero, hslots]
    exact Nat.zero_le 1
  · rw [Heap.get_alloc, if_pos rfl]

/-- The first object is given a slot for one that is in none. -/
theorem write (hs : Spawns h₀ h) (ho : h.get h₀.size = some o) (hc : h₀.size < c) (hch : c < h.size)
    (hfree : h.slotsTo c = 0) (hcount : o'.xoRefcnt = o.xoRefcnt)
    (hslots : ∀ y, o'.slots.count y ≤ o.slots.count y + if y = c then 1 else 0) :
    Spawns h₀ (h.set h₀.size o') := by
  have hroot : (h.set h₀.size o').get h₀.size = some o' := by rw [Heap.get_set ho, if_pos rfl]
  have hother : ∀ y, y ≠ h₀.size → (h.set h₀.size o').get y = h.get y := by
    intro y hy
    rw [Heap.get_set ho, if_neg hy]
  refine ⟨by simpa using hs.size_lt, fun y hy => ?_, fun x y hx hxy => ?_, fun y hy => ?_, o', hroot, ?_⟩
  · rw [hother y (Nat.ne_of_lt hy), hs.old y hy]
  · rw [Heap.size_set]
    obtain ⟨p, hp, hy⟩ := hxy
    by_cases hxd : x = h₀.size
    · subst hxd
      rw [hroot] at hp
      cases hp
      by_cases hyc : y = c
      · exact hyc ▸ ⟨hc, hch⟩
      · have hpos := List.count_pos_iff.mpr hy
        have hle := hslots y
        rw [if_neg hyc] at hle
        exact hs.upward _ y (Nat.le_refl _) ⟨o, ho, List.count_pos_iff.mp (by omega)⟩
    · rw [hother x hxd] at hp
      exact hs.upward x y hx ⟨p, hp, hy⟩
  · have hsum : (h.set h₀.size o').slotsTo y + o.slots.count y =
        h.slotsTo y + o'.slots.count y := Heap.total_set ho o'
    have hle := hslots y
    have hsingle := hs.single y hy
    split_ifs at hle with hyc
    · rw [hyc] at hsum hle ⊢
      omega
    · omega
  · obtain ⟨p, hp, hone⟩ := hs.root
    rw [ho] at hp
    cases hp
    rw [hcount, hone]

/-- A count changes, but not that of the first object. -/
theorem recount (hs : Spawns h₀ h) (hc : h₀.size < c) (hw : h.get c = some w) (hu : o.xoU = w.xoU) :
    Spawns h₀ (h.set c o) := by
  have hother : ∀ y, y ≠ c → (h.set c o).get y = h.get y := by
    intro y hy
    rw [Heap.get_set hw, if_neg hy]
  have hsame : o.slots = w.slots := by rw [XpcObject.slots, XpcObject.slots, hu]
  refine ⟨by simpa using hs.size_lt, fun y hy => ?_, fun x y hx hxy => ?_, fun y hy => ?_, ?_⟩
  · rw [hother y (by omega), hs.old y hy]
  · rw [Heap.size_set]
    obtain ⟨p, hp, hy⟩ := hxy
    by_cases hxc : x = c
    · subst hxc
      rw [Heap.get_set hw, if_pos rfl] at hp
      cases hp
      exact hs.upward x y hx ⟨w, hw, hsame ▸ hy⟩
    · rw [hother x hxc] at hp
      exact hs.upward x y hx ⟨p, hp, hy⟩
  · have hsum : (h.set c o).slotsTo y + w.slots.count y = h.slotsTo y + o.slots.count y :=
      Heap.total_set hw o
    have hsingle := hs.single y hy
    rw [hsame] at hsum
    omega
  · rw [hother _ (Nat.ne_of_lt hc)]
    exact hs.root

/-- What is below a new object is new. -/
theorem below (hs : Spawns h₀ h) (hx : h₀.size ≤ x) (hy : Relation.TransGen h.Slot x y) :
    h₀.size < y ∧ y < h.size := by
  induction hy with
  | single hxy => exact hs.upward _ _ hx hxy
  | tail _ hyz ih => exact hs.upward _ _ (Nat.le_of_lt ih.1) hyz

/-- What is below a new object is kept where the new objects are. -/
theorem allBelow_congr {p : Option (XpcObject (List ObjId)) → Prop} (hs : Spawns h₀ h)
    (hy : h₀.size < y) (hyh : y < h.size)
    (hget : ∀ z, h₀.size < z → z < h.size → h'.get z = h.get z) :
    h'.AllBelow p y ↔ h.AllBelow p y := by
  apply Heap.allBelow_congr (S := fun z => h₀.size < z ∧ z < h.size) ⟨hy, hyh⟩
  · exact fun u v hu huv => hs.upward u v (Nat.le_of_lt hu.1) huv
  · exact fun z hz => hget z hz.1 hz.2

end Spawns

/-- An object is built whose counts are one, from the root down, if `q`. -/
structure Produces (h h' : Heap (List ObjId)) (q : Prop) : Prop where
  spawns : Spawns h h'
  once : CountsOne h' h.size ↔ q

/-- An object below the root is in one slot. -/
theorem Produces.ownedOnce_iff (hp : Produces h h' q) : OwnedOnce h' h.size ↔ q := by
  have hbelow : ∀ y, Relation.TransGen h'.Slot h.size y → h.size < y ∧ h'.slotsTo y = 1 := by
    intro y hy
    have habove := (hp.spawns.below (Nat.le_refl _) hy).1
    obtain ⟨z, -, hz⟩ := Relation.TransGen.tail'_iff.mp hy
    have hpos := Heap.slotsTo_pos_iff.mpr ⟨z, hz⟩
    have hle := hp.spawns.single y (Nat.le_of_lt habove)
    exact ⟨habove, by omega⟩
  have htoNat : ∀ n : UInt32, n.toNat = 1 ↔ n = 1 := fun n => UInt32.toNat_inj (b := 1)
  rw [← hp.once]
  constructor
  · rintro ⟨hroot, hall⟩ y hy
    rcases Relation.reflTransGen_iff_eq_or_transGen.mp hy with rfl | hy
    · exact hroot
    · obtain ⟨o, ho, hcount⟩ := hall y hy
      rw [(hbelow y hy).2, htoNat] at hcount
      exact ⟨o, ho, hcount⟩
  · intro hc
    refine ⟨hc _ .refl, fun y hy => ?_⟩
    obtain ⟨o, ho, hone⟩ := hc y hy.to_reflTransGen
    exact ⟨o, ho, by rw [(hbelow y hy).2, hone]; rfl⟩

theorem produces_leafCreate (hm : SlotsMade h) (v : Leaf) : Produces h (leafCreate h v).1 True := by
  have hs : Spawns h (leafCreate h v).1 := Spawns.alloc hm rfl rfl
  obtain ⟨o, ho, hone⟩ := hs.root
  have hslots : o.slots = [] := by
    rw [leafCreate, xpcPrimCreate, xpcPrimCreateFlags, Heap.get_alloc, if_pos rfl] at ho
    cases ho
    rfl
  refine ⟨hs, iff_true_intro ((countsOne_iff ho hone).mpr ?_)⟩
  simp [hslots]

end Counting

/-! ## Values that are overwritten -/

/-- Under a new key a value is retained. Written over another it is not, and counts one
if `q`. -/
def recordSet (acc : List (CString × Prop)) (key : CString) (q : Prop) : List (CString × Prop) :=
  match replace? key q acc with
  | some acc' => acc'
  | none => acc ++ [(key, False)]

def recordAll (acc sets : List (CString × Prop)) : List (CString × Prop) :=
  sets.foldl (fun acc p => recordSet acc p.1 p.2) acc

/-- Each value is overwritten by a later one, or overwrites an earlier one and counts one. -/
def Overwritten : List CString → List (CString × Prop) → Prop
  | _, [] => True
  | seen, (key, q) :: sets =>
    (key ∈ sets.map Prod.fst ∨ (key ∈ seen ∧ q)) ∧ Overwritten (key :: seen) sets

section Overwriting

variable {acc sets : List (CString × Prop)} {key : CString} {q : Prop}

theorem Overwritten.congr {seen seen' : List CString} (h : ∀ k, k ∈ seen ↔ k ∈ seen') :
    Overwritten seen sets ↔ Overwritten seen' sets := by
  induction sets generalizing seen seen' with
  | nil => exact Iff.rfl
  | cons p sets ih =>
    have hcons : ∀ k, k ∈ p.1 :: seen ↔ k ∈ p.1 :: seen' := fun k => by simp [h]
    rw [Overwritten, Overwritten, ih hcons, h]

theorem recordSet_of_mem (hk : key ∈ acc.map Prod.fst) : recordSet acc key q = upsert key q acc := by
  rw [recordSet, upsert_of_mem hk]

theorem recordSet_of_notMem (hk : key ∉ acc.map Prod.fst) :
    recordSet acc key q = acc ++ [(key, False)] := by
  rw [recordSet, replace?_eq_none_iff.mpr hk]

theorem recordSet_keys (acc : List (CString × Prop)) (key : CString) (q : Prop) :
    (recordSet acc key q).map Prod.fst = (upsert key q acc).map Prod.fst := by
  by_cases hk : key ∈ acc.map Prod.fst
  · rw [recordSet_of_mem hk]
  · rw [recordSet_of_notMem hk, upsert_of_notMem hk, List.map_append, List.map_append]
    rfl

/-- The entries after a set, without those that are overwritten later. -/
theorem forall_recordSet (hn : (acc.map Prod.fst).Nodup) (later : CString → Prop) :
    (∀ p ∈ recordSet acc key q, ¬ later p.1 → p.2) ↔
      (∀ p ∈ acc, p.1 ≠ key → ¬ later p.1 → p.2) ∧ (¬ later key → key ∈ acc.map Prod.fst ∧ q) := by
  by_cases hk : key ∈ acc.map Prod.fst
  · have hmem : ∀ p, p ∈ upsert key q acc ↔ (p.1 = key ∧ p.2 = q) ∨ (p.1 ≠ key ∧ p ∈ acc) := by
      intro p
      have hlookup := lookup_upsert key q acc p.1
      by_cases hp : p.1 = key
      · rw [if_pos hp] at hlookup
        simp only [hp, true_and, ne_eq, not_true_eq_false, false_and, or_false]
        constructor
        · intro h
          rw [lookup_of_mem (upsert_nodup hn) h] at hlookup
          exact Option.some.inj hlookup
        · exact fun h => pair_mem_of_lookup (hlookup.trans (congrArg some h.symm))
      · rw [if_neg hp] at hlookup
        simp only [hp, false_and, ne_eq, not_false_eq_true, true_and, false_or]
        constructor
        · intro h
          rw [lookup_of_mem (upsert_nodup hn) h] at hlookup
          exact pair_mem_of_lookup hlookup.symm
        · intro h
          rw [lookup_of_mem hn h] at hlookup
          exact pair_mem_of_lookup hlookup
    rw [recordSet_of_mem hk]
    constructor
    · intro hall
      refine ⟨fun p hp hne => hall p ((hmem p).mpr (.inr ⟨hne, hp⟩)), fun hlater => ⟨hk, ?_⟩⟩
      exact hall (key, q) ((hmem _).mpr (.inl ⟨rfl, rfl⟩)) hlater
    · rintro ⟨hall, hlast⟩ p hp hlater
      rcases (hmem p).mp hp with ⟨hkey, hq⟩ | ⟨hne, hp⟩
      · rw [hq]
        exact (hlast (hkey ▸ hlater)).2
      · exact hall p hp hne hlater
  · have hne : ∀ p ∈ acc, p.1 ≠ key := fun p hp h => hk (h ▸ List.mem_map_of_mem hp)
    rw [recordSet_of_notMem hk, List.forall_mem_append, List.forall_mem_singleton]
    refine and_congr (forall₂_congr (fun p hp => ?_)) (forall_congr' (fun _ => ?_))
    · exact ⟨fun h _ => h, fun h => h (hne p hp)⟩
    · exact iff_of_false id (fun h => hk h.1)

/-- All that is left counts one exactly when everything is overwritten. -/
theorem forall_recordAll (hn : (acc.map Prod.fst).Nodup) : (∀ p ∈ recordAll acc sets, p.2) ↔
    (∀ p ∈ acc, p.1 ∉ sets.map Prod.fst → p.2) ∧ Overwritten (acc.map Prod.fst) sets := by
  induction sets generalizing acc with
  | nil => simp [recordAll, Overwritten]
  | cons s sets ih =>
    obtain ⟨key, q⟩ := s
    have hn' : ((recordSet acc key q).map Prod.fst).Nodup := by
      rw [recordSet_keys]
      exact upsert_nodup hn
    have hseen : ∀ k, k ∈ (recordSet acc key q).map Prod.fst ↔ k ∈ key :: acc.map Prod.fst := by
      intro k
      rw [recordSet_keys, upsert_keys]
      split_ifs with hk
      · simp only [List.mem_cons]
        exact ⟨.inr, fun h => h.elim (fun h => h ▸ hk) id⟩
      · simp [or_comm]
    have hstep := ih hn'
    rw [forall_recordSet hn (· ∈ sets.map Prod.fst), Overwritten.congr hseen] at hstep
    rw [Overwritten]
    refine hstep.trans ?_
    simp only [List.map_cons, List.mem_cons, not_or, and_imp]
    by_cases hk : key ∈ sets.map Prod.fst
    · simp [hk]
    · simp [hk, and_assoc]

theorem forall_recordAll_nil (sets : List (CString × Prop)) :
    (∀ p ∈ recordAll [] sets, p.2) ↔ Overwritten [] sets := by
  rw [forall_recordAll (by simp)]
  simp

end Overwriting

/-! ## Containers under construction -/

/-- A new dictionary, and whether its values count one. -/
structure FillsPairs (h₀ h : Heap (List ObjId)) (acc : List (CString × Prop)) : Prop where
  spawns : Spawns h₀ h
  pairs : ∃ o ps, h.get h₀.size = some o ∧ o.xoU = .dictionary ps ∧
    Related (fun z q => CountsOne h z ↔ q) ps acc

/-- A new array, whose size is never written, and whether its elements count one. -/
structure FillsElems (h₀ h : Heap (List ObjId)) (acc : List Prop) : Prop where
  spawns : Spawns h₀ h
  elems : ∃ o es, h.get h₀.size = some o ∧ o.xoU = .array es ∧ o.xoSize = 0 ∧
    List.Forall₂ (fun z q => CountsOne h z ↔ q) es acc

section Filling

variable {h₀ h h₁ : Heap (List ObjId)} {q : Prop} {key : CString}

theorem fillsPairs_create (hm : SlotsMade h) :
    ∃ h', xpcDictionaryCreate h [] = .ok (h', h.size) ∧ FillsPairs h h' [] :=
  ⟨_, rfl, Spawns.alloc hm rfl rfl, _, [], (Heap.get_alloc h _ _).trans (if_pos rfl), rfl, .nil⟩

theorem fillsElems_create (hm : SlotsMade h) :
    ∃ h', Arrays.xpcArrayCreate h [] = .ok (h', h.size) ∧ FillsElems h h' [] :=
  ⟨_, rfl, Spawns.alloc hm rfl rfl, _, [], (Heap.get_alloc h _ _).trans (if_pos rfl), rfl, rfl, .nil⟩

/-- A value that has been retained does not count one. -/
theorem not_countsOne_retained {c : ObjId} {w : XpcObject (List ObjId)} (hw : h.get c = some w)
    (hone : w.xoRefcnt = 1) : ¬ CountsOne (h.set c w.retained) c := by
  intro hc
  obtain ⟨o, ho, hcount⟩ := hc c .refl
  rw [Heap.get_set hw, if_pos rfl] at ho
  cases ho
  change w.xoRefcnt + 1 = 1 at hcount
  rw [hone] at hcount
  exact absurd hcount (by decide)

/-- What is below the values so far does not depend on the value made last. -/
theorem Spawns.allBelow_extend {p : Option (XpcObject (List ObjId)) → Prop} (hs : Spawns h₀ h)
    (hp : Spawns h h₁) {h₂ : Heap (List ObjId)}
    (hget : ∀ y, h₀.size < y → y < h.size → h₂.get y = h₁.get y) {o : XpcObject (List ObjId)}
    (ho : h.get h₀.size = some o) {z : ObjId} (hz : z ∈ o.slots) :
    h₂.AllBelow p z ↔ h.AllBelow p z := by
  obtain ⟨hlt, hlt'⟩ := hs.upward _ z (Nat.le_refl _) ⟨o, ho, hz⟩
  exact hs.allBelow_congr hlt hlt' (fun y hy hyh => by rw [hget y hy hyh, hp.old y hyh])

theorem forall₂_of_slots {es : List ObjId} {acc : List Prop} {R S : ObjId → Prop → Prop}
    (h : List.Forall₂ R es acc) (hrs : ∀ z ∈ es, ∀ p, R z p → S z p) : List.Forall₂ S es acc :=
  (forall₂_imp_of_mem h.flip (fun p z hz hzp => hrs z hz p hzp)).flip

theorem related_of_slots {ps : Pairs} {acc : List (CString × Prop)} {R S : ObjId → Prop → Prop}
    (h : Related R ps acc) (hrs : ∀ z ∈ ps.map Prod.snd, ∀ p, R z p → S z p) : Related S ps acc :=
  (forall₂_imp_of_mem h.flip (fun _ q hq hqp =>
    ⟨hqp.1, hrs q.2 (List.mem_map_of_mem hq) _ hqp.2⟩)).flip

/-- The container is written, and what is below the value is as it was. -/
theorem Spawns.allBelow_set {p : Option (XpcObject (List ObjId)) → Prop} (hp : Spawns h h₁) {d : ℕ}
    (hd : d < h.size) {o : XpcObject (List ObjId)} (ho : h₁.get d = some o)
    (o' : XpcObject (List ObjId)) : (h₁.set d o').AllBelow p h.size ↔ h₁.AllBelow p h.size := by
  apply Heap.allBelow_congr (S := fun y => h.size ≤ y) (Nat.le_refl _)
  · exact fun y z hy hyz => Nat.le_of_lt (hp.upward y z hy hyz).1
  · intro y hy
    rw [Heap.get_set ho, if_neg (Nat.ne_of_gt (Nat.lt_of_lt_of_le hd hy))]

/-- An object that has been built, seen from the container that is filled. -/
structure Fresh (h₀ h h₁ : Heap (List ObjId)) (q : Prop) : Prop where
  spawns : Spawns h₀ h₁
  above : h₀.size < h.size
  below : h.size < h₁.size
  free : h₁.slotsTo h.size = 0
  root : ∃ w, h₁.get h.size = some w ∧ w.xoRefcnt = 1
  once : ∀ {o}, h₁.get h₀.size = some o → ∀ o', CountsOne (h₁.set h₀.size o') h.size ↔ q

theorem Produces.fresh (hm : SlotsMade h₀) (hs : Spawns h₀ h) (hp : Produces h h₁ q) :
    Fresh h₀ h h₁ q where
  spawns := hs.trans hp.spawns
  above := hs.size_lt
  below := hp.spawns.size_lt
  free := hp.spawns.root_free (hs.slotsMade hm)
  root := hp.spawns.root
  once ho o' := (hp.spawns.allBelow_set hs.size_lt ho o').trans hp.once

theorem count_one (v y : ObjId) : [v].count y = if y = v then 1 else 0 := by
  by_cases hy : y = v
  · rw [if_pos hy, hy, List.count_singleton_self]
  · rw [if_neg hy, List.count_singleton, beq_eq_false_iff_ne.mpr (Ne.symm hy)]
    rfl

theorem count_upsert_le (k : CString) (v y : ObjId) (ps : Pairs) :
    ((upsert k v ps).map Prod.snd).count y ≤ (ps.map Prod.snd).count y + if y = v then 1 else 0 := by
  by_cases hk : k ∈ ps.map Prod.fst
  · have hreplace : ∀ qs, replace? k v ps = some qs →
        (qs.map Prod.snd).count y ≤ (ps.map Prod.snd).count y + [v].count y := by
      clear hk
      induction ps with
      | nil => simp [replace?]
      | cons p ps ih =>
        intro qs hq
        simp only [replace?] at hq
        split_ifs at hq with hpk
        · cases hq
          simp only [List.map_cons, List.count_cons, List.count_nil]
          omega
        · obtain ⟨rs, hrs, rfl⟩ := Option.map_eq_some_iff.mp hq
          have hle := ih rs hrs
          simp only [List.map_cons, List.count_cons] at hle ⊢
          omega
    rw [← count_one]
    exact hreplace _ (upsert_of_mem hk)
  · rw [upsert_of_notMem hk, List.map_append, List.count_append, ← count_one]
    rfl

variable {acc : List (CString × Prop)} {accs : List Prop}

/-- A value is inserted. -/
theorem FillsPairs.insert (hm : SlotsMade h₀) (hf : FillsPairs h₀ h acc) (hp : Produces h h₁ q)
    (key : CString) : ∃ h₂, xpcDictionarySetValue h₁ h₀.size key h.size = .ok h₂ ∧
      FillsPairs h₀ h₂ (recordSet acc key q) := by
  obtain ⟨o, ps, ho, hu, hrel⟩ := hf.pairs
  have hfresh := hp.fresh hm hf.spawns
  obtain ⟨w, hw, hone⟩ := hfresh.root
  have hlt := hfresh.above
  have ho₁ : h₁.get h₀.size = some o := by rw [hp.spawns.old _ hlt, ho]
  have hslots : o.slots = ps.map Prod.snd := by rw [XpcObject.slots, hu, Payload.slots]
  have hset : ∀ n, (h₁.set h₀.size (o.withPairs (upsert key h.size ps) n)).get h₀.size =
      some (o.withPairs (upsert key h.size ps) n) := fun n => by rw [Heap.get_set ho₁, if_pos rfl]
  have hspawns : ∀ n, Spawns h₀ (h₁.set h₀.size (o.withPairs (upsert key h.size ps) n)) := by
    intro n
    refine hfresh.spawns.write ho₁ hlt hfresh.below hfresh.free rfl (fun y => ?_)
    rw [hslots]
    exact count_upsert_le key h.size y ps
  by_cases hk : key ∈ acc.map Prod.fst
  · refine ⟨_, xpcDictionarySetValue_replace ho₁ hu (hrel.keys ▸ hk), hspawns _, _, _, hset _, rfl, ?_⟩
    rw [recordSet_of_mem hk]
    refine (related_of_slots hrel (fun z hz p hzp => ?_)).upsert key (hfresh.once ho₁ _)
    refine (hf.spawns.allBelow_extend hp.spawns (fun y hy _ => ?_) ho (hslots ▸ hz)).trans hzp
    rw [Heap.get_set ho₁, if_neg (Nat.ne_of_gt hy)]
  · have hk' : key ∉ ps.map Prod.fst := hrel.keys ▸ hk
    have hw₁ : (h₁.set h₀.size (o.withPairs (upsert key h.size ps) (o.xoSize + 1))).get h.size =
        some w := by rw [Heap.get_set ho₁, if_neg (Nat.ne_of_gt hlt), hw]
    have hpairs := upsert_of_notMem (v := h.size) hk'
    refine ⟨_, ?_, (hspawns (o.xoSize + 1)).recount (o := w.retained) hlt hw₁ rfl,
      o.withPairs (upsert key h.size ps) (o.xoSize + 1), upsert key h.size ps, ?_, rfl, ?_⟩
    · simp only [xpcDictionarySetValue, Heap.deref_of_get ho₁, XpcObject.dict_of_xoU hu, ok_bind,
        replace?_eq_none_iff.mpr hk', ← hpairs, xpcRetain_of_get hw₁]
    · rw [Heap.get_set hw₁, if_neg (Nat.ne_of_lt hlt), hset]
    · have hnew := Related.append (related_of_slots hrel (fun z hz p hzp =>
        (hf.spawns.allBelow_extend hp.spawns (fun y hy hyh => ?_) ho (hslots ▸ hz)).trans hzp)) key
        (iff_false_intro (not_countsOne_retained hw₁ hone))
      · rw [recordSet_of_notMem hk]
        rwa [← hpairs] at hnew
      · rw [Heap.get_set hw₁, if_neg (Nat.ne_of_lt hyh), Heap.get_set ho₁, if_neg (Nat.ne_of_gt hy)]

theorem FillsElems.extend (hf : FillsElems h₀ h accs) (hp : Spawns h h₁) : FillsElems h₀ h₁ accs := by
  obtain ⟨o, es, ho, hu, hsize, hrel⟩ := hf.elems
  have hslots : o.slots = es := by rw [XpcObject.slots, hu, Payload.slots]
  refine ⟨hf.spawns.trans hp, o, es, by rw [hp.old _ hf.spawns.size_lt, ho], hu, hsize, ?_⟩
  refine forall₂_of_slots hrel (fun z hz p hzp => ?_)
  exact (hf.spawns.allBelow_extend hp (fun _ _ _ => rfl) ho (hslots ▸ hz)).trans hzp

/-- A value is appended. -/
theorem FillsElems.append (hm : SlotsMade h₀) (hf : FillsElems h₀ h accs) (hp : Produces h h₁ q) :
    ∃ h₂, Arrays.xpcArrayAppendValue h₁ h₀.size h.size = .ok h₂ ∧
      FillsElems h₀ h₂ (accs ++ [False]) := by
  obtain ⟨o, es, ho, hu, hsize, hrel⟩ := hf.elems
  have hfresh := hp.fresh hm hf.spawns
  obtain ⟨w, hw, hone⟩ := hfresh.root
  have hlt := hfresh.above
  have ho₁ : h₁.get h₀.size = some o := by rw [hp.spawns.old _ hlt, ho]
  have hslots : o.slots = es := by rw [XpcObject.slots, hu, Payload.slots]
  have hspawns : Spawns h₀ (h₁.set h₀.size (o.withArr (es ++ [h.size]))) := by
    refine hfresh.spawns.write ho₁ hlt hfresh.below hfresh.free rfl (fun y => ?_)
    have hnew : (o.withArr (es ++ [h.size])).slots = es ++ [h.size] := rfl
    rw [hnew, hslots, List.count_append, count_one]
  have hw₁ : (h₁.set h₀.size (o.withArr (es ++ [h.size]))).get h.size = some w := by
    rw [Heap.get_set ho₁, if_neg (Nat.ne_of_gt hlt), hw]
  refine ⟨_, ?_, hspawns.recount (o := w.retained) hlt hw₁ rfl, o.withArr (es ++ [h.size]), _, ?_, rfl, hsize, ?_⟩
  · simp only [Arrays.xpcArrayAppendValue, Heap.deref_of_get ho₁, XpcObject.arr_of_xoU hu, ok_bind,
      xpcRetain_of_get hw₁]
  · rw [Heap.get_set hw₁, if_neg (Nat.ne_of_lt hlt), Heap.get_set ho₁, if_pos rfl]
  · refine List.rel_append (forall₂_of_slots hrel (fun z hz p hzp => ?_))
      (.cons (iff_false_intro (not_countsOne_retained hw₁ hone)) .nil)
    refine (hf.spawns.allBelow_extend hp.spawns (fun y hy hyh => ?_) ho (hslots ▸ hz)).trans hzp
    rw [Heap.get_set hw₁, if_neg (Nat.ne_of_lt hyh), Heap.get_set ho₁, if_neg (Nat.ne_of_gt hy)]

theorem FillsPairs.produces (hf : FillsPairs h₀ h acc) : Produces h₀ h (∀ p ∈ acc, p.2) := by
  obtain ⟨o, ps, ho, hu, hrel⟩ := hf.pairs
  obtain ⟨o', ho', hone⟩ := hf.spawns.root
  obtain rfl : o = o' := Option.some.inj (ho.symm.trans ho')
  have hslots : o.slots = ps.map Prod.snd := by rw [XpcObject.slots, hu, Payload.slots]
  refine ⟨hf.spawns, (countsOne_iff ho hone).trans ?_⟩
  rw [hslots, List.forall_mem_map]
  constructor
  · intro hall p hp
    obtain ⟨z, hz, hzp⟩ := exists_left_of_forall₂ hrel hp
    exact hzp.2.mp (hall z hz)
  · intro hall z hz
    obtain ⟨p, hp, hzp⟩ := exists_right_of_forall₂ hrel hz
    exact hzp.2.mpr (hall p hp)

theorem FillsElems.produces (hf : FillsElems h₀ h accs) : Produces h₀ h (∀ p ∈ accs, p) := by
  obtain ⟨o, es, ho, hu, -, hrel⟩ := hf.elems
  obtain ⟨o', ho', hone⟩ := hf.spawns.root
  obtain rfl : o = o' := Option.some.inj (ho.symm.trans ho')
  have hslots : o.slots = es := by rw [XpcObject.slots, hu, Payload.slots]
  refine ⟨hf.spawns, (countsOne_iff ho hone).trans ?_⟩
  rw [hslots]
  constructor
  · intro hall p hp
    obtain ⟨z, hz, hzp⟩ := exists_left_of_forall₂ hrel hp
    exact hzp.mp (hall z hz)
  · intro hall z hz
    obtain ⟨p, hp, hzp⟩ := exists_right_of_forall₂ hrel hz
    exact hzp.mpr (hall p hp)

end Filling
end OpenXPC.ReferenceCounts
