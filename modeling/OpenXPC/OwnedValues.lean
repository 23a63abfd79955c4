import OpenXPC.ReferenceCounts

/-! # Which built values are owned once

The decoder, `xpc_copy` and the typed setters create a value and insert it, and none
gives up the count it was created with. -/
namespace OpenXPC.ReferenceCounts
open InsertionMap Wire

/-! ## Received values -/

mutual

/-- No array has elements, and in a dictionary each value is overwritten, or overwrites
another and is such a value itself. -/
def ReceivedOnce : Val CString → Prop
  | .container (.array (.dictEntry _ _)) sub => Overwritten [] (entriesOnce sub)
  | .container (.array .variant) sub => sub = []
  | _ => True

def iterOnce : List (Val CString) → Prop
  | [] => True
  | v :: _ => ReceivedOnce v

def entriesOnce : List (Val CString) → List (CString × Prop)
  | [] => []
  | .container _ (.basic (.string key) :: .container (.variant _) sub2 :: _) :: iter =>
    (key, iterOnce sub2) :: entriesOnce iter
  | _ :: iter => entriesOnce iter

end

section Receiving

variable {h h₀ h₁ : Heap (List ObjId)} {n : ℕ} {v : Val CString} {sub iter : List (Val CString)}

theorem receivedOnce_of_leaf {w : Leaf} (ht : translate v = some (.leaf w)) : ReceivedOnce v := by
  unfold ReceivedOnce
  split
  · simp [translate] at ht
  · simp [translate] at ht
  · trivial

/-- The object is the first that the call makes. -/
def Receives (h : Heap (List ObjId)) (v : Val CString) : Prop :=
  ∃ h', deserialiseObject h v = .ok (h', some h.size) ∧ Produces h h' (ReceivedOnce v)

/-- What is known of the values of smaller depth. -/
def ReceivesBelow (n : ℕ) : Prop :=
  ∀ v : Val CString, v.depth < n → Supported v → Safe v → ∀ h, SlotsMade h → Receives h v

theorem deserialiseIter_produces (hspec : ReceivesBelow n) (hdepth : ∀ u ∈ sub, u.depth < n)
    (hs : SafeIter sub) (hm : SlotsMade h) :
    ∃ h', deserialiseIter h sub = .ok (h', some h.size) ∧ Produces h h' (iterOnce sub) := by
  cases sub with
  | nil => exact hs.elim
  | cons u rest => exact hspec u (hdepth u List.mem_cons_self) hs.1 hs.2 h hm

theorem forall_replicate_false {k : ℕ} : (∀ p ∈ List.replicate k False, p) ↔ k = 0 := by
  cases k with
  | zero => simp
  | succ k => exact iff_of_false (fun h => h False List.mem_cons_self) (Nat.succ_ne_zero k)

/-- Every element that is appended is retained. -/
theorem deserialiseArr_fills (hspec : ReceivesBelow n) (hdepth : ∀ w ∈ iter, w.depth < n)
    (hs : SafeArr iter) (hm : SlotsMade h₀) {acc : List Prop} (hf : FillsElems h₀ h acc) :
    ∃ h', deserialiseArr h₀.size h iter = .ok h' ∧
      FillsElems h₀ h' (acc ++ List.replicate iter.length False) := by
  induction iter generalizing h acc with
  | nil => exact ⟨h, by rw [deserialiseArr], by simpa using hf⟩
  | cons w iter ih =>
    rcases deserialiseArr_cases w with hw | hw
    · obtain ⟨sig, sub, rfl⟩ := hw
      have hlt := hdepth _ List.mem_cons_self
      obtain ⟨h₁, he, hp⟩ := deserialiseIter_produces hspec
        (Val.depth_lt_of_container_le (Nat.le_of_lt hlt)) hs.1 (hf.spawns.slotsMade hm)
      obtain ⟨h₂, happend, hf₂⟩ := hf.append hm hp
      obtain ⟨h', hloop, hf'⟩ := ih (fun u hu => hdepth u (List.mem_cons_of_mem _ hu)) hs.2 hf₂
      refine ⟨h', by simp [deserialiseArr, he, happend, hloop], ?_⟩
      rwa [List.append_assoc] at hf'
    · exact absurd hs (hw h₀.size h iter).2

theorem deserialiseDict_fills (hspec : ReceivesBelow n) (hdepth : ∀ w ∈ iter, w.depth < n)
    (hs : SafeDict iter) (hm : SlotsMade h₀) {acc : List (CString × Prop)}
    (hf : FillsPairs h₀ h acc) :
    ∃ h', deserialiseDict h₀.size h iter = .ok h' ∧
      FillsPairs h₀ h' (recordAll acc (entriesOnce iter)) := by
  induction iter generalizing h acc with
  | nil => exact ⟨h, by rw [deserialiseDict], hf⟩
  | cons w iter ih =>
    rcases deserialiseDict_cases w with hw | hw
    · obtain ⟨key, sub2, hentry⟩ := hw
      have hlt := hdepth w List.mem_cons_self
      have hbelow : ∀ u ∈ sub2, u.depth < n := fun u hu => Nat.lt_trans (hentry.depth_lt hu) hlt
      obtain ⟨c, sig, rest, rfl⟩ := hentry
      obtain ⟨h₁, he, hp⟩ := deserialiseIter_produces hspec hbelow hs.1 (hf.spawns.slotsMade hm)
      obtain ⟨h₂, hset, hf₂⟩ := hf.insert hm hp key
      obtain ⟨h', hloop, hf'⟩ := ih (fun u hu => hdepth u (List.mem_cons_of_mem _ hu)) hs.2 hf₂
      refine ⟨h', by simp [deserialiseDict, he, hset, hloop], ?_⟩
      rw [entriesOnce]
      exact hf'
    · exact absurd hs (hw h₀.size h iter).2

/-- The values of any depth: the induction step and the induction. -/
theorem receivesBelow (n : ℕ) : ReceivesBelow n := by
  induction n with
  | zero => exact fun v hv => absurd hv (Nat.not_lt_zero _)
  | succ n ih =>
    intro v hv hsup hs h hm
    rcases deserialiseObject_cases v with hcase | hcase | hcase | hcase | hcase
    · obtain ⟨w, hw, ht, -⟩ := hcase
      refine ⟨_, hw h, ?_⟩
      rw [iff_true_intro (receivedOnce_of_leaf ht)]
      exact produces_leafCreate hm w
    · obtain ⟨key, value, sub, rfl⟩ := hcase
      have hdepth := Val.depth_lt_of_container_le (Nat.le_of_lt_succ hv)
      obtain ⟨h₁, hcreate, hf⟩ := fillsPairs_create hm
      obtain ⟨h', hloop, hf'⟩ := deserialiseDict_fills ih hdepth hs hm hf
      refine ⟨h', by simp [deserialiseObject, hcreate, hloop], ?_⟩
      rw [ReceivedOnce, ← forall_recordAll_nil]
      exact hf'.produces
    · obtain ⟨sub, rfl⟩ := hcase
      have hdepth := Val.depth_lt_of_container_le (Nat.le_of_lt_succ hv)
      obtain ⟨h₁, hcreate, hf⟩ := fillsElems_create hm
      obtain ⟨h', hloop, hf'⟩ := deserialiseArr_fills ih hdepth hs hm hf
      refine ⟨h', by simp [deserialiseObject, hcreate, hloop], ?_⟩
      rw [ReceivedOnce, ← List.length_eq_zero_iff, ← forall_replicate_false]
      exact hf'.produces
    · obtain ⟨sub, rfl⟩ := hcase
      exact hs.elim
    · obtain ⟨-, -, hnot, -⟩ := hcase
      exact absurd hsup hnot

theorem deserialiseObject_produces (hsup : Supported v) (hs : Safe v) (hm : SlotsMade h) :
    Receives h v := receivesBelow (v.depth + 1) v (Nat.lt_succ_self _) hsup hs h hm

end Receiving

/-! ## Copies -/

mutual

/-- No element has the index that means appending, and in a dictionary each value is
overwritten, or overwrites another and is such a tree itself. -/
def CopiedOnce : Tree → Prop
  | .leaf _ => True
  | .array ts => ts.length ≤ xpcArrayAppend
  | .dictionary ps => Overwritten [] (pairsOnce ps)

def pairsOnce : List (CString × Tree) → List (CString × Prop)
  | [] => []
  | (k, t) :: ps => (k, CopiedOnce t) :: pairsOnce ps

end

section Copying

variable {h h₀ : Heap (List ObjId)} {x n : ℕ} {t : Tree}

def Copies (n : ℕ) (h : Heap (List ObjId)) (x : ObjId) (t : Tree) : Prop :=
  ∃ h', xpcCopy n h x = .ok (h', some h.size) ∧ Produces h h' (CopiedOnce t)

theorem Spawns.keeps {h' : Heap (List ObjId)} (hs : Spawns h h') : h.Keeps h' :=
  ⟨Nat.le_of_lt hs.size_lt, fun {y o} hy =>
    ⟨o, by rw [hs.old y (Heap.lt_size_of_get hy), hy], rfl, rfl⟩⟩

theorem copyPairs_fills {qs : Pairs} {ps : List (CString × Tree)} {acc : List (CString × Prop)}
    (hm : SlotsMade h₀) (hrel : Related (TreeAt h₀) qs ps) (hf : FillsPairs h₀ h acc)
    (hcopy : ∀ p ∈ ps, ∀ h x, SlotsMade h → TreeAt h x p.2 → Copies n h x p.2) :
    ∃ h', applyPairs (fun k v h => do
        let (h, copy) ← xpcCopy n h v
        let h ← dictCopyCb h₀.size k h copy
        .ok (h, true)) qs h = .ok (h', true) ∧
      FillsPairs h₀ h' (recordAll acc (pairsOnce ps)) := by
  induction hrel generalizing h acc with
  | nil => exact ⟨h, rfl, hf⟩
  | @cons q p qs ps hqp _ ih =>
    obtain ⟨k, x⟩ := q
    obtain ⟨j, t⟩ := p
    obtain ⟨rfl, hx⟩ := hqp
    obtain ⟨h₁, he, hp⟩ := hcopy (k, t) List.mem_cons_self h x (hf.spawns.slotsMade hm)
      (hx.keeps (Nat.le_refl 0) hf.spawns.keeps)
    obtain ⟨h₂, hset, hf₂⟩ := hf.insert hm hp k
    obtain ⟨h', happly, hf'⟩ := ih hf₂ (fun p hp => hcopy p (List.mem_cons_of_mem _ hp))
    have hcb : dictCopyCb h₀.size k h₁ (some h.size) = .ok h₂ := hset
    refine ⟨h', ?_, hf'⟩
    simp [applyPairs, he, hcb, happly]

theorem noAppend_succ {i k : ℕ} (hi : i ≠ xpcArrayAppend) :
    ¬ (i + 1 ≤ xpcArrayAppend ∧ xpcArrayAppend < i + 1 + k) ↔
      ¬ (i ≤ xpcArrayAppend ∧ xpcArrayAppend < i + (k + 1)) := by
  omega

/-- An element whose index does not mean appending is copied and not inserted. -/
theorem copyElems_fills {es : List ObjId} {ts : List Tree} {acc : List Prop} {i : ℕ}
    (hm : SlotsMade h₀) (hrel : List.Forall₂ (TreeAt h₀) es ts) (hf : FillsElems h₀ h acc)
    (hcopy : ∀ t ∈ ts, ∀ h x, SlotsMade h → TreeAt h x t → Copies n h x t) :
    ∃ h' acc', Arrays.applyElems (fun idx v h => do
        let (h, copy) ← xpcCopy n h v
        let h ← arrayCopyCb h₀.size idx h copy
        .ok (h, true)) i es h = .ok (h', true) ∧ FillsElems h₀ h' acc' ∧
      ((∀ p ∈ acc', p) ↔
        (∀ p ∈ acc, p) ∧ ¬ (i ≤ xpcArrayAppend ∧ xpcArrayAppend < i + ts.length)) := by
  induction hrel generalizing h acc i with
  | nil =>
    refine ⟨h, acc, rfl, hf, (and_iff_left ?_).symm⟩
    rw [List.length_nil]
    omega
  | @cons x t es ts hx _ ih =>
    obtain ⟨h₁, he, hp⟩ := hcopy t List.mem_cons_self h x (hf.spawns.slotsMade hm)
      (hx.keeps (Nat.le_refl 0) hf.spawns.keeps)
    have hrest : ∀ u ∈ ts, ∀ h x, SlotsMade h → TreeAt h x u → Copies n h x u :=
      fun u hu => hcopy u (List.mem_cons_of_mem _ hu)
    by_cases hi : i = xpcArrayAppend
    · obtain ⟨h₂, happend, hf₂⟩ := hf.append hm hp
      obtain ⟨h', acc', happly, hf', hiff⟩ := ih (i := i + 1) hf₂ hrest
      have hcb : arrayCopyCb h₀.size i h₁ (some h.size) = .ok h₂ := by
        rw [arrayCopyCb, Arrays.xpcArraySetValue, if_pos hi, happend]
      refine ⟨h', acc', ?_, hf', iff_of_false (fun hall => ?_) (fun hall => hall.2 ?_)⟩
      · simp [Arrays.applyElems, he, hcb, happly]
      · exact (hiff.mp hall).1 False (List.mem_append_right _ List.mem_cons_self)
      · rw [List.length_cons]
        omega
    · have hf₁ := hf.extend hp.spawns
      obtain ⟨o, rs, ho, hu, hsize, -⟩ := hf₁.elems
      obtain ⟨h', acc', happly, hf', hiff⟩ := ih (i := i + 1) hf₁ hrest
      have hcb : arrayCopyCb h₀.size i h₁ (some h.size) = .ok h₁ := by
        simp [arrayCopyCb, Arrays.xpcArraySetValue, hi, Heap.deref_of_get ho,
          XpcObject.arr_of_xoU hu, hsize]
      refine ⟨h', acc', ?_, hf', hiff.trans (and_congr_right (fun _ => ?_))⟩
      · simp [Arrays.applyElems, he, hcb, happly]
      · rw [List.length_cons, noAppend_succ hi]

theorem xpcCopy_produces (hm : SlotsMade h) (ht : TreeAt h x t) (hc : t.Copyable)
    (hn : t.height < n) : Copies n h x t := by
  induction t generalizing n h x with
  | leaf v =>
    obtain ⟨n, rfl⟩ := Nat.exists_eq_succ_of_ne_zero (Nat.ne_of_gt hn)
    obtain ⟨-, o, ho, hu⟩ := treeFrom_leaf.mp ht
    refine ⟨(leafCreate h v).1, ?_, ?_⟩
    · simp [xpcCopy, Heap.deref_of_get ho, hu, copyLeaf_ok hc]
    · rw [CopiedOnce]
      exact produces_leafCreate hm v
  | array ts ih =>
    obtain ⟨n, rfl⟩ := Nat.exists_eq_succ_of_ne_zero (Nat.ne_of_gt (Nat.zero_lt_of_lt hn))
    obtain ⟨-, o, es, ho, hu, hrel⟩ := treeFrom_array.mp ht
    obtain ⟨h₁, hcreate, hf⟩ := fillsElems_create hm
    have hcopy : ∀ t ∈ ts, ∀ h x, SlotsMade h → TreeAt h x t → Copies n h x t := by
      intro t hmem h x hm hx
      have hlt := Tree.height_lt_of_mem hmem
      exact ih t hmem hm hx ((Tree.all_array.mp hc).2 t hmem) (by omega)
    obtain ⟨h', acc, happly, hf', hiff⟩ := copyElems_fills (i := 0) hm hrel hf hcopy
    have ho₁ : h₁.get x = some o := by rw [hf.spawns.old x (Heap.lt_size_of_get ho), ho]
    refine ⟨h', ?_, ?_⟩
    · simp [xpcCopy, Heap.deref_of_get ho, hu, hcreate, Arrays.xpcArrayApplyFun_of_get ho₁ hu, happly]
    · have hlen : (∀ p ∈ acc, p) ↔ CopiedOnce (.array ts) := by
        rw [hiff, CopiedOnce]
        simp
      rw [← hlen]
      exact hf'.produces
  | dictionary ps ih =>
    obtain ⟨n, rfl⟩ := Nat.exists_eq_succ_of_ne_zero (Nat.ne_of_gt (Nat.zero_lt_of_lt hn))
    obtain ⟨-, o, qs, ho, hu, hrel⟩ := treeFrom_dictionary.mp ht
    obtain ⟨h₁, hcreate, hf⟩ := fillsPairs_create hm
    have hcopy : ∀ p ∈ ps, ∀ h x, SlotsMade h → TreeAt h x p.2 → Copies n h x p.2 := by
      intro p hmem h x hm hx
      have hlt := Tree.height_lt_of_mem_pairs hmem
      exact ih p hmem hm hx ((Tree.all_dictionary.mp hc).2 p hmem) (by omega)
    obtain ⟨h', happly, hf'⟩ := copyPairs_fills hm hrel hf hcopy
    have ho₁ : h₁.get x = some o := by rw [hf.spawns.old x (Heap.lt_size_of_get ho), ho]
    refine ⟨h', ?_, ?_⟩
    · simp [xpcCopy, Heap.deref_of_get ho, hu, hcreate, xpcDictionaryApplyFun_of_get ho₁ hu, happly]
    · rw [CopiedOnce, ← forall_recordAll_nil]
      exact hf'.produces

end Copying

/-! ## Typed setters -/

section Setting

variable {h h' : Heap (List ObjId)} {x a d i : ℕ} {key : CString} {v : Leaf}
  {o w : XpcObject (List ObjId)}

def IsArray (h : Heap (List ObjId)) (a : ObjId) : Prop :=
  ∃ o es, h.get a = some o ∧ o.xoU = .array es

/-- The key is in the dictionary already. -/
def Replaces (h : Heap (List ObjId)) (d : ObjId) (key : CString) : Prop :=
  ∃ o ps, h.get d = some o ∧ o.xoU = .dictionary ps ∧ key ∈ ps.map Prod.fst

/-- The index does not mean appending, and no element is replaced at it. -/
def LeavesOut (h : Heap (List ObjId)) (a : ObjId) (i : ℕ) : Prop :=
  ∃ o es, h.get a = some o ∧ o.xoU = .array es ∧ i ≠ xpcArrayAppend ∧
    (o.xoSize ≤ i ∨ es.length ≤ i)

theorem ownedOnce_of_leaf (hx : h.get x = some o) (hu : o.xoU = .leaf v) :
    OwnedOnce h x ↔ o.xoRefcnt = 1 := by
  have hnone : ∀ y, ¬ Relation.TransGen h.Slot x y := by
    intro y hy
    obtain ⟨z, ⟨p, hp, hz⟩, -⟩ := Relation.TransGen.head'_iff.mp hy
    rw [hx] at hp
    cases hp
    rw [XpcObject.slots, hu, Payload.slots] at hz
    cases hz
  constructor
  · rintro ⟨⟨p, hp, hone⟩, -⟩
    rw [hx] at hp
    cases hp
    exact hone
  · exact fun hone => ⟨⟨o, hx, hone⟩, fun y hy => absurd hy (hnone y)⟩

/-- Retained after its creation, a value does not count one. -/
theorem count_ne_one_of_xpcRetain (hr : xpcRetain h x = .ok h') (hx : h.get x = some w)
    (hone : w.xoRefcnt = 1) (ho : h'.get x = some o) : o.xoRefcnt ≠ 1 := by
  rw [xpcRetain_of_get hx] at hr
  cases hr
  rw [Heap.get_set hx, if_pos rfl] at ho
  cases ho
  change w.xoRefcnt + 1 ≠ 1
  rw [hone]
  decide

theorem get_leafCreate (h : Heap (List ObjId)) (v : Leaf) : ∃ w,
    (leafCreate h v).1.get h.size = some w ∧ w.xoRefcnt = 1 ∧ w.xoU = .leaf v :=
  ⟨_, (Heap.get_alloc h _ _).trans (if_pos rfl), rfl, rfl⟩

theorem get_leafCreate_of_get (hd : h.get d = some o) (v : Leaf) :
    (leafCreate h v).1.get d = some o ∧ h.size ≠ d :=
  ⟨Heap.get_alloc_of_get hd _, Nat.ne_of_gt (Heap.lt_size_of_get hd)⟩

theorem dictionarySetLeaf_ownedOnce_iff (hd : IsDictionary h d) :
    (∃ h', dictionarySetLeaf h d key v = .ok h' ∧ OwnedOnce h' h.size) ↔ Replaces h d key := by
  obtain ⟨o, ps, ho, hu⟩ := hd
  obtain ⟨ho₁, hne⟩ := get_leafCreate_of_get ho v
  obtain ⟨w, hw, hone, hleaf⟩ := get_leafCreate h v
  have hget : ∀ p, ((leafCreate h v).1.set d p).get h.size = some w := by
    intro p
    rw [Heap.get_set ho₁, if_neg hne, hw]
  constructor
  · rintro ⟨h', he, ⟨p, hp, hp₁⟩, -⟩
    refine ⟨o, ps, ho, hu, ?_⟩
    obtain ⟨o', ps', ho', hu', hcase⟩ := xpcDictionarySetValue_cases he
    obtain rfl : o = o' := Option.some.inj (ho₁.symm.trans ho')
    obtain rfl : ps = ps' := Payload.dictionary.inj (hu.symm.trans hu')
    rcases hcase with ⟨qs, hqs, -⟩ | ⟨-, hr⟩
    · by_contra hk
      rw [replace?_eq_none_iff.mpr hk] at hqs
      cases hqs
    · exact absurd hp₁ (count_ne_one_of_xpcRetain hr (hget _) hone hp)
  · rintro ⟨o', ps', ho', hu', hk⟩
    obtain rfl : o = o' := Option.some.inj (ho.symm.trans ho')
    exact ⟨_, xpcDictionarySetValue_replace ho₁ hu' hk, (ownedOnce_of_leaf (hget _) hleaf).mpr hone⟩

theorem arraySetLeaf_ownedOnce_iff (ha : IsArray h a) :
    (∃ h', Arrays.arraySetLeaf h a i v = .ok h' ∧ OwnedOnce h' h.size) ↔ LeavesOut h a i := by
  obtain ⟨o, es, ho, hu⟩ := ha
  obtain ⟨ho₁, hne⟩ := get_leafCreate_of_get ho v
  obtain ⟨w, hw, hone, hleaf⟩ := get_leafCreate h v
  have hget : ∀ p, ((leafCreate h v).1.set a p).get h.size = some w := by
    intro p
    rw [Heap.get_set ho₁, if_neg hne, hw]
  constructor
  · rintro ⟨h', he, ⟨p, hp, hp₁⟩, -⟩
    refine ⟨o, es, ho, hu, ?_⟩
    change Arrays.xpcArraySetValue (leafCreate h v).1 a i h.size = .ok h' at he
    by_cases hi : i = xpcArrayAppend
    · rw [Arrays.xpcArraySetValue, if_pos hi] at he
      obtain ⟨o', es', -, -, hr⟩ := Arrays.xpcArrayAppendValue_cases he
      exact absurd hp₁ (count_ne_one_of_xpcRetain hr (hget _) hone hp)
    · refine ⟨hi, ?_⟩
      by_contra hin
      rw [not_or, Nat.not_le, Nat.not_le] at hin
      rw [Arrays.xpcArraySetValue, if_neg hi, Heap.deref_of_get ho₁, ok_bind,
        XpcObject.arr_of_xoU hu, ok_bind, if_neg (Nat.not_le.mpr hin.1),
        List.getElem?_eq_getElem hin.2] at he
      obtain ⟨_, -, he⟩ := bind_eq_ok.mp he
      obtain ⟨h₁, hr, he⟩ := bind_eq_ok.mp he
      cases he
      rw [Heap.get_free] at hp
      split_ifs at hp
      exact absurd hp₁ (count_ne_one_of_xpcRetain hr (hget _) hone hp)
  · rintro ⟨o', es', ho', hu', hi, hout⟩
    obtain rfl : o = o' := Option.some.inj (ho.symm.trans ho')
    obtain rfl : es = es' := Payload.array.inj (hu.symm.trans hu')
    refine ⟨(leafCreate h v).1, ?_, (ownedOnce_of_leaf hw hleaf).mpr hone⟩
    change Arrays.xpcArraySetValue (leafCreate h v).1 a i h.size = _
    rw [Arrays.xpcArraySetValue, if_neg hi, Heap.deref_of_get ho₁, ok_bind,
      XpcObject.arr_of_xoU hu, ok_bind]
    rcases hout with hout | hout
    · rw [if_pos hout]
    · rw [List.getElem?_eq_none hout]
      split_ifs
      · rfl
      · rfl

end Setting

/-! ## All producers -/

/-- The calls that build a value themselves. -/
inductive Producer
  | deserialise (v : Val CString)
  | copy (n : ℕ) (x : ObjId)
  | dictionarySet (d : ObjId) (key : CString) (v : Leaf)
  | arraySet (a : ObjId) (i : ℕ) (v : Leaf)

namespace Producer

/-- The value is the result of the call, or what a setter creates. -/
def produce (h : Heap (List ObjId)) : Producer → Except Fault (Heap (List ObjId) × Option ObjId)
  | .deserialise v => deserialiseObject h v
  | .copy n x => xpcCopy n h x
  | .dictionarySet d key v => do
    let h' ← dictionarySetLeaf h d key v
    .ok (h', some (leafCreate h v).2)
  | .arraySet a i v => do
    let h' ← Arrays.arraySetLeaf h a i v
    .ok (h', some (leafCreate h v).2)

/-- The value that is read has the supported types throughout, what is copied is a
copyable tree, and the setters are called on a container of their type. -/
def Input (h : Heap (List ObjId)) : Producer → Prop
  | .deserialise v => Supported v ∧ Safe v
  | .copy n x => ∃ t, TreeAt h x t ∧ t.Copyable ∧ t.height < n
  | .dictionarySet d _ _ => IsDictionary h d
  | .arraySet a _ _ => IsArray h a

def Once (h : Heap (List ObjId)) : Producer → Prop
  | .deserialise v => ReceivedOnce v
  | .copy _ x => ∃ t, TreeAt h x t ∧ CopiedOnce t
  | .dictionarySet d key _ => Replaces h d key
  | .arraySet a i _ => LeavesOut h a i

end Producer

section Producing

variable {h : Heap (List ObjId)} {p : Producer}

theorem bind_some_iff {r : Except Fault (Heap (List ObjId))} {x : ObjId}
    {P : Heap (List ObjId) → ObjId → Prop} :
    (∃ h' y, (r >>= fun h' => .ok (h', some x)) = (.ok (h', some y) : Except Fault _) ∧ P h' y) ↔
      ∃ h', r = .ok h' ∧ P h' x := by
  cases r with
  | error e => simp
  | ok h' => simp

/-- The value is owned once, with every object in it, if and only if nothing that is
built counts both its creation and its slot. -/
theorem produce_ownedOnce_iff (hm : SlotsMade h) (hp : p.Input h) :
    (∃ h' x, p.produce h = .ok (h', some x) ∧ OwnedOnce h' x) ↔ p.Once h := by
  cases p with
  | deserialise v =>
    obtain ⟨h', he, hprod⟩ := deserialiseObject_produces hp.1 hp.2 hm
    simp [Producer.produce, Producer.Once, he, hprod.ownedOnce_iff]
  | copy n x =>
    obtain ⟨t, ht, hc, hn⟩ := hp
    obtain ⟨h', he, hprod⟩ := xpcCopy_produces hm ht hc hn
    have honce : (∃ u, TreeAt h x u ∧ CopiedOnce u) ↔ CopiedOnce t := by
      constructor
      · rintro ⟨u, hu, hcopied⟩
        rwa [hu.unique ht] at hcopied
      · exact fun hcopied => ⟨t, ht, hcopied⟩
    simp [Producer.produce, Producer.Once, he, hprod.ownedOnce_iff, honce]
  | dictionarySet d key v => exact bind_some_iff.trans (dictionarySetLeaf_ownedOnce_iff hp)
  | arraySet a i v => exact bind_some_iff.trans (arraySetLeaf_ownedOnce_iff hp)

/-- A received dictionary in which a key stands twice, each time with a boolean. -/
def keyTwice : Val CString :=
  .container (.array (.dictEntry .string .variant)) (List.replicate 2 (.container .dictEntry
    [.basic (.string keyK), .container (.variant (.basic .boolean)) [.basic (.boolean true)]]))

theorem keyTwice_ownedOnce :
    ∃ h' x, deserialiseObject ⟨[]⟩ keyTwice = .ok (h', some x) ∧ OwnedOnce h' x := by
  refine (produce_ownedOnce_iff (p := .deserialise keyTwice) slotsMade_empty ?_).mpr ?_
  · simp [Producer.Input, keyTwice, Supported, Safe, SafeDict, SafeIter]
  · simp [Producer.Once, keyTwice, ReceivedOnce, entriesOnce, iterOnce, Overwritten]

/-- The element of a received array, and a boolean set under a new key, have one slot
and a count of two. -/
theorem inserted_counts_two :
    (∃ h', deserialiseObject ⟨[]⟩ (.container (.array .variant)
        [.container (.variant (.basic .boolean)) [.basic (.boolean true)]]) = .ok (h', some 0) ∧
      h'.Slot 0 1 ∧ h'.slotsTo 1 = 1 ∧ (∃ o, h'.get 1 = some o ∧ o.xoRefcnt = 2) ∧
      ¬ OwnedOnce h' 0) ∧
    ∃ h', xpcDictionarySetBool ⟨[some ⟨0, 1, 0, .dictionary [], trivial⟩]⟩ 0 keyK true = .ok h' ∧
      h'.Slot 0 1 ∧ h'.slotsTo 1 = 1 ∧ (∃ o, h'.get 1 = some o ∧ o.xoRefcnt = 2) ∧
      ¬ OwnedOnce h' 1 := by
  have hslot : ∀ (h' : Heap (List ObjId)) o, h'.get 0 = some o → 1 ∈ o.slots → h'.Slot 0 1 :=
    fun h' o ho hmem => ⟨o, ho, hmem⟩
  constructor
  · refine ⟨_, rfl, hslot _ _ rfl (by decide), by decide, ⟨_, rfl, rfl⟩, ?_⟩
    rintro ⟨-, hall⟩
    obtain ⟨o, ho, hcount⟩ := hall 1 (.single (hslot _ _ rfl (by decide)))
    cases ho
    exact absurd hcount (by decide)
  · refine ⟨_, rfl, hslot _ _ rfl (by decide), by decide, ⟨_, rfl, rfl⟩, ?_⟩
    rintro ⟨⟨o, ho, hone⟩, -⟩
    cases ho
    exact absurd hone (by decide)

end Producing
end OpenXPC.ReferenceCounts
