import OpenXPC.Slots

/-! # Destroying objects

`xpc_object_destroy` frees an object after destroying everything in its slots,
whatever the counts of those objects are. -/
namespace OpenXPC

section Functions

variable {β : Type}

/-- The loop of the two container destructors: unlink a slot, destroy what it
holds, go on with the next one. -/
def destroyEach (unlink : XpcObject (List ObjId) → List β → XpcObject (List ObjId))
    (target : β → ObjId) (destroy : Heap (List ObjId) → ObjId → Except Fault (Heap (List ObjId)))
    (x : ObjId) : List β → Heap (List ObjId) → Except Fault (Heap (List ObjId))
  | [], h => .ok h
  | c :: cs, h => do
    let xo ← h.deref x
    let h ← destroy (h.set x (unlink xo cs)) (target c)
    destroyEach unlink target destroy x cs h

/-- Unlinking a pair leaves the size alone. -/
def xpcDictionaryDestroy (destroy : Heap (List ObjId) → ObjId → Except Fault (Heap (List ObjId)))
    (h : Heap (List ObjId)) (dict : ObjId) (pairs : Pairs) : Except Fault (Heap (List ObjId)) :=
  destroyEach (fun xo rest => xo.withPairs rest xo.xoSize) Prod.snd destroy dict pairs h

def xpcArrayDestroy (destroy : Heap (List ObjId) → ObjId → Except Fault (Heap (List ObjId)))
    (h : Heap (List ObjId)) (dict : ObjId) (elems : List ObjId) :
    Except Fault (Heap (List ObjId)) :=
  destroyEach (fun xo rest => xo.withArr rest) id destroy dict elems h

/-- The case split of `xpc_object_destroy` on the type. -/
def destroySlots (destroy : Heap (List ObjId) → ObjId → Except Fault (Heap (List ObjId)))
    (h : Heap (List ObjId)) (x : ObjId) : Payload (List ObjId) → Except Fault (Heap (List ObjId))
  | .dictionary pairs => xpcDictionaryDestroy destroy h x pairs
  | .array elems => xpcArrayDestroy destroy h x elems
  | .leaf _ => .ok h

/-- The fuel bounds the depth of the recursion. -/
def xpcObjectDestroy : ℕ → Heap (List ObjId) → ObjId → Except Fault (Heap (List ObjId))
  | 0, _, _ => .error .outOfFuel
  | n + 1, h, x => do
    let xo ← h.deref x
    let h ← destroySlots (xpcObjectDestroy n) h x xo.xoU
    -- the memory of `x` must still be there to be freed
    let _ ← h.deref x
    .ok (h.free x)

def XpcObject.released (o : XpcObject (List ObjId)) : XpcObject (List ObjId) :=
  { o with xoRefcnt := o.xoRefcnt - 1 }

/-- Every nested call of the destructor comes after the removal of a slot. -/
def xpcRelease (h : Heap (List ObjId)) (obj : ObjId) : Except Fault (Heap (List ObjId)) := do
  let xo ← h.deref obj
  let h := h.set obj xo.released
  if xo.xoRefcnt - 1 > 0 then .ok h else xpcObjectDestroy (h.slotTotal + 1) h obj

end Functions

/-- The count goes to zero. -/
theorem xpcRelease_last {h : Heap (List ObjId)} {x : ObjId} {o : XpcObject (List ObjId)}
    (hx : h.get x = some o) (hone : o.xoRefcnt = 1) : xpcRelease h x =
      xpcObjectDestroy ((h.set x o.released).slotTotal + 1) (h.set x o.released) x := by
  simp [xpcRelease, Heap.deref_of_get hx, hone]

/-! ## Accounted heaps -/

/-- Every referenced object is live, with its references counted. -/
def Accounted (h : Heap (List ObjId)) (owned : ObjId → ℕ) : Prop :=
  ∀ y, 0 < owned y + h.slotsTo y →
    ∃ p, h.get y = some p ∧ p.xoRefcnt.toNat = owned y + h.slotsTo y

/-- The size of an array is never written. -/
def XpcObject.UnsizedArray (o : XpcObject (List ObjId)) : Prop :=
  ∀ elems, o.xoU = .array elems → o.xoSize = 0

/-- Objects may be gone and slots removed, but nothing else has changed. -/
structure Shrinks (h h' : Heap (List ObjId)) : Prop where
  size : h'.size = h.size
  get_of_get : ∀ y p', h'.get y = some p' → ∃ p, h.get y = some p ∧ p'.xoRefcnt = p.xoRefcnt ∧
    p'.slots.Sublist p.slots ∧ (p.UnsizedArray → p'.UnsizedArray)

/-- Every object below, through slots, has a count of one. -/
def CountOneBelow (h : Heap (List ObjId)) (x : ObjId) : Prop :=
  ∀ y, Relation.TransGen h.Slot x y → ∀ p, h.get y = some p → p.xoRefcnt = 1

/-- An object is unreferenced, everything referenced is accounted for, and the
objects below are referenced once. -/
structure Destroyable (h : Heap (List ObjId)) (owned : ObjId → ℕ) (x : ObjId) : Prop where
  live : ∃ o, h.get x = some o
  unreferenced : owned x + h.slotsTo x = 0
  accounted : Accounted h owned
  below : CountOneBelow h x

/-- What the destruction of an object, or of its slots, does to the others. -/
structure Removes (h h' : Heap (List ObjId)) (owned : ObjId → ℕ) (x : ObjId) : Prop where
  accounted : Accounted h' owned
  shrinks : Shrinks h h'
  unreferenced : ∀ y p, y ≠ x → owned y + h.slotsTo y = 0 → h.get y = some p → h'.get y = some p

/-! ## Detached trees -/

/-- The object is not below itself, and each object below it is held by one slot. -/
structure Rooted (h : Heap (List ObjId)) (x : ObjId) : Prop where
  acyclic : ¬ Relation.TransGen h.Slot x x
  once : ∀ y, Relation.TransGen h.Slot x y → h.slotsTo y = 1

def LiveBelow (h : Heap (List ObjId)) (x : ObjId) : Prop := h.AllBelow (fun c => ∃ o, c = some o) x

/-- Nothing holds the object, and each object below it is live and held by one slot. -/
structure Detached (h : Heap (List ObjId)) (x : ObjId) : Prop where
  live : ∀ y, Relation.ReflTransGen h.Slot x y → ∃ o, h.get y = some o
  root : h.slotsTo x = 0
  once : ∀ y, Relation.TransGen h.Slot x y → h.slotsTo y = 1

/-- The object and all objects below it are freed, and the others are as before. -/
structure Frees (h h' : Heap (List ObjId)) (x : ObjId) : Prop where
  size : h'.size = h.size
  below : ∀ y, Relation.ReflTransGen h.Slot x y → h'.get y = none
  other : ∀ y, ¬ Relation.ReflTransGen h.Slot x y → h'.get y = h.get y

variable {h h' h'' : Heap (List ObjId)} {owned : ObjId → ℕ} {x y z c : ObjId}

theorem not_slot_of_slotsTo (hx : h.slotsTo x = 0) : ¬ h.Slot z x := by
  intro hslot
  have hpos := Heap.slotsTo_pos_iff.mpr ⟨z, hslot⟩
  omega

theorem Detached.rooted (hx : Detached h x) : Rooted h x where
  acyclic := by
    intro hxx
    obtain ⟨z, -, hz⟩ := Relation.TransGen.tail'_iff.mp hxx
    exact not_slot_of_slotsTo hx.root hz
  once := hx.once

theorem Rooted.ne_of_below (hx : Rooted h x) (hy : Relation.TransGen h.Slot x y) : y ≠ x := by
  rintro rfl
  exact hx.acyclic hy

/-- What holds an object of the tree belongs to the tree. -/
theorem Rooted.holder (hx : Rooted h x) (hroot : h.slotsTo x = 0)
    (hy : Relation.ReflTransGen h.Slot x y) (hz : h.Slot z y) :
    Relation.ReflTransGen h.Slot x z := by
  rcases Relation.reflTransGen_iff_eq_or_transGen.mp hy with rfl | hy
  · exact absurd hz (not_slot_of_slotsTo hroot)
  · obtain ⟨u, hu, huy⟩ := Relation.TransGen.tail'_iff.mp hy
    rwa [Heap.eq_of_slotsTo_eq_one (hx.once y hy) hz huy]

theorem Frees.not_below (hf : Frees h h' x) {p : XpcObject (List ObjId)} (hp : h'.get y = some p) :
    ¬ Relation.ReflTransGen h.Slot x y := by
  intro hy
  rw [hf.below y hy] at hp
  cases hp

theorem Frees.get_of_get (hf : Frees h h' x) {p : XpcObject (List ObjId)} (hp : h'.get y = some p) :
    h.get y = some p := by
  rw [← hf.other y (hf.not_below hp), hp]

theorem Frees.slot (hf : Frees h h' x) (hyz : h'.Slot y z) :
    h.Slot y z ∧ ¬ Relation.ReflTransGen h.Slot x y := by
  obtain ⟨o, ho, hz⟩ := hyz
  exact ⟨⟨o, hf.get_of_get ho, hz⟩, hf.not_below ho⟩

/-- The destruction adds no slots. -/
theorem Frees.slotTotal_le (hf : Frees h h' x) : h'.slotTotal ≤ h.slotTotal :=
  Heap.total_mono hf.size (fun _ p hp => ⟨p, hf.get_of_get hp, Nat.le_refl _⟩)

/-- No slot is left that holds an object of the tree. -/
theorem Frees.slotsTo_below (hf : Frees h h' x) (hx : Rooted h x) (hroot : h.slotsTo x = 0)
    (hy : Relation.ReflTransGen h.Slot x y) : h'.slotsTo y = 0 := by
  by_contra hne
  obtain ⟨z, hz⟩ := Heap.slotsTo_pos_iff.mp (Nat.pos_of_ne_zero hne)
  obtain ⟨hz, hnot⟩ := hf.slot hz
  exact hnot (hx.holder hroot hy hz)

/-- The slots that hold other objects are all left. -/
theorem Frees.slotsTo_other (hf : Frees h h' x) (hy : ¬ Relation.ReflTransGen h.Slot x y) :
    h'.slotsTo y = h.slotsTo y := by
  rw [Heap.slotsTo, Heap.slotsTo, Heap.total, Heap.total, hf.size]
  apply Finset.sum_congr rfl
  intro z _
  by_cases hz : Relation.ReflTransGen h.Slot x z
  · rw [Heap.weight, Heap.weight, hf.below z hz]
    cases ho : h.get z with
    | none => rfl
    | some o =>
      have hno : y ∉ o.slots := fun hmem => hy (hz.tail ⟨o, ho, hmem⟩)
      simp [List.count_eq_zero_of_not_mem hno]
  · rw [Heap.weight, Heap.weight, hf.other z hz]

section Unlinking

variable {o o₁ : XpcObject (List ObjId)} {cs : List ObjId}

theorem slotsTo_unlink (ho : h.get x = some o) (hslots : o.slots = c :: cs) (hslots₁ : o₁.slots = cs)
    (y : ObjId) : (h.set x o₁).slotsTo y + [c].count y = h.slotsTo y := by
  have htotal := Heap.total_set (f := fun o => o.slots.count y) ho o₁
  simp only [hslots, hslots₁] at htotal
  have hcons : (c :: cs).count y = [c].count y + cs.count y := @List.count_append _ _ y [c] cs
  simp only [Heap.slotsTo]
  omega

theorem slotTotal_unlink (ho : h.get x = some o) (hslots : o.slots = c :: cs)
    (hslots₁ : o₁.slots = cs) : (h.set x o₁).slotTotal + 1 = h.slotTotal := by
  have htotal := Heap.total_set (f := fun o => o.slots.length) ho o₁
  simp only [hslots, hslots₁, List.length_cons] at htotal
  simp only [Heap.slotTotal]
  omega

theorem slot_unlink (ho : h.get x = some o) (hslots : o.slots = c :: cs) (hslots₁ : o₁.slots = cs)
    (hyz : (h.set x o₁).Slot y z) : h.Slot y z := by
  obtain ⟨p, hp, hz⟩ := hyz
  rw [Heap.get_set ho] at hp
  split_ifs at hp with hyx
  · cases hp
    exact ⟨o, hyx ▸ ho, by rw [hslots]; exact List.mem_cons_of_mem c (hslots₁ ▸ hz)⟩
  · exact ⟨p, hp, hz⟩

theorem below_unlink (ho : h.get x = some o) (hslots : o.slots = c :: cs) (hslots₁ : o₁.slots = cs)
    (hy : Relation.ReflTransGen (h.set x o₁).Slot c y) : Relation.TransGen h.Slot x y :=
  .head' ⟨o, ho, by simp [hslots]⟩
    (Relation.ReflTransGen.mono (fun _ _ hab => slot_unlink ho hslots hslots₁ hab) _ _ hy)

/-- The object in a slot of a rooted one is rooted, and held by no slot, once the slot is
unlinked. -/
theorem Rooted.unlink (hx : Rooted h x) (ho : h.get x = some o) (hslots : o.slots = c :: cs)
    (hslots₁ : o₁.slots = cs) : Rooted (h.set x o₁) c ∧ (h.set x o₁).slotsTo c = 0 := by
  have hslot : h.Slot x c := ⟨o, ho, by simp [hslots]⟩
  have hroot : (h.set x o₁).slotsTo c = 0 := by
    have hcount := slotsTo_unlink ho hslots hslots₁ c
    have hone := hx.once c (.single hslot)
    rw [List.count_singleton_self] at hcount
    omega
  refine ⟨⟨fun hcc => ?_, fun y hy => ?_⟩, hroot⟩
  · obtain ⟨u, -, hu⟩ := Relation.TransGen.tail'_iff.mp hcc
    exact not_slot_of_slotsTo hroot hu
  · obtain ⟨u, -, hu⟩ := Relation.TransGen.tail'_iff.mp hy
    have hyc : y ≠ c := by
      rintro rfl
      exact not_slot_of_slotsTo hroot hu
    have hcount := slotsTo_unlink ho hslots hslots₁ y
    have hbelow := below_unlink ho hslots hslots₁ hy.to_reflTransGen
    rw [List.count_eq_zero_of_not_mem (by simp [hyc]), hx.once y hbelow] at hcount
    exact hcount

theorem LiveBelow.unlink (hlive : LiveBelow h x) (ho : h.get x = some o) (hslots : o.slots = c :: cs)
    (hslots₁ : o₁.slots = cs) : LiveBelow (h.set x o₁) c := by
  intro y hy
  obtain ⟨p, hp⟩ := hlive y (below_unlink ho hslots hslots₁ hy).to_reflTransGen
  rw [Heap.get_set ho]
  split_ifs
  · exact ⟨o₁, rfl⟩
  · exact ⟨p, hp⟩

/-- The tree of an unlinked slot leaves the rest of the tree as it was. -/
structure Rooted.Remains (h h' : Heap (List ObjId)) (x c : ObjId) (o₁ : XpcObject (List ObjId)) :
    Prop where
  root : h'.get x = some o₁
  rooted : Rooted h' x
  below : ∀ y, Relation.TransGen h'.Slot x y → Relation.TransGen h.Slot x y
  kept : ∀ y, Relation.TransGen h'.Slot x y → h'.get y = h.get y
  split : ∀ y, Relation.TransGen h.Slot x y →
    Relation.ReflTransGen (h.set x o₁).Slot c y ∨ Relation.TransGen h'.Slot x y
  other : ∀ y, y ≠ x → ¬ Relation.TransGen h.Slot x y → h'.get y = h.get y

theorem Rooted.remains (hx : Rooted h x) (ho : h.get x = some o) (hslots : o.slots = c :: cs)
    (hslots₁ : o₁.slots = cs) (hf : Frees (h.set x o₁) h' c) : Rooted.Remains h h' x c o₁ := by
  obtain ⟨hc, hroot⟩ := hx.unlink ho hslots hslots₁
  have hset : ∀ y, y ≠ x → (h.set x o₁).get y = h.get y := by
    intro y hyx
    rw [Heap.get_set ho, if_neg hyx]
  have hback : ∀ y z, h'.Slot y z → h.Slot y z :=
    fun y z hyz => slot_unlink ho hslots hslots₁ (hf.slot hyz).1
  have hbelow : ∀ y, Relation.ReflTransGen (h.set x o₁).Slot c y → Relation.TransGen h.Slot x y :=
    fun y hy => below_unlink ho hslots hslots₁ hy
  have hget : h'.get x = some o₁ := by
    rw [hf.other x (fun hcx => hx.acyclic (hbelow x hcx)), Heap.get_set ho, if_pos rfl]
  -- a slot that is left does not hold anything of the tree freed
  have hleft : ∀ y z, h'.Slot y z → ¬ Relation.ReflTransGen (h.set x o₁).Slot c z :=
    fun y z hyz hcz => (hf.slot hyz).2 (hc.holder hroot hcz (hf.slot hyz).1)
  have hkept : ∀ y, Relation.TransGen h'.Slot x y → h'.get y = h.get y := by
    intro y hy
    obtain ⟨u, -, hu⟩ := Relation.TransGen.tail'_iff.mp hy
    rw [hf.other y (hleft u y hu), hset y (hx.ne_of_below (Relation.TransGen.mono hback x y hy))]
  have hle : ∀ y, h'.slotsTo y ≤ h.slotsTo y := by
    intro y
    have hcount := slotsTo_unlink ho hslots hslots₁ y
    by_cases hy : Relation.ReflTransGen (h.set x o₁).Slot c y
    · rw [hf.slotsTo_below hc hroot hy]
      exact Nat.zero_le _
    · rw [hf.slotsTo_other hy]
      omega
  refine ⟨hget, ⟨fun hxx => hx.acyclic (Relation.TransGen.mono hback x x hxx), fun y hy => ?_⟩,
    fun y hy => Relation.TransGen.mono hback x y hy, hkept, ?_, ?_⟩
  · obtain ⟨u, -, hu⟩ := Relation.TransGen.tail'_iff.mp hy
    have hpos := Heap.slotsTo_pos_iff.mpr ⟨u, hu⟩
    have hone := hx.once y (Relation.TransGen.mono hback x y hy)
    have hley := hle y
    omega
  · -- the path is followed until it enters the tree freed, if it does
    intro y hy
    have hstep : ∀ u v, h.Slot u v → u ≠ x → (h.set x o₁).Slot u v := by
      rintro u v ⟨p, hp, hv⟩ hux
      exact ⟨p, by rw [hset u hux, hp], hv⟩
    have hstays : ∀ u v, (h.set x o₁).Slot u v →
        ¬ Relation.ReflTransGen (h.set x o₁).Slot c u → h'.Slot u v := by
      rintro u v ⟨p, hp, hv⟩ hu
      exact ⟨p, by rw [hf.other u hu, hp], hv⟩
    induction hy with
    | single hxv =>
      obtain ⟨p, hp, hv⟩ := hxv
      obtain rfl : o = p := Option.some.inj (ho.symm.trans hp)
      rw [hslots] at hv
      rcases List.mem_cons.mp hv with rfl | hv
      · exact .inl .refl
      · exact .inr (.single ⟨o₁, hget, hslots₁ ▸ hv⟩)
    | @tail u v hxu huv ih =>
      have huv₁ := hstep u v huv (hx.ne_of_below hxu)
      rcases ih with hcu | hxu'
      · exact .inl (hcu.tail huv₁)
      · by_cases hcu : Relation.ReflTransGen (h.set x o₁).Slot c u
        · exact .inl (hcu.tail huv₁)
        · exact .inr (hxu'.tail (hstays u v huv₁ hcu))
  · intro y hyx hy
    rw [hf.other y (fun hcy => hy (hbelow y hcy)), hset y hyx]

/-- What is left of the tree is as live as before. -/
theorem Rooted.Remains.liveBelow (hr : Rooted.Remains h h' x c o₁) (hlive : LiveBelow h x) :
    LiveBelow h' x := by
  intro y hy
  rcases Relation.reflTransGen_iff_eq_or_transGen.mp hy with rfl | hy
  · exact ⟨o₁, hr.root⟩
  · rw [hr.kept y hy]
    exact hlive y (hr.below y hy).to_reflTransGen

/-- The slots do not depend on the counts. -/
theorem slot_recount (hx : h.get x = some o) (o₁ : XpcObject (List ObjId)) (hu : o₁.xoU = o.xoU) :
    (h.set x o₁).Slot = h.Slot ∧ ∀ y, (h.set x o₁).slotsTo y = h.slotsTo y := by
  have hsame : o₁.slots = o.slots := by rw [XpcObject.slots, XpcObject.slots, hu]
  constructor
  · funext y z
    apply propext
    simp only [Heap.Slot, Heap.get_set hx]
    by_cases hyx : y = x
    · subst hyx
      simp [hx, hsame]
    · simp [hyx]
  · intro y
    have htotal := Heap.total_set (f := fun o => o.slots.count y) hx o₁
    simp only [hsame] at htotal
    exact Nat.add_right_cancel htotal

theorem Detached.recount (hd : Detached h x) (hx : h.get x = some o) (o₁ : XpcObject (List ObjId))
    (hu : o₁.xoU = o.xoU) : Detached (h.set x o₁) x := by
  obtain ⟨hslot, hcounts⟩ := slot_recount hx o₁ hu
  refine ⟨fun y hy => ?_, by rw [hcounts, hd.root], fun y hy => ?_⟩
  · rw [hslot] at hy
    obtain ⟨q, hq⟩ := hd.live y hy
    rw [Heap.get_set hx]
    split_ifs
    · exact ⟨o₁, rfl⟩
    · exact ⟨q, hq⟩
  · rw [hslot] at hy
    rw [hcounts, hd.once y hy]

end Unlinking

/-- How a kind of container is unlinked: `mk` is its payload. -/
structure Unlinks {β : Type} (mk : List β → Payload (List ObjId))
    (unlink : XpcObject (List ObjId) → List β → XpcObject (List ObjId)) (target : β → ObjId) :
    Prop where
  payload : ∀ o rest, (unlink o rest).xoU = mk rest
  refcnt : ∀ o rest, (unlink o rest).xoRefcnt = o.xoRefcnt
  slots : ∀ cs, (mk cs).slots = cs.map target
  unsized : ∀ o cs rest, o.xoU = mk cs → o.UnsizedArray → (unlink o rest).UnsizedArray

theorem unlinks_dictionary : Unlinks .dictionary
    (fun (xo : XpcObject (List ObjId)) rest => xo.withPairs rest xo.xoSize) Prod.snd :=
  ⟨fun _ _ => rfl, fun _ _ => rfl, fun _ => rfl, fun _ _ _ _ _ elems he => by cases he⟩

theorem unlinks_array : Unlinks .array
    (fun (xo : XpcObject (List ObjId)) rest => xo.withArr rest) id :=
  ⟨fun _ _ => rfl, fun _ _ => rfl, fun cs => (List.map_id cs).symm,
    fun _ cs _ ho hsize _ _ => hsize cs ho⟩

section Destroying

variable {β : Type} {mk : List β → Payload (List ObjId)}
  {unlink : XpcObject (List ObjId) → List β → XpcObject (List ObjId)} {target : β → ObjId}
  {destroy : Heap (List ObjId) → ObjId → Except Fault (Heap (List ObjId))} {n : ℕ}
  {cs : List β} {o : XpcObject (List ObjId)}

theorem Unlinks.slots_cons (hu : Unlinks mk unlink target) {b : β} (hmk : o.xoU = mk (b :: cs)) :
    o.slots = target b :: cs.map target ∧ (unlink o cs).slots = cs.map target := by
  constructor
  · rw [XpcObject.slots, hmk, hu.slots, List.map_cons]
  · rw [XpcObject.slots, hu.payload, hu.slots]

theorem Unlinks.not_below (hu : Unlinks mk unlink target) (ho : h.get x = some o)
    (hmk : o.xoU = mk []) : ¬ Relation.TransGen h.Slot x y := by
  intro hy
  obtain ⟨z, ⟨p, hp, hz⟩, -⟩ := Relation.TransGen.head'_iff.mp hy
  obtain rfl : o = p := Option.some.inj (ho.symm.trans hp)
  simp [XpcObject.slots, hmk, hu.slots] at hz

/-- A leaf has no slots. -/
theorem not_below_of_leaf {v : Leaf} (ho : h.get x = some o) (hv : o.xoU = .leaf v) :
    ¬ Relation.TransGen h.Slot x y := by
  intro hy
  obtain ⟨z, ⟨p, hp, hz⟩, -⟩ := Relation.TransGen.head'_iff.mp hy
  obtain rfl : o = p := Option.some.inj (ho.symm.trans hp)
  simp [XpcObject.slots, hv, Payload.slots] at hz

theorem destroyEach_frees (hu : Unlinks mk unlink target)
    (hdestroy : ∀ h c, Rooted h c → LiveBelow h c → h.slotTotal < n →
      ∃ h', destroy h c = .ok h' ∧ Frees h h' c)
    (hx : Rooted h x) (hlive : LiveBelow h x) (ho : h.get x = some o) (hmk : o.xoU = mk cs)
    (hn : h.slotTotal ≤ n) :
    ∃ h', destroyEach unlink target destroy x cs h = .ok h' ∧ (∃ o', h'.get x = some o') ∧
      h'.size = h.size ∧ (∀ y, Relation.TransGen h.Slot x y → h'.get y = none) ∧
      ∀ y, y ≠ x → ¬ Relation.TransGen h.Slot x y → h'.get y = h.get y := by
  induction cs generalizing h o with
  | nil => exact ⟨h, rfl, ⟨o, ho⟩, rfl, fun y hy => absurd hy (hu.not_below ho hmk), fun y _ _ => rfl⟩
  | cons c cs ih =>
    obtain ⟨hslots, hslots₁⟩ := hu.slots_cons hmk
    have hless := slotTotal_unlink ho hslots hslots₁
    obtain ⟨h₁, he₁, hf⟩ := hdestroy _ _ (hx.unlink ho hslots hslots₁).1
      (hlive.unlink ho hslots hslots₁) (by omega)
    have hr := hx.remains ho hslots hslots₁ hf
    have hle := hf.slotTotal_le
    obtain ⟨h₂, he₂, hroot, hsize, hbelow, hother⟩ :=
      ih hr.rooted (hr.liveBelow hlive) hr.root (hu.payload o cs) (by omega)
    refine ⟨h₂, by simp [destroyEach, Heap.deref_of_get ho, he₁, he₂], hroot, ?_, ?_, ?_⟩
    · rw [hsize, hf.size, Heap.size_set]
    · intro y hy
      by_cases hy' : Relation.TransGen h₁.Slot x y
      · exact hbelow y hy'
      · have hgone := hf.below y ((hr.split y hy).resolve_right hy')
        rw [hother y (hx.ne_of_below hy) hy', hgone]
    · intro y hyx hy
      rw [hother y hyx (fun hy' => hy (hr.below y hy')), hr.other y hyx hy]

/-- The destruction of a rooted object frees its tree and nothing else. -/
theorem xpcObjectDestroy_frees (hx : Rooted h x) (hlive : LiveBelow h x) (hn : h.slotTotal < n) :
    ∃ h', xpcObjectDestroy n h x = .ok h' ∧ Frees h h' x := by
  induction n generalizing h x with
  | zero => omega
  | succ n ih =>
    obtain ⟨o, ho⟩ := hlive x .refl
    have hslots : ∃ h₁, destroySlots (xpcObjectDestroy n) h x o.xoU = .ok h₁ ∧
        (∃ o', h₁.get x = some o') ∧ h₁.size = h.size ∧
        (∀ y, Relation.TransGen h.Slot x y → h₁.get y = none) ∧
        ∀ y, y ≠ x → ¬ Relation.TransGen h.Slot x y → h₁.get y = h.get y := by
      have hdestroy := fun h c hc hlive hless => @ih h c hc hlive hless
      cases hkind : o.xoU with
      | leaf v =>
        exact ⟨h, rfl, ⟨o, ho⟩, rfl, fun y hy => absurd hy (not_below_of_leaf ho hkind),
          fun y _ _ => rfl⟩
      | array elems => exact destroyEach_frees unlinks_array hdestroy hx hlive ho hkind (by omega)
      | dictionary pairs =>
        exact destroyEach_frees unlinks_dictionary hdestroy hx hlive ho hkind (by omega)
    obtain ⟨h₁, he, ⟨o₁, ho₁⟩, hsize, hbelow, hother⟩ := hslots
    refine ⟨h₁.free x, ?_, by rw [Heap.size_free, hsize], fun y hy => ?_, fun y hy => ?_⟩
    · rw [xpcObjectDestroy, Heap.deref_of_get ho, ok_bind, he, ok_bind, Heap.deref_of_get ho₁, ok_bind]
    · rw [Heap.get_free]
      rcases Relation.reflTransGen_iff_eq_or_transGen.mp hy with rfl | hy
      · exact if_pos rfl
      · rw [if_neg (hx.ne_of_below hy), hbelow y hy]
    · have hyx : y ≠ x := by
        rintro rfl
        exact hy .refl
      rw [Heap.get_free, if_neg hyx, hother y hyx (fun h => hy h.to_reflTransGen)]

theorem destroyEach_live (hu : Unlinks mk unlink target)
    (hdestroy : ∀ h c h', Rooted h c → h.slotTotal < n → destroy h c = .ok h' →
      LiveBelow h c ∧ Frees h h' c)
    (hx : Rooted h x) (ho : h.get x = some o) (hmk : o.xoU = mk cs) (hn : h.slotTotal ≤ n)
    (he : destroyEach unlink target destroy x cs h = .ok h') :
    ∀ y, Relation.TransGen h.Slot x y → ∃ p, h.get y = some p := by
  induction cs generalizing h o with
  | nil => exact fun y hy => absurd hy (hu.not_below ho hmk)
  | cons c cs ih =>
    obtain ⟨hslots, hslots₁⟩ := hu.slots_cons hmk
    have hless := slotTotal_unlink ho hslots hslots₁
    rw [destroyEach, Heap.deref_of_get ho, ok_bind] at he
    obtain ⟨h₁, he₁, he⟩ := bind_eq_ok.mp he
    obtain ⟨hlive, hf⟩ := hdestroy _ _ _ (hx.unlink ho hslots hslots₁).1 (by omega) he₁
    have hr := hx.remains ho hslots hslots₁ hf
    have hle := hf.slotTotal_le
    intro y hy
    rcases hr.split y hy with hcy | hxy
    · obtain ⟨p, hp⟩ := hlive y hcy
      rw [Heap.get_set ho, if_neg (hx.ne_of_below hy)] at hp
      exact ⟨p, hp⟩
    · rw [← hr.kept y hxy]
      exact ih hr.rooted hr.root (hu.payload o cs) (by omega) he y hxy

/-- The destruction of a rooted object does not return unless its whole tree is live. -/
theorem xpcObjectDestroy_live (hx : Rooted h x) (hn : h.slotTotal < n)
    (he : xpcObjectDestroy n h x = .ok h') : LiveBelow h x := by
  induction n generalizing h x h' with
  | zero => omega
  | succ n ih =>
    obtain ⟨o, ho, he⟩ := bind_eq_ok.mp he
    have ho := Heap.get_of_deref ho
    obtain ⟨h₁, he₁, -⟩ := bind_eq_ok.mp he
    have hdestroy : ∀ h c h', Rooted h c → h.slotTotal < n → xpcObjectDestroy n h c = .ok h' →
        LiveBelow h c ∧ Frees h h' c := by
      intro h c h' hc hless he
      have hlive := ih hc hless he
      obtain ⟨h'', he', hf⟩ := xpcObjectDestroy_frees hc hlive hless
      obtain rfl : h' = h'' := Except.ok.inj (he.symm.trans he')
      exact ⟨hlive, hf⟩
    intro y hy
    rcases Relation.reflTransGen_iff_eq_or_transGen.mp hy with rfl | hy
    · exact ⟨o, ho⟩
    · cases hkind : o.xoU with
      | leaf v => exact absurd hy (not_below_of_leaf ho hkind)
      | array elems =>
        rw [hkind] at he₁
        exact destroyEach_live unlinks_array hdestroy hx ho hkind (by omega) he₁ y hy
      | dictionary pairs =>
        rw [hkind] at he₁
        exact destroyEach_live unlinks_dictionary hdestroy hx ho hkind (by omega) he₁ y hy

end Destroying

/-! ## Destruction in an accounted heap -/

/-- The only reference to an object below a destroyable one is one slot. -/
theorem Destroyable.once (hx : Destroyable h owned x) (hy : Relation.TransGen h.Slot x y) :
    owned y = 0 ∧ h.slotsTo y = 1 := by
  obtain ⟨z, -, hz⟩ := Relation.TransGen.tail'_iff.mp hy
  have hpos := Heap.slotsTo_pos_iff.mpr ⟨z, hz⟩
  obtain ⟨p, hp, hcount⟩ := hx.accounted y (by omega)
  rw [hx.below y hy p hp] at hcount
  have hone : (1 : UInt32).toNat = 1 := rfl
  omega

theorem Destroyable.detached (hx : Destroyable h owned x) : Detached h x := by
  have hzero := hx.unreferenced
  refine ⟨fun y hy => ?_, by omega, fun y hy => (hx.once hy).2⟩
  rcases Relation.reflTransGen_iff_eq_or_transGen.mp hy with rfl | hy
  · exact hx.live
  · have hone := hx.once hy
    obtain ⟨p, hp, -⟩ := hx.accounted y (by omega)
    exact ⟨p, hp⟩

/-- Destroying a destroyable object frees each object at most once, and leaves
every referenced object live and accounted for. -/
theorem xpcObjectDestroy_ok {n : ℕ} (hx : Destroyable h owned x) (hn : h.slotTotal < n) :
    ∃ h', xpcObjectDestroy n h x = .ok h' ∧ Removes h h' owned x := by
  obtain ⟨h', he, hf⟩ := xpcObjectDestroy_frees hx.detached.rooted hx.detached.live hn
  have hzero := hx.unreferenced
  refine ⟨h', he, fun y hy => ?_, ⟨hf.size, fun y p hp => ?_⟩, fun y p hyx hy hp => ?_⟩
  · have hbelow : ¬ Relation.ReflTransGen h.Slot x y := by
      intro hbelow
      rw [hf.slotsTo_below hx.detached.rooted hx.detached.root hbelow] at hy
      rcases Relation.reflTransGen_iff_eq_or_transGen.mp hbelow with rfl | hbelow
      · omega
      · have hone := hx.once hbelow
        omega
    rw [hf.slotsTo_other hbelow] at hy ⊢
    rw [hf.other y hbelow]
    exact hx.accounted y hy
  · exact ⟨p, hf.get_of_get hp, rfl, List.Sublist.refl _, id⟩
  · have hbelow : ¬ Relation.ReflTransGen h.Slot x y := by
      intro hbelow
      rcases Relation.reflTransGen_iff_eq_or_transGen.mp hbelow with rfl | hbelow
      · exact hyx rfl
      · have hone := hx.once hbelow
        omega
    rw [hf.other y hbelow, hp]

end OpenXPC
