import OpenXPC.Destruction
import OpenXPC.GuardedRuns

/-! # References and lifetimes

The client creates, retains and releases objects and puts them into containers.
The count of an object should be the references the client owns plus the slots
of live containers that hold it. -/
namespace OpenXPC.Lifetimes
open InsertionMap GuardedRuns

/-- All constructors of values without children are `createLeaf`. -/
inductive Op
  | createLeaf (v : Leaf)
  | createArray (objects : List ObjId)
  | createDictionary (entries : Pairs)
  | retain (obj : ObjId)
  | release (obj : ObjId)
  | dictionarySetValue (xdict : ObjId) (key : CString) (value : ObjId)
  | arrayAppendValue (xarray value : ObjId)
  | arraySetValue (xarray : ObjId) (index : ℕ) (value : ObjId)

/-- The heap, and how many references to each object the client owns. -/
structure State where
  heap : Heap (List ObjId)
  owned : ObjId → ℕ

def execHeap (h : Heap (List ObjId)) : Op → Except Fault (Heap (List ObjId))
  | .createLeaf v => .ok (leafCreate h v).1
  | .createArray objects => (Arrays.xpcArrayCreate h objects).map Prod.fst
  | .createDictionary entries => (xpcDictionaryCreate h entries).map Prod.fst
  | .retain x => xpcRetain h x
  | .release x => xpcRelease h x
  | .dictionarySetValue d k v => xpcDictionarySetValue h d k v
  | .arrayAppendValue a v => Arrays.xpcArrayAppendValue h a v
  | .arraySetValue a i v => Arrays.xpcArraySetValue h a i v

/-- One reference per create and one per retain. -/
def ownedAfter (s : State) : Op → ObjId → ℕ
  | .createLeaf _ => Function.update s.owned s.heap.size 1
  | .createArray _ => Function.update s.owned s.heap.size 1
  | .createDictionary _ => Function.update s.owned s.heap.size 1
  | .retain x => Function.update s.owned x (s.owned x + 1)
  | .release x => Function.update s.owned x (s.owned x - 1)
  | _ => s.owned

def exec (s : State) (op : Op) : Except Fault State := do
  let heap ← execHeap s.heap op
  .ok { heap, owned := ownedAfter s op }

/-- The client owns a reference to the object, or a live container holds it. -/
def Usable (s : State) (x : ObjId) : Prop := 0 < s.owned x + s.heap.slotsTo x

def HasArray (h : Heap (List ObjId)) (a : ObjId) : Prop :=
  ∃ o es, h.get a = some o ∧ o.xoU = .array es

/-- Objects passed are usable, containers have their type, and only owned
references are released. -/
def allowed (s : State) : Op → Prop
  | .createLeaf _ => True
  | .createArray objects => ∀ v ∈ objects, Usable s v
  | .createDictionary entries => ∀ p ∈ entries, Usable s p.2
  | .retain x => Usable s x
  | .release x => 0 < s.owned x
  | .dictionarySetValue d _ v => IsDictionary s.heap d ∧ Usable s v
  | .arrayAppendValue a v => HasArray s.heap a ∧ Usable s v
  | .arraySetValue a _ v => HasArray s.heap a ∧ Usable s v

def machine : Machine State Op Fault := ⟨allowed, exec⟩

def Initial (s : State) : Prop := s.heap.size = 0 ∧ ∀ x, s.owned x = 0

/-- Nothing owned and nothing held by a live container has been destroyed. A
second destruction of an object is a fault of the run. -/
structure Safe (s : State) : Prop where
  owned : ∀ x, 0 < s.owned x → ∃ o, s.heap.get x = some o
  held : ∀ c x, s.heap.Slot c x → ∃ o, s.heap.get x = some o

/-! ## The condition -/

/-- Another `n` references do not overflow the counter. -/
def CountsUpTo (h : Heap (List ObjId)) (x : ObjId) (n : ℕ) : Prop :=
  ∀ o, h.get x = some o → o.xoRefcnt.toNat + n < 2 ^ 32

/-- A key is set to another value nowhere, no counter overflows, and when the
last reference to an object goes, everything below it has a count of one. -/
def Regular (s : State) : Op → Prop
  | .createLeaf _ => True
  | .createArray objects => ∀ v, CountsUpTo s.heap v (objects.count v)
  | .createDictionary entries =>
    (∀ p ∈ entries, ∀ q ∈ entries, p.1 = q.1 → p.2 = q.2) ∧
      ∀ v, CountsUpTo s.heap v (((build entries).map Prod.snd).count v)
  | .retain x => CountsUpTo s.heap x 1
  | .release x => ∀ o, s.heap.get x = some o → o.xoRefcnt = 1 → CountOneBelow s.heap x
  | .dictionarySetValue d k v => ∀ o ps, s.heap.get d = some o → o.xoU = .dictionary ps →
    ps.lookup k = some v ∨ (ps.lookup k = none ∧ CountsUpTo s.heap v 1)
  | .arrayAppendValue _ v => CountsUpTo s.heap v 1
  | .arraySetValue _ i v => i = xpcArrayAppend → CountsUpTo s.heap v 1

/-! ## The accounting invariant -/

structure Sound (h : Heap (List ObjId)) (owned : ObjId → ℕ) : Prop where
  accounted : Accounted h owned
  unsized : h.Forall XpcObject.UnsizedArray

variable {h h' : Heap (List ObjId)} {owned : ObjId → ℕ} {x v d : ObjId}
  {o o₁ w : XpcObject (List ObjId)}

theorem Sound.safe {s : State} (hs : Sound s.heap s.owned) : Safe s := by
  constructor
  · intro x hx
    obtain ⟨p, hp, -⟩ := hs.accounted x (by omega)
    exact ⟨p, hp⟩
  · intro c x hslot
    have hpos := Heap.slotsTo_pos_iff.mpr ⟨c, hslot⟩
    obtain ⟨p, hp, -⟩ := hs.accounted x (by omega)
    exact ⟨p, hp⟩

/-- The heap counts one reference to `v` too few. -/
structure OneShort (h : Heap (List ObjId)) (owned : ObjId → ℕ) (v : ObjId) : Prop where
  accounted : ∀ y, 0 < owned y + h.slotsTo y →
    ∃ p, h.get y = some p ∧ p.xoRefcnt.toNat + [v].count y = owned y + h.slotsTo y
  unsized : h.Forall XpcObject.UnsizedArray

theorem toNat_retained {o : XpcObject (List ObjId)} (ho : o.xoRefcnt.toNat + 1 < 2 ^ 32) :
    o.retained.xoRefcnt.toNat = o.xoRefcnt.toNat + 1 := by
  have hone : (1 : UInt32).toNat = 1 := rfl
  simp only [XpcObject.retained, UInt32.toNat_add, hone]
  omega

/-- Retaining makes up for a missing reference. -/
theorem OneShort.retain (hs : OneShort h owned v) (hv : h.get v = some w) (hcan : CountsUpTo h v 1) :
    ∃ h', xpcRetain h v = .ok h' ∧ Sound h' owned ∧ (∀ y, h'.slotsTo y = h.slotsTo y) ∧
      ∀ y, h'.get y = if y = v then some w.retained else h.get y := by
  have hslots : ∀ y, (h.set v w.retained).slotsTo y = h.slotsTo y := by
    intro y
    have htotal := Heap.total_set (f := fun o => o.slots.count y) hv w.retained
    exact Nat.add_right_cancel htotal
  refine ⟨h.set v w.retained, xpcRetain_of_get hv, ⟨fun y hy => ?_, ?_⟩, hslots, Heap.get_set hv _⟩
  · rw [hslots] at hy ⊢
    obtain ⟨p, hp, hcount⟩ := hs.accounted y hy
    rw [Heap.get_set hv]
    split_ifs with hyv
    · subst hyv
      obtain rfl : w = p := Option.some.inj (hv.symm.trans hp)
      rw [List.count_singleton_self] at hcount
      exact ⟨_, rfl, by rw [toNat_retained (hcan w hv), hcount]⟩
    · rw [List.count_eq_zero_of_not_mem (by simp [hyv]), Nat.add_zero] at hcount
      exact ⟨p, hp, hcount⟩
  · exact hs.unsized.set hv (hs.unsized v w hv)

/-- A new slot for a usable object leaves the heap one reference short. -/
theorem Sound.oneShort (hs : Sound h owned) (hd : h.get d = some o)
    (hv : 0 < owned v + h.slotsTo v) (hslots : o₁.slots = o.slots ++ [v])
    (hrefcnt : o₁.xoRefcnt = o.xoRefcnt) (hunsized : o₁.UnsizedArray) :
    OneShort (h.set d o₁) owned v ∧ ∀ y, (h.set d o₁).slotsTo y = h.slotsTo y + [v].count y := by
  have hcounts : ∀ y, (h.set d o₁).slotsTo y = h.slotsTo y + [v].count y := by
    intro y
    have htotal := Heap.total_set (f := fun o => o.slots.count y) hd o₁
    simp only [hslots, List.count_append] at htotal
    simp only [Heap.slotsTo]
    omega
  refine ⟨⟨fun y hy => ?_, hs.unsized.set hd hunsized⟩, hcounts⟩
  rw [hcounts] at hy ⊢
  have hold : 0 < owned y + h.slotsTo y := by
    by_cases hyv : y = v
    · rwa [hyv]
    · rwa [List.count_eq_zero_of_not_mem (by simp [hyv]), Nat.add_zero] at hy
  obtain ⟨p, hp, hcount⟩ := hs.accounted y hold
  rw [Heap.get_set hd]
  split_ifs with hyd
  · rw [hyd, hd] at hp
    cases hp
    exact ⟨o₁, rfl, by rw [hrefcnt]; omega⟩
  · exact ⟨p, hp, by omega⟩

/-- Writing a container back with the same slots. -/
theorem Sound.rewrite (hs : Sound h owned) (hd : h.get d = some o) (hslots : o₁.slots = o.slots)
    (hrefcnt : o₁.xoRefcnt = o.xoRefcnt) (hunsized : o₁.UnsizedArray) :
    Sound (h.set d o₁) owned ∧ ∀ y, (h.set d o₁).slotsTo y = h.slotsTo y := by
  have hcounts : ∀ y, (h.set d o₁).slotsTo y = h.slotsTo y := by
    intro y
    have htotal := Heap.total_set (f := fun o => o.slots.count y) hd o₁
    simp only [hslots] at htotal
    exact Nat.add_right_cancel htotal
  refine ⟨⟨fun y hy => ?_, hs.unsized.set hd hunsized⟩, hcounts⟩
  rw [hcounts] at hy ⊢
  obtain ⟨p, hp, hcount⟩ := hs.accounted y hy
  rw [Heap.get_set hd]
  split_ifs with hyd
  · rw [hyd, hd] at hp
    cases hp
    exact ⟨o₁, rfl, hrefcnt ▸ hcount⟩
  · exact ⟨p, hp, hcount⟩

/-- A new slot for `v`, and the new reference counted. -/
structure Inserted (h h' : Heap (List ObjId)) (d v : ObjId) (o₁ : XpcObject (List ObjId)) : Prop where
  slotsTo : ∀ y, h'.slotsTo y = h.slotsTo y + [v].count y
  get_of_get : ∀ y p', h'.get y = some p' →
    ∃ p, h.get y = some p ∧ p'.xoRefcnt.toNat = p.xoRefcnt.toNat + [v].count y
  container : ∃ p, h'.get d = some p ∧ p.xoU = o₁.xoU

theorem Sound.insert (hs : Sound h owned) (hd : h.get d = some o) (hv : 0 < owned v + h.slotsTo v)
    (hcan : CountsUpTo h v 1) (hslots : o₁.slots = o.slots ++ [v])
    (hrefcnt : o₁.xoRefcnt = o.xoRefcnt) (hunsized : o₁.UnsizedArray) :
    ∃ h', xpcRetain (h.set d o₁) v = .ok h' ∧ Sound h' owned ∧ Inserted h h' d v o₁ := by
  obtain ⟨hshort, hcounts⟩ := hs.oneShort hd hv hslots hrefcnt hunsized
  obtain ⟨w, hw, -⟩ := hs.accounted v hv
  -- the object inserted, after the container has been written
  have hset : ∀ y q, (h.set d o₁).get y = some q →
      ∃ p, h.get y = some p ∧ q.xoRefcnt = p.xoRefcnt := by
    intro y q hq
    rw [Heap.get_set hd] at hq
    split_ifs at hq with hyd
    · cases hq
      exact ⟨o, hyd ▸ hd, hrefcnt⟩
    · exact ⟨q, hq, rfl⟩
  obtain ⟨q, hq⟩ : ∃ q, (h.set d o₁).get v = some q := by
    rw [Heap.get_set hd]
    split_ifs
    · exact ⟨o₁, rfl⟩
    · exact ⟨w, hw⟩
  have hcan₁ : CountsUpTo (h.set d o₁) v 1 := by
    intro q' hq'
    obtain ⟨p, hp, hr⟩ := hset v q' hq'
    rw [hr]
    exact hcan p hp
  obtain ⟨h', he, hs', hsame, hget⟩ := hshort.retain hq hcan₁
  refine ⟨h', he, hs', fun y => (hsame y).trans (hcounts y), fun y p' hp' => ?_, ?_⟩
  · rw [hget] at hp'
    split_ifs at hp' with hyv
    · cases hp'
      obtain ⟨p, hp, hr⟩ := hset v q hq
      refine ⟨p, hyv ▸ hp, ?_⟩
      rw [toNat_retained (hcan₁ q hq), hr, hyv, List.count_singleton_self]
    · obtain ⟨p, hp, hr⟩ := hset y p' hp'
      exact ⟨p, hp, by rw [hr, List.count_eq_zero_of_not_mem (by simp [hyv])]; rfl⟩
  · have hd₁ : (h.set d o₁).get d = some o₁ := by rw [Heap.get_set hd, if_pos rfl]
    obtain ⟨p, hp, hu, -⟩ := (keeps_of_xpcRetain he).get_of_get hd₁
    exact ⟨p, hp, hu⟩

/-! ## Arrays -/

theorem Sound.arrayAppend (hs : Sound h owned) {a : ObjId} {es : List ObjId}
    (ha : h.get a = some o) (ho : o.xoU = .array es) (hv : 0 < owned v + h.slotsTo v)
    (hcan : CountsUpTo h v 1) :
    ∃ h', Arrays.xpcArrayAppendValue h a v = .ok h' ∧ Sound h' owned ∧
      Inserted h h' a v (o.withArr (es ++ [v])) := by
  have hslots : (o.withArr (es ++ [v])).slots = o.slots ++ [v] := by
    simp [XpcObject.slots, ho, XpcObject.withArr, Payload.slots]
  obtain ⟨h', he, hs', hi⟩ := hs.insert ha hv hcan hslots rfl
    (fun _ _ => hs.unsized a o ha es ho)
  refine ⟨h', ?_, hs', hi⟩
  simp [Arrays.xpcArrayAppendValue, Heap.deref_of_get ha, XpcObject.arr_of_xoU ho, he]

theorem Sound.appendAll {a : ObjId} {es : List ObjId} (hs : Sound h owned) (objects : List ObjId)
    (ha : h.get a = some o) (ho : o.xoU = .array es)
    (hv : ∀ v ∈ objects, 0 < owned v + h.slotsTo v)
    (hcan : ∀ v, CountsUpTo h v (objects.count v)) :
    ∃ h', objects.foldlM (fun h x => Arrays.xpcArrayAppendValue h a x) h = .ok h' ∧
      Sound h' owned := by
  induction objects generalizing h o es with
  | nil => exact ⟨h, rfl, hs⟩
  | cons v objects ih =>
    have hcons : ∀ y, (v :: objects).count y = [v].count y + objects.count y :=
      fun y => @List.count_append _ _ y [v] objects
    have hcan₁ : CountsUpTo h v 1 := by
      intro p hp
      have hbound := hcan v p hp
      rw [hcons, List.count_singleton_self] at hbound
      omega
    obtain ⟨h₁, he, hs₁, hi⟩ := hs.arrayAppend ha ho (hv v List.mem_cons_self) hcan₁
    obtain ⟨o', ha', ho'⟩ := hi.container
    have hv₁ : ∀ u ∈ objects, 0 < owned u + h₁.slotsTo u := by
      intro u hu
      have husable := hv u (List.mem_cons_of_mem v hu)
      rw [hi.slotsTo]
      omega
    have hcan₂ : ∀ y, CountsUpTo h₁ y (objects.count y) := by
      intro y p' hp'
      obtain ⟨p, hp, hr⟩ := hi.get_of_get y p' hp'
      have hbound := hcan y p hp
      rw [hcons] at hbound
      omega
    obtain ⟨h₂, he₂, hs₂⟩ := ih hs₁ ha' ho' hv₁ hcan₂
    exact ⟨h₂, by rw [List.foldlM_cons, he]; exact he₂, hs₂⟩

/-! ## Dictionaries -/

/-- No entry sets a key of the pairs, or of an earlier entry, to another value. -/
def Consistent (ps entries : Pairs) : Prop :=
  (∀ p ∈ entries, ∀ w, ps.lookup p.1 = some w → w = p.2) ∧
    ∀ p ∈ entries, ∀ q ∈ entries, p.1 = q.1 → p.2 = q.2

theorem Consistent.tail {ps entries : Pairs} {p : CString × ObjId}
    (hc : Consistent ps (p :: entries)) : Consistent (upsert p.1 p.2 ps) entries := by
  refine ⟨fun q hq w hw => ?_, fun q hq r hr => hc.2 q (List.mem_cons_of_mem p hq) r
    (List.mem_cons_of_mem p hr)⟩
  rw [lookup_upsert] at hw
  split_ifs at hw with hqp
  · cases hw
    exact hc.2 p List.mem_cons_self q (List.mem_cons_of_mem p hq) hqp.symm
  · exact hc.1 q (List.mem_cons_of_mem p hq) w hw

/-- Consistent entries only ever add pairs. -/
theorem Consistent.count_le {ps entries : Pairs} (hc : Consistent ps entries) (y : ObjId) :
    (ps.map Prod.snd).count y ≤
      ((entries.foldl (fun ps p => upsert p.1 p.2 ps) ps).map Prod.snd).count y := by
  induction entries generalizing ps with
  | nil => exact Nat.le_refl _
  | cons p entries ih =>
    have hstep : (ps.map Prod.snd).count y ≤ ((upsert p.1 p.2 ps).map Prod.snd).count y := by
      cases hl : ps.lookup p.1 with
      | some w => rw [upsert_of_lookup (hc.1 p List.mem_cons_self w hl ▸ hl)]
      | none => simp [upsert_of_notMem (notMem_of_lookup_eq_none hl)]
    exact Nat.le_trans hstep (ih hc.tail)

/-- A consistent set keeps the heap sound, and counts what it inserts. -/
theorem Sound.dictionarySet {ps : Pairs} {k : CString} (hs : Sound h owned)
    (hd : h.get d = some o) (ho : o.xoU = .dictionary ps) (hv : 0 < owned v + h.slotsTo v)
    (hcan : ps.lookup k = some v ∨ (ps.lookup k = none ∧ CountsUpTo h v 1)) :
    ∃ h', xpcDictionarySetValue h d k v = .ok h' ∧ Sound h' owned ∧
      (∀ y, h.slotsTo y ≤ h'.slotsTo y) ∧
      (∀ y p', h'.get y = some p' → ∃ p, h.get y = some p ∧
        p'.xoRefcnt.toNat + (ps.map Prod.snd).count y =
          p.xoRefcnt.toNat + ((upsert k v ps).map Prod.snd).count y) ∧
      ∃ p, h'.get d = some p ∧ p.xoU = .dictionary (upsert k v ps) := by
  rcases hcan with hl | ⟨hl, hcan⟩
  · -- the pairs are written back as they were
    have hsame := upsert_of_lookup hl
    have hslots : (o.withPairs ps o.xoSize).slots = o.slots := by
      simp [XpcObject.slots, ho, XpcObject.withPairs]
    have hkept := hs.rewrite hd hslots rfl (fun _ he => by cases he)
    have he := xpcDictionarySetValue_replace (v := v) hd ho (mem_of_lookup_eq_some hl)
    rw [hsame] at he ⊢
    refine ⟨_, he, hkept.1, fun y => Nat.le_of_eq (hkept.2 y).symm, fun y p' hp' => ?_, _,
      by rw [Heap.get_set hd, if_pos rfl], rfl⟩
    rw [Heap.get_set hd] at hp'
    split_ifs at hp' with hyd
    · cases hp'
      exact ⟨o, hyd ▸ hd, rfl⟩
    · exact ⟨p', hp', rfl⟩
  · have hk := notMem_of_lookup_eq_none hl
    have hslots : (o.withPairs (ps ++ [(k, v)]) (o.xoSize + 1)).slots = o.slots ++ [v] := by
      simp [XpcObject.slots, ho, XpcObject.withPairs, Payload.slots]
    obtain ⟨h', he, hs', hi⟩ := hs.insert hd hv hcan hslots rfl (fun _ he => by cases he)
    refine ⟨h', ?_, hs', fun y => ?_, fun y p' hp' => ?_, ?_⟩
    · simp [xpcDictionarySetValue, Heap.deref_of_get hd, XpcObject.dict_of_xoU ho,
        replace?_eq_none_iff.mpr hk, he]
    · rw [hi.slotsTo]
      omega
    · obtain ⟨p, hp, hr⟩ := hi.get_of_get y p' hp'
      refine ⟨p, hp, ?_⟩
      simp only [upsert_of_notMem hk, List.map_append, List.count_append, List.map_cons, List.map_nil]
      omega
    · rw [upsert_of_notMem hk]
      exact hi.container

theorem Sound.setAll {ps final : Pairs} (hs : Sound h owned) (entries : Pairs)
    (hd : h.get d = some o) (ho : o.xoU = .dictionary ps)
    (hv : ∀ p ∈ entries, 0 < owned p.2 + h.slotsTo p.2) (hc : Consistent ps entries)
    (hfinal : entries.foldl (fun ps p => upsert p.1 p.2 ps) ps = final)
    (hcan : ∀ y p, h.get y = some p →
      p.xoRefcnt.toNat + (final.map Prod.snd).count y < 2 ^ 32 + (ps.map Prod.snd).count y) :
    ∃ h', entries.foldlM (fun h p => xpcDictionarySetValue h d p.1 p.2) h = .ok h' ∧
      Sound h' owned := by
  induction entries generalizing h o ps with
  | nil => exact ⟨h, rfl, hs⟩
  | cons e entries ih =>
    have hcan₁ : ps.lookup e.1 = some e.2 ∨ (ps.lookup e.1 = none ∧ CountsUpTo h e.2 1) := by
      cases hl : ps.lookup e.1 with
      | some w => exact .inl (congrArg some (hc.1 e List.mem_cons_self w hl))
      | none =>
        refine .inr ⟨rfl, fun p hp => ?_⟩
        have hbound := hcan e.2 p hp
        have hle := hc.tail.count_le e.2
        rw [← hfinal, List.foldl_cons] at hbound
        simp only [upsert_of_notMem (notMem_of_lookup_eq_none hl), List.map_append,
          List.count_append, List.map_cons, List.map_nil, List.count_singleton_self] at hle hbound
        omega
    obtain ⟨h₁, he, hs₁, hslots, hrefs, o', hd', ho'⟩ :=
      hs.dictionarySet hd ho (hv e List.mem_cons_self) hcan₁
    have hv₁ : ∀ q ∈ entries, 0 < owned q.2 + h₁.slotsTo q.2 := by
      intro q hq
      have husable := hv q (List.mem_cons_of_mem e hq)
      have hle := hslots q.2
      omega
    obtain ⟨h₂, he₂, hs₂⟩ := ih hs₁ hd' ho' hv₁ hc.tail hfinal (fun y p' hp' => by
      obtain ⟨p, hp, hr⟩ := hrefs y p' hp'
      have hbound := hcan y p hp
      omega)
    exact ⟨h₂, by rw [List.foldlM_cons, he]; exact he₂, hs₂⟩

/-! ## Steps -/

theorem Sound.alloc (hs : Sound h owned) (hslots : o.slots = []) (hrefcnt : o.xoRefcnt = 1)
    (hunsized : o.UnsizedArray) :
    Sound (h.alloc o).1 (Function.update owned h.size 1) ∧
      ∀ y, (h.alloc o).1.slotsTo y = h.slotsTo y := by
  have hcounts : ∀ y, (h.alloc o).1.slotsTo y = h.slotsTo y := by
    intro y
    rw [Heap.slotsTo, Heap.total_alloc, hslots, List.count_nil, Nat.add_zero]
    rfl
  have hfresh : h.slotsTo h.size = 0 := by
    by_contra hne
    obtain ⟨p, hp, -⟩ := hs.accounted h.size (by omega)
    rw [Heap.get_of_size_le (Nat.le_refl _)] at hp
    cases hp
  refine ⟨⟨fun y hy => ?_, hs.unsized.alloc hunsized⟩, hcounts⟩
  rw [hcounts] at hy ⊢
  rw [Heap.get_alloc]
  by_cases hnew : y = h.size
  · subst hnew
    refine ⟨o, if_pos rfl, ?_⟩
    rw [hrefcnt, hfresh, Function.update_self]
    rfl
  · rw [Function.update_of_ne hnew] at hy ⊢
    rw [if_neg hnew]
    exact hs.accounted y hy

theorem Sound.createArray {objects : List ObjId} (hs : Sound h owned)
    (hv : ∀ v ∈ objects, 0 < owned v + h.slotsTo v)
    (hcan : ∀ v, CountsUpTo h v (objects.count v)) :
    ∃ h', Arrays.xpcArrayCreate h objects = .ok (h', h.size) ∧
      Sound h' (Function.update owned h.size 1) := by
  let o : XpcObject (List ObjId) := ⟨0, 1, 0, .array [], trivial⟩
  obtain ⟨hs₁, hcounts⟩ := hs.alloc (o := o) rfl rfl (fun _ _ => rfl)
  have hlive : ∀ v ∈ objects, v ≠ h.size := by
    intro v hmem
    obtain ⟨p, hp, -⟩ := hs.accounted v (hv v hmem)
    exact Nat.ne_of_lt (Heap.lt_size_of_get hp)
  have hcan₁ : ∀ v, CountsUpTo (h.alloc o).1 v (objects.count v) := by
    intro v p hp
    rw [Heap.get_alloc] at hp
    split_ifs at hp with hnew
    · cases hp
      rw [List.count_eq_zero_of_not_mem (fun hmem => hlive v hmem hnew)]
      decide
    · exact hcan v p hp
  obtain ⟨h', he, hs'⟩ := hs₁.appendAll objects
    (by rw [Heap.get_alloc, if_pos rfl]) rfl (fun v hmem => by
      rw [hcounts, Function.update_of_ne (hlive v hmem)]
      exact hv v hmem) hcan₁
  refine ⟨h', ?_, hs'⟩
  change (objects.foldlM (fun h' x => Arrays.xpcArrayAppendValue h' h.size x) (h.alloc o).1 >>= _) = _
  rw [he]
  rfl

theorem Sound.createDictionary {entries : Pairs} (hs : Sound h owned)
    (hv : ∀ p ∈ entries, 0 < owned p.2 + h.slotsTo p.2)
    (hc : ∀ p ∈ entries, ∀ q ∈ entries, p.1 = q.1 → p.2 = q.2)
    (hcan : ∀ v, CountsUpTo h v (((build entries).map Prod.snd).count v)) :
    ∃ h', xpcDictionaryCreate h entries = .ok (h', h.size) ∧
      Sound h' (Function.update owned h.size 1) := by
  let o : XpcObject (List ObjId) := ⟨0, 1, entries.length, .dictionary [], trivial⟩
  obtain ⟨hs₁, hcounts⟩ := hs.alloc (o := o) rfl rfl (fun _ he => by cases he)
  have hlive : ∀ p ∈ entries, p.2 ≠ h.size := by
    intro p hmem
    obtain ⟨q, hq, -⟩ := hs.accounted p.2 (hv p hmem)
    exact Nat.ne_of_lt (Heap.lt_size_of_get hq)
  have hvalues : ∀ v ∈ (build entries).map Prod.snd, v ≠ h.size := by
    intro v hmem
    obtain ⟨q, hq, rfl⟩ := List.mem_map.mp hmem
    exact hlive q (mem_of_mem_build hq)
  obtain ⟨h', he, hs'⟩ := hs₁.setAll entries
    (by rw [Heap.get_alloc, if_pos rfl]) rfl (fun p hmem => by
      rw [hcounts, Function.update_of_ne (hlive p hmem)]
      exact hv p hmem) ⟨fun _ _ _ hl => (by cases hl), hc⟩ rfl (fun y p hp => by
      rw [Heap.get_alloc] at hp
      split_ifs at hp with hnew
      · cases hp
        have hzero := List.count_eq_zero_of_not_mem (fun hmem => hvalues y hmem hnew)
        simp only [build] at hzero
        rw [hzero, List.map_nil, List.count_nil]
        change (1 : UInt32).toNat + 0 < 2 ^ 32 + 0
        decide
      · exact Nat.lt_of_lt_of_le (hcan y p hp) (Nat.le_add_right _ _))
  refine ⟨h', ?_, hs'⟩
  change (entries.foldlM (fun h' p => xpcDictionarySetValue h' h.size p.1 p.2) (h.alloc o).1 >>= _) = _
  rw [he]
  rfl

theorem Sound.retain (hs : Sound h owned) (hx : 0 < owned x + h.slotsTo x)
    (hcan : CountsUpTo h x 1) :
    ∃ h', xpcRetain h x = .ok h' ∧ Sound h' (Function.update owned x (owned x + 1)) := by
  obtain ⟨w, hw, -⟩ := hs.accounted x hx
  have hupdate : ∀ y, Function.update owned x (owned x + 1) y = owned y + [x].count y := by
    intro y
    by_cases hyx : y = x
    · rw [hyx, Function.update_self, List.count_singleton_self]
    · rw [Function.update_of_ne hyx, List.count_eq_zero_of_not_mem (by simp [hyx]), Nat.add_zero]
  have hshort : OneShort h (Function.update owned x (owned x + 1)) x := by
    refine ⟨fun y hy => ?_, hs.unsized⟩
    rw [hupdate] at hy ⊢
    have hold : 0 < owned y + h.slotsTo y := by
      by_cases hyx : y = x
      · rwa [hyx]
      · rwa [List.count_eq_zero_of_not_mem (by simp [hyx]), Nat.add_zero] at hy
    obtain ⟨p, hp, hcount⟩ := hs.accounted y hold
    exact ⟨p, hp, by omega⟩
  obtain ⟨h', he, hs', -⟩ := hshort.retain hw hcan
  exact ⟨h', he, hs'⟩

theorem toNat_released {o : XpcObject (List ObjId)} (ho : 0 < o.xoRefcnt.toNat) :
    (o.xoRefcnt - 1).toNat = o.xoRefcnt.toNat - 1 := by
  have hone : (1 : UInt32).toNat = 1 := rfl
  have hle : (1 : UInt32) ≤ o.xoRefcnt := UInt32.le_iff_toNat_le.mpr (by omega)
  rw [UInt32.toNat_sub_of_le _ _ hle, hone]

/-- Taking one owned reference off the count. -/
theorem Sound.dropped (hs : Sound h owned) (hx : 0 < owned x) (ho : h.get x = some o) :
    (∀ y, (h.set x o.released).slotsTo y = h.slotsTo y) ∧
      Sound (h.set x o.released) (Function.update owned x (owned x - 1)) := by
  have hcounts : ∀ y, (h.set x o.released).slotsTo y = h.slotsTo y := by
    intro y
    have htotal := Heap.total_set (f := fun o => o.slots.count y) ho o.released
    exact Nat.add_right_cancel htotal
  refine ⟨hcounts, fun y hy => ?_, hs.unsized.set ho (hs.unsized x o ho)⟩
  rw [hcounts] at hy ⊢
  by_cases hyx : y = x
  · subst hyx
    obtain ⟨p, hp, hcount⟩ := hs.accounted y (by omega)
    obtain rfl : o = p := Option.some.inj (ho.symm.trans hp)
    refine ⟨o.released, by rw [Heap.get_set ho, if_pos rfl], ?_⟩
    rw [XpcObject.released, toNat_released (by omega), Function.update_self]
    omega
  · rw [Function.update_of_ne hyx] at hy ⊢
    obtain ⟨p, hp, hcount⟩ := hs.accounted y hy
    exact ⟨p, by rw [Heap.get_set ho, if_neg hyx, hp], hcount⟩

theorem Sound.release (hs : Sound h owned) (hx : 0 < owned x)
    (hlast : ∀ o, h.get x = some o → o.xoRefcnt = 1 → CountOneBelow h x) :
    ∃ h', xpcRelease h x = .ok h' ∧ Sound h' (Function.update owned x (owned x - 1)) := by
  obtain ⟨o, ho, hcount⟩ := hs.accounted x (by omega)
  obtain ⟨hcounts, hs₁⟩ := hs.dropped hx ho
  have hsub := toNat_released (o := o) (by omega)
  by_cases hone : o.xoRefcnt = 1
  · -- the last reference: nothing else refers to `x`
    have hrefs : o.xoRefcnt.toNat = 1 := by rw [hone]; rfl
    have hbelow : CountOneBelow (h.set x o.released) x := by
      intro y hy p hp
      have hslot : ∀ a b, (h.set x o.released).Slot a b → h.Slot a b := by
        intro a b hab
        obtain ⟨q, hq, hb⟩ := hab
        rw [Heap.get_set ho] at hq
        split_ifs at hq with hax
        · cases hq
          exact ⟨o, hax ▸ ho, hb⟩
        · exact ⟨q, hq, hb⟩
      have hy' : Relation.TransGen h.Slot x y := Relation.TransGen.mono hslot x y hy
      have hyx : y ≠ x := by
        intro hyx
        obtain ⟨c, -, hc⟩ := Relation.TransGen.tail'_iff.mp hy'
        have hpos := Heap.slotsTo_pos_iff.mpr ⟨c, hc⟩
        rw [hyx] at hpos
        omega
      rw [Heap.get_set ho, if_neg hyx] at hp
      exact hlast o ho hone y hy' p hp
    have hdestroyable : Destroyable (h.set x o.released) (Function.update owned x (owned x - 1)) x := by
      refine ⟨⟨_, by rw [Heap.get_set ho, if_pos rfl]⟩, ?_, hs₁.accounted, hbelow⟩
      rw [hcounts, Function.update_self]
      omega
    obtain ⟨h', he, hr⟩ := xpcObjectDestroy_ok hdestroyable (Nat.lt_succ_self _)
    refine ⟨h', ?_, hr.accounted, fun y p' hp' => ?_⟩
    · rw [xpcRelease_last ho hone, he]
    · obtain ⟨p, hp, -, -, hu⟩ := hr.shrinks.get_of_get y p' hp'
      exact hu (hs₁.unsized y p hp)
  · have hpos : o.xoRefcnt - 1 > 0 := by
      have hne : o.xoRefcnt.toNat ≠ 1 := fun hn => hone (UInt32.toNat_inj.mp hn)
      apply UInt32.lt_iff_toNat_lt.mpr
      rw [hsub]
      change 0 < _
      omega
    exact ⟨_, by simp [xpcRelease, Heap.deref_of_get ho, hpos], hs₁⟩

theorem sound_step {s : State} {op : Op} (hs : Sound s.heap s.owned) (ha : allowed s op)
    (hc : Regular s op) : ∃ s', exec s op = .ok s' ∧ Sound s'.heap s'.owned := by
  have hstep : ∃ h', execHeap s.heap op = .ok h' ∧ Sound h' (ownedAfter s op) := by
    cases op with
    | createLeaf v =>
      exact ⟨_, rfl, (hs.alloc rfl rfl (fun _ he => by cases he)).1⟩
    | createArray objects =>
      obtain ⟨h', he, hs'⟩ := hs.createArray ha hc
      exact ⟨h', by simp [execHeap, he, Except.map], hs'⟩
    | createDictionary entries =>
      obtain ⟨h', he, hs'⟩ := hs.createDictionary ha hc.1 hc.2
      exact ⟨h', by simp [execHeap, he, Except.map], hs'⟩
    | retain x => exact hs.retain ha hc
    | release x => exact hs.release ha hc
    | dictionarySetValue d k v =>
      obtain ⟨o, ps, hd, ho⟩ := ha.1
      obtain ⟨h', he, hs', -⟩ := hs.dictionarySet hd ho ha.2 (hc o ps hd ho)
      exact ⟨h', he, hs'⟩
    | arrayAppendValue a v =>
      obtain ⟨o, es, harr, ho⟩ := ha.1
      obtain ⟨h', he, hs', -⟩ := hs.arrayAppend harr ho ha.2 hc
      exact ⟨h', he, hs'⟩
    | arraySetValue a i v =>
      obtain ⟨o, es, harr, ho⟩ := ha.1
      by_cases hi : i = xpcArrayAppend
      · obtain ⟨h', he, hs', -⟩ := hs.arrayAppend harr ho ha.2 (hc hi)
        exact ⟨h', by rw [execHeap, Arrays.xpcArraySetValue, if_pos hi, he], hs'⟩
      · have hsize := hs.unsized a o harr es ho
        refine ⟨s.heap, ?_, hs⟩
        simp [execHeap, Arrays.xpcArraySetValue, hi, Heap.deref_of_get harr,
          XpcObject.arr_of_xoU ho, hsize]
  obtain ⟨h', he, hs'⟩ := hstep
  exact ⟨⟨h', ownedAfter s op⟩, by simp [exec, he], hs'⟩

theorem sound_initial {s : State} (hs : Initial s) : Sound s.heap s.owned := by
  have hnone : ∀ x, s.heap.get x = none :=
    fun x => Heap.get_of_size_le (hs.1 ▸ Nat.zero_le x)
  refine ⟨fun y hy => ?_, fun x o ho => ?_⟩
  · have hslots : s.heap.slotsTo y = 0 := by
      by_contra hne
      obtain ⟨c, p, hp, -⟩ := Heap.slotsTo_pos_iff.mp (Nat.pos_of_ne_zero hne)
      rw [hnone c] at hp
      cases hp
    rw [hs.2 y, hslots] at hy
    omega
  · rw [hnone x] at ho
    cases ho

/-- In a run whose steps are all regular nothing is destroyed twice, and nothing
that the client owns or a live container holds has been destroyed, in every state
reached. -/
theorem safe_of_regular {s : State} {tr : List (Op × Except Fault State)} (hs : Initial s)
    (hr : Run machine s tr) (hc : Meets Regular s tr) : ∀ p ∈ tr, Holds Safe p.2 :=
  hr.holds (fun _ _ hs ha hc => sound_step hs ha hc) (fun _ hs => hs.safe) (sound_initial hs) hc

def noObjects : State := ⟨⟨[]⟩, fun _ => 0⟩

/-- The state after some steps, as long as none of them faults. -/
def stateAfter (ops : List Op) : State :=
  ops.foldl (fun s op => (exec s op).toOption.getD s) noObjects

/-- A boolean is put into a dictionary and released; releasing the dictionary
then destroys both. -/
theorem handed_over_safe : ∃ s, Run machine noObjects
      [(.createLeaf (.bool true), .ok (stateAfter [.createLeaf (.bool true)])),
        (.createDictionary [(keyK, 0)],
          .ok (stateAfter [.createLeaf (.bool true), .createDictionary [(keyK, 0)]])),
        (.release 0,
          .ok (stateAfter [.createLeaf (.bool true), .createDictionary [(keyK, 0)], .release 0])),
        (.release 1, .ok s)] ∧
    s.heap.objs = [none, none] ∧ Safe s := by
  have hr : ∃ s, s.heap.objs = [none, none] ∧ Run machine noObjects
      [(.createLeaf (.bool true), .ok (stateAfter [.createLeaf (.bool true)])),
        (.createDictionary [(keyK, 0)],
          .ok (stateAfter [.createLeaf (.bool true), .createDictionary [(keyK, 0)]])),
        (.release 0,
          .ok (stateAfter [.createLeaf (.bool true), .createDictionary [(keyK, 0)], .release 0])),
        (.release 1, .ok s)] := by
    refine ⟨stateAfter [.createLeaf (.bool true), .createDictionary [(keyK, 0)], .release 0,
      .release 1], rfl, .step trivial rfl (.step ?_ rfl (.step ?_ rfl (.step ?_ rfl (.nil _))))⟩
    · intro p hp
      obtain rfl := List.mem_singleton.mp hp
      exact Nat.lt_of_lt_of_le Nat.one_pos (Nat.le_add_right 1 _)
    · exact Nat.one_pos
    · exact Nat.one_pos
  obtain ⟨s, hgone, hr⟩ := hr
  have hall := safe_of_regular ⟨rfl, fun _ => rfl⟩ hr ⟨trivial, ⟨?_, ?_⟩, ?_, ?_, trivial⟩
  · exact ⟨s, hr, hgone, holds_ok.mp (hall (.release 1, .ok s) (by simp))⟩
  · intro p hp q hq _
    rw [List.mem_singleton.mp hp, List.mem_singleton.mp hq]
  · intro v o ho
    obtain rfl := Option.some.inj (List.mem_singleton.mp (Heap.mem_of_get ho))
    have hcount : ((build [(keyK, (0 : ObjId))]).map Prod.snd).count v ≤ 1 := List.count_le_length
    change 1 + _ < 2 ^ 32
    omega
  · -- two references are left when the first is released
    intro o ho hone
    obtain rfl : ⟨0, 2, 1, .leaf (.bool true), trivial⟩ = o := Option.some.inj ho
    exact absurd hone (by decide)
  · intro o _ _ y _ p hp
    have hmem : some p ∈ [some ⟨0, 1, 1, .leaf (.bool true), trivial⟩,
      some ⟨0, 1, 2, .dictionary [(keyK, 0)], trivial⟩] := Heap.mem_of_get hp
    simp only [List.mem_cons, Option.some.injEq, List.not_mem_nil, or_false] at hmem
    rcases hmem with rfl | rfl <;> rfl

/-- Releasing a dictionary destroys the boolean in it that the client still owns;
and a value that replaced another is destroyed in the dictionary when the client
releases its own reference. -/
theorem destroyed_while_referenced :
    (∃ s₁ s₂ s₃ s₄, Run machine noObjects
        [(.createLeaf (.bool true), .ok s₁), (.createDictionary [], .ok s₂),
          (.dictionarySetValue 1 keyK 0, .ok s₃), (.release 1, .ok s₄)] ∧
      s₄.owned 0 = 1 ∧ s₄.heap.get 0 = none ∧ ¬ Safe s₄) ∧
    ∃ s₁ s₂ s₃ s₄ s₅, Run machine noObjects
        [(.createLeaf (.bool true), .ok s₁), (.createLeaf (.bool false), .ok s₂),
          (.createDictionary [(keyK, 0)], .ok s₃), (.dictionarySetValue 2 keyK 1, .ok s₄),
          (.release 1, .ok s₅)] ∧
      s₅.heap.Slot 2 1 ∧ s₅.heap.get 1 = none ∧ ¬ Safe s₅ := by
  constructor
  · refine ⟨_, _, _, _, .step trivial rfl (.step ?_ rfl (.step ⟨⟨_, _, rfl, rfl⟩, ?_⟩ rfl
      (.step ?_ rfl (.nil _)))), rfl, rfl, fun h => ?_⟩
    · exact fun p hp => by cases hp
    · exact Nat.lt_of_lt_of_le Nat.one_pos (Nat.le_add_right 1 _)
    · exact Nat.one_pos
    · obtain ⟨o, ho⟩ := h.owned 0 Nat.one_pos
      cases ho
  · refine ⟨_, _, _, _, _, .step trivial rfl (.step trivial rfl (.step ?_ rfl
      (.step ⟨⟨_, _, rfl, rfl⟩, ?_⟩ rfl (.step ?_ rfl (.nil _))))), ⟨_, rfl, ?_⟩, rfl, fun h => ?_⟩
    · intro p hp
      obtain rfl := List.mem_singleton.mp hp
      exact Nat.lt_of_lt_of_le Nat.one_pos (Nat.le_add_right 1 _)
    · exact Nat.lt_of_lt_of_le Nat.one_pos (Nat.le_add_right 1 _)
    · exact Nat.one_pos
    · exact List.mem_singleton_self 1
    · obtain ⟨o, ho⟩ := h.held 2 1 ⟨_, rfl, List.mem_singleton_self 1⟩
      cases ho

end OpenXPC.Lifetimes
