import OpenXPC.BlockViews
import OpenXPC.Traversals

/-! # Reading blocks

The readers follow the addresses in the blocks; what they return for an object that is
seen is what the heap says of it. -/
namespace OpenXPC.Blocks
open Memory Stores

section Readers

variable {m m' : Memory} {x e : ObjId} {w : XpcObject (List ObjId)} {o : ObjectBlock} {p : Option ObjId}
  {es : List ObjId} {head : List ℕ} {qs : Pairs} {n : ℕ}

theorem findPair_eq (hr : m.readPairs head = .ok qs) (k : CString) :
    findPair m k head >>= (fun r => match r with
      | some p => do
        let pair ← deref m.pairs p
        .ok (some pair.value)
      | none => .ok none) = .ok (qs.lookup k) := by
  induction head generalizing qs with
  | nil =>
    cases hr
    rfl
  | cons p head ih =>
    obtain ⟨pair, rest, hp, hrest, rfl⟩ := readPairs_cons.mp hr
    rw [findPair, deref_of_get hp, ok_bind]
    by_cases hk : pair.key = k
    · subst hk
      simp [deref_of_get hp]
    · rw [if_neg hk, ih hrest, List.lookup_cons, beq_eq_false_iff_ne.mpr (Ne.symm hk)]

theorem applyPairs_eq {σ : Type} (f : CString → ObjId → σ → Except Fault (σ × Bool))
    (hr : m.readPairs head = .ok qs) (udata : σ) :
    applyPairs (fun _ => m) f head udata = OpenXPC.applyPairs f qs udata := by
  induction head generalizing qs udata with
  | nil =>
    cases hr
    rfl
  | cons p head ih =>
    obtain ⟨pair, rest, hp, hrest, rfl⟩ := readPairs_cons.mp hr
    simp only [applyPairs, OpenXPC.applyPairs, deref_of_get hp, ok_bind, ih hrest]

theorem nth_eq (hq : m.Queue p es) (i : ℕ) : m.nth i p = .ok es[i]? := by
  induction i generalizing p es with
  | zero =>
    cases es with
    | nil =>
      cases hq
      rfl
    | cons e es =>
      obtain ⟨rfl, -⟩ := hq
      rfl
  | succ i ih =>
    cases es with
    | nil =>
      cases hq
      rfl
    | cons e es =>
      obtain ⟨rfl, next, hnext, hrest⟩ := hq
      rw [nth, hnext, ok_bind, ih hrest, List.getElem?_cons_succ]

theorem applyElems_eq {σ : Type} (f : ℕ → ObjId → σ → Except Fault (σ × Bool)) (hq : m.Queue p es)
    (hn : es.length ≤ n) (i : ℕ) (udata : σ) :
    applyElems (fun _ => m) f n i p udata = Arrays.applyElems f i es udata := by
  induction es generalizing p n i udata with
  | nil =>
    cases hq
    cases n <;> rfl
  | cons e es ih =>
    obtain ⟨rfl, next, hnext, hrest⟩ := hq
    obtain ⟨n, rfl⟩ := Nat.exists_eq_add_one.mpr (Nat.lt_of_lt_of_le (Nat.succ_pos _) hn)
    simp only [applyElems, Arrays.applyElems, hnext, ok_bind, ih hrest (Nat.le_of_succ_le_succ hn)]

end Readers

section Views

variable {m : Memory} {x : ObjId} {w : XpcObject (List ObjId)} {o : ObjectBlock}

theorem getLeaf_view {β : Type} (hx : m.view.get x = some w) (read : Leaf → Option β) (dflt : β) :
    getLeaf m x read dflt = OpenXPC.getLeaf m.view (some x) read dflt := by
  rw [OpenXPC.getLeaf, Heap.deref_of_get hx, ok_bind]
  rw [get_view] at hx
  obtain ⟨o, ho, hu, -⟩ := object_eq_some.mp hx
  rw [getLeaf, deref_of_get ho, ok_bind]
  cases hkind : o.xoU with
  | scalar v word =>
    rw [hkind, payload, Option.some.injEq] at hu
    rw [← hu]
  | str s =>
    rw [hkind] at hu
    obtain ⟨string, hs, hu⟩ := Option.map_eq_some_iff.mp hu
    simp only [deref_of_get hs, ok_bind, ← hu]
  | data ptr =>
    rw [hkind] at hu
    obtain ⟨bytes, hd, hu⟩ := Option.map_eq_some_iff.mp hu
    simp only [deref_of_get hd, ok_bind, ← hu]
  | array first last =>
    rw [hkind] at hu
    obtain ⟨es, -, hu⟩ := payload_array.mp hu
    rw [hu]
  | dict head =>
    rw [hkind] at hu
    obtain ⟨qs, -, hu⟩ := payload_dict.mp hu
    rw [hu]

theorem getCount_view (hx : m.view.get x = some w) :
    getCount m x = xpcDictionaryGetCount m.view x := by
  rw [xpcDictionaryGetCount, Heap.deref_of_get hx]
  rw [get_view] at hx
  obtain ⟨o, ho, -, -, -, hsize⟩ := object_eq_some.mp hx
  rw [getCount, deref_of_get ho, ok_bind, ok_bind, hsize]

theorem dictHead_view (hu : m.payload o.xoU = some w.xoU) :
    (∃ head qs, o.xoU.dictHead = .ok head ∧ m.readPairs head = .ok qs ∧ w.dict = .ok qs) ∨
      o.xoU.dictHead = .error .wrongType ∧ w.dict = .error .wrongType := by
  cases hkind : w.xoU with
  | leaf v =>
    refine .inr ⟨?_, by rw [XpcObject.dict, hkind]⟩
    cases hraw : o.xoU with
    | dict head =>
      rw [hraw, hkind] at hu
      obtain ⟨qs, -, hqs⟩ := payload_dict.mp hu
      cases hqs
    | _ => rfl
  | array es =>
    rw [hkind] at hu
    obtain ⟨first, last, hraw, -⟩ := xoU_of_payload_array hu
    exact .inr ⟨by rw [hraw]; rfl, by rw [XpcObject.dict, hkind]⟩
  | dictionary qs =>
    rw [hkind] at hu
    obtain ⟨head, hraw, hqs⟩ := xoU_of_payload_dictionary hu
    exact .inl ⟨head, qs, by rw [hraw, XpcU.dictHead], hqs, XpcObject.dict_of_xoU hkind⟩

theorem arrayHead_view (hu : m.payload o.xoU = some w.xoU) :
    (∃ first last es, o.xoU.arrayHead = .ok (first, last) ∧ m.Queue first es ∧
        es.length ≤ m.objects.size ∧ w.arr = .ok es) ∨
      o.xoU.arrayHead = .error .wrongType ∧ w.arr = .error .wrongType := by
  cases hkind : w.xoU with
  | leaf v =>
    refine .inr ⟨?_, by rw [XpcObject.arr, hkind]⟩
    cases hraw : o.xoU with
    | array first last =>
      rw [hraw, hkind] at hu
      obtain ⟨es, -, hes⟩ := payload_array.mp hu
      cases hes
    | _ => rfl
  | array es =>
    rw [hkind] at hu
    obtain ⟨first, last, hraw, hqueue, hlen⟩ := xoU_of_payload_array hu
    exact .inl ⟨first, last, es, by rw [hraw, XpcU.arrayHead], hqueue, hlen, XpcObject.arr_of_xoU hkind⟩
  | dictionary qs =>
    rw [hkind] at hu
    obtain ⟨head, hraw, -⟩ := xoU_of_payload_dictionary hu
    exact .inr ⟨by rw [hraw]; rfl, by rw [XpcObject.arr, hkind]⟩

theorem xpcDictionaryGetValue_view (hx : m.view.get x = some w) (k : CString) :
    xpcDictionaryGetValue m x k = OpenXPC.xpcDictionaryGetValue m.view x k := by
  rw [OpenXPC.xpcDictionaryGetValue, Heap.deref_of_get hx, ok_bind]
  rw [get_view] at hx
  obtain ⟨o, ho, hu, -⟩ := object_eq_some.mp hx
  rw [xpcDictionaryGetValue, deref_of_get ho, ok_bind]
  rcases dictHead_view hu with ⟨head, qs, hhead, hqs, hdict⟩ | ⟨hhead, hdict⟩
  · rw [hhead, hdict, ok_bind, ok_bind]
    exact findPair_eq hqs k
  · rw [hhead, hdict, error_bind, error_bind]

theorem xpcDictionaryApplyFun_view {σ : Type} (hx : m.view.get x = some w)
    (f : CString → ObjId → σ → Except Fault (σ × Bool)) (udata : σ) :
    xpcDictionaryApplyFun (fun _ => m) x f udata =
      OpenXPC.xpcDictionaryApplyFun m.view x f udata := by
  rw [OpenXPC.xpcDictionaryApplyFun, Heap.deref_of_get hx, ok_bind]
  rw [get_view] at hx
  obtain ⟨o, ho, hu, -⟩ := object_eq_some.mp hx
  rw [xpcDictionaryApplyFun, deref_of_get ho, ok_bind]
  rcases dictHead_view hu with ⟨head, qs, hhead, hqs, hdict⟩ | ⟨hhead, hdict⟩
  · rw [hhead, hdict, ok_bind, ok_bind, applyPairs_eq f hqs]
  · rw [hhead, hdict, error_bind, error_bind]

theorem xpcArrayGetValue_view (hx : m.view.get x = some w) (i : ℕ) :
    xpcArrayGetValue m x i = Arrays.xpcArrayGetValue m.view x i := by
  rw [Arrays.xpcArrayGetValue, Heap.deref_of_get hx, ok_bind]
  rw [get_view] at hx
  obtain ⟨o, ho, hu, -, -, hsize⟩ := object_eq_some.mp hx
  rw [xpcArrayGetValue, deref_of_get ho, ok_bind, hsize]
  rcases arrayHead_view hu with ⟨first, last, es, hhead, hqueue, -, harr⟩ | ⟨hhead, harr⟩
  · simp only [hhead, harr, ok_bind, nth_eq hqueue]
  · rw [hhead, harr, error_bind, error_bind]

theorem xpcArrayApplyFun_view {σ : Type} (hx : m.view.get x = some w)
    (f : ℕ → ObjId → σ → Except Fault (σ × Bool)) (udata : σ) :
    xpcArrayApplyFun (fun _ => m) x f udata = Arrays.xpcArrayApplyFun m.view x f udata := by
  rw [Arrays.xpcArrayApplyFun, Heap.deref_of_get hx, ok_bind]
  rw [get_view] at hx
  obtain ⟨o, ho, hu, -⟩ := object_eq_some.mp hx
  rw [xpcArrayApplyFun, deref_of_get ho, ok_bind]
  rcases arrayHead_view hu with ⟨first, last, es, hhead, hqueue, hlen, harr⟩ | ⟨hhead, harr⟩
  · simp only [hhead, harr, ok_bind, applyElems_eq f hqueue hlen]
  · rw [hhead, harr, error_bind, error_bind]

/-! ## Hashes -/

/-- Only scalars are read through the first word of the union. -/
def XpcU.word : XpcU → UInt64
  | .scalar _ word => word
  | _ => 0

def Memory.word (m : Memory) (x : ObjId) : UInt64 :=
  match m.objects.get x with
  | some o => o.xoU.word
  | none => 0

theorem xpcHash_view {t : Tree} (ht : TreeAt m.view x t) (n : ℕ) :
    xpcHash m n x = OpenXPC.xpcHash m.word m.view n x := by
  induction n generalizing x t with
  | zero => rfl
  | succ n ih =>
    obtain ⟨w, hx⟩ := ht.live
    have hvalue : ∀ z ∈ w.slots, xpcHash m n z = OpenXPC.xpcHash m.word m.view n z := by
      intro z hz
      obtain ⟨u, hu⟩ := ht.slot ⟨w, hx, hz⟩
      exact ih hu
    have hobject := hx
    rw [get_view] at hobject
    obtain ⟨o, ho, hu, -, -, hsize⟩ := object_eq_some.mp hobject
    rw [xpcHash, OpenXPC.xpcHash, deref_of_get ho, Heap.deref_of_get hx, ok_bind, ok_bind]
    cases hkind : o.xoU with
    | scalar v word =>
      have hword : m.word x = word := by simp only [Memory.word, ho, hkind, XpcU.word]
      rw [hkind, payload, Option.some.injEq] at hu
      rw [← hu]
      cases v <;> simp [Scalar.leaf, hword]
    | str s =>
      rw [hkind] at hu
      obtain ⟨string, hs, hu⟩ := Option.map_eq_some_iff.mp hu
      simp only [deref_of_get hs, ok_bind, ← hu, hsize]
    | data ptr =>
      rw [hkind] at hu
      obtain ⟨bytes, hd, hu⟩ := Option.map_eq_some_iff.mp hu
      simp only [deref_of_get hd, ok_bind, ← hu, hsize]
    | dict head =>
      rw [hkind] at hu
      obtain ⟨qs, -, hu⟩ := payload_dict.mp hu
      have hslots : ∀ q ∈ qs, q.2 ∈ w.slots := fun q hq => by
        rw [XpcObject.slots, hu]
        exact List.mem_map_of_mem hq
      have happly : OpenXPC.applyPairs (fun k v hash => do
            let valueHash ← xpcHash m n v
            .ok (dictHashCb k hash valueHash, true)) qs 0 = OpenXPC.applyPairs (fun k v hash => do
            let valueHash ← OpenXPC.xpcHash m.word m.view n v
            .ok (dictHashCb k hash valueHash, true)) qs 0 :=
        applyPairs_congr (fun q hq => by simp only [hvalue q.2 (hslots q hq)]) 0
      simp only [hu, xpcDictionaryApplyFun_view hx, OpenXPC.xpcDictionaryApplyFun_of_get hx hu, happly]
    | array first last =>
      rw [hkind] at hu
      obtain ⟨es, -, hu⟩ := payload_array.mp hu
      have hslots : ∀ z ∈ es, z ∈ w.slots := fun z hz => by
        rw [XpcObject.slots, hu]
        exact hz
      have happly : Arrays.applyElems (fun _ v hash => do
            let valueHash ← xpcHash m n v
            .ok (arrayHashCb hash valueHash, true)) 0 es 0 = Arrays.applyElems (fun _ v hash => do
            let valueHash ← OpenXPC.xpcHash m.word m.view n v
            .ok (arrayHashCb hash valueHash, true)) 0 es 0 :=
        applyElems_congr (fun i z hz => by simp only [hvalue z (hslots z hz)]) 0 0
      simp only [hu, xpcArrayApplyFun_view hx, Arrays.xpcArrayApplyFun_of_get hx hu, happly]

/-! ## Later memories -/

/-- Nothing that can be read of the object has changed. -/
structure Unchanged (m m' : Memory) (x : ObjId) : Prop where
  getLeaf {β : Type} (read : Leaf → Option β) (dflt : β) :
    getLeaf m' x read dflt = getLeaf m x read dflt
  getCount : getCount m' x = getCount m x
  dictionaryGetValue (k : CString) : xpcDictionaryGetValue m' x k = xpcDictionaryGetValue m x k
  dictionaryApply {σ : Type} (f : CString → ObjId → σ → Except Fault (σ × Bool)) (udata : σ) :
    xpcDictionaryApplyFun (fun _ => m') x f udata = xpcDictionaryApplyFun (fun _ => m) x f udata
  arrayGetValue (i : ℕ) : xpcArrayGetValue m' x i = xpcArrayGetValue m x i
  arrayApply {σ : Type} (f : ℕ → ObjId → σ → Except Fault (σ × Bool)) (udata : σ) :
    xpcArrayApplyFun (fun _ => m') x f udata = xpcArrayApplyFun (fun _ => m) x f udata
  hash (n : ℕ) : xpcHash m' n x = xpcHash m n x

variable {m' : Memory} {t : Tree}

theorem Memory.Extends.word (he : Extends m m') (hx : m.view.get x = some w) :
    m'.word x = m.word x := by
  rw [Memory.get_view] at hx
  obtain ⟨o, ho, -⟩ := object_eq_some.mp hx
  rw [Memory.word, Memory.word, he.objects.get ho, ho]

/-- A tree is read as before. -/
theorem Memory.Extends.unchanged (he : Extends m m') (ht : TreeAt m.view x t) :
    Unchanged m m' x := by
  obtain ⟨w, hx⟩ := ht.live
  have hx' := he.get_view hx
  have hderef : m'.view.deref x = m.view.deref x := by
    rw [Heap.deref_of_get hx, Heap.deref_of_get hx']
  constructor
  · intro β read dflt
    rw [getLeaf_view hx', getLeaf_view hx, OpenXPC.getLeaf, OpenXPC.getLeaf, hderef]
  · rw [getCount_view hx', getCount_view hx, xpcDictionaryGetCount, xpcDictionaryGetCount, hderef]
  · intro k
    rw [xpcDictionaryGetValue_view hx', xpcDictionaryGetValue_view hx,
      OpenXPC.xpcDictionaryGetValue, OpenXPC.xpcDictionaryGetValue, hderef]
  · intro σ f udata
    rw [xpcDictionaryApplyFun_view hx', xpcDictionaryApplyFun_view hx,
      OpenXPC.xpcDictionaryApplyFun, OpenXPC.xpcDictionaryApplyFun, hderef]
  · intro i
    rw [xpcArrayGetValue_view hx', xpcArrayGetValue_view hx, Arrays.xpcArrayGetValue,
      Arrays.xpcArrayGetValue, hderef]
  · intro σ f udata
    rw [xpcArrayApplyFun_view hx', xpcArrayApplyFun_view hx, Arrays.xpcArrayApplyFun,
      Arrays.xpcArrayApplyFun, hderef]
  · intro n
    have hget : ∀ y, (∃ u, TreeAt m.view y u) → m'.view.get y = m.view.get y := by
      intro y hy
      obtain ⟨u, hu⟩ := hy
      obtain ⟨o, ho⟩ := hu.live
      rw [ho, he.get_view ho]
    rw [xpcHash_view (ht.keeps (Nat.le_refl 0) he.keeps), xpcHash_view ht]
    refine xpcHash_congr hget (fun y o v _ ho _ _ => he.word ho) ?_ ⟨t, ht⟩ n
    rintro y z ⟨u, hu⟩ hyz
    exact hu.slot hyz

end Views
end OpenXPC.Blocks
