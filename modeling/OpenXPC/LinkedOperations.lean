import OpenXPC.QueueRepresentation

/-! # The dictionary operations over the queues

Each operation on the links does what the one on the lists does, and the store represents
the new heap. -/
namespace OpenXPC.LinkedPairs
open InsertionMap TailQueue LinkedStore

variable {m : LinkedStore} {h h' : Heap (List ObjId)} {ids : ObjId → List ℕ} {loose : List ℕ}
  {x y v : ObjId} {o : XpcObject (List ObjId)} {ps : Pairs} {key : CString}

/-! ## Looking for a key -/

/-- What the search for a key finds, and what is in the queue once the value is overwritten. -/
inductive Finds (m : LinkedStore) (es : List ℕ) (ps : Pairs) (key : CString) (value : ObjId) :
    Option ℕ → Prop
  | absent (hlookup : ps.lookup key = none) (hreplace : replace? key value ps = none) :
      Finds m es ps key value none
  | present (p : ℕ) (old : ObjId) (qs : Pairs) (hp : p ∈ es) (hpair : m.pair p = some (key, old))
      (hlookup : ps.lookup key = some old) (hreplace : replace? key value ps = some qs)
      (hcontent : List.Forall₂ (fun q c => (if q = p then some (key, value) else m.pair q) = some c) es qs) :
      Finds m es ps key value (some p)

theorem findFrom_spec {es : List ℕ} {c : Cell ObjId ℕ} {n : ℕ} (value : ObjId) (hc : m.links.Chain c es)
    (hcontent : List.Forall₂ (fun p kv => m.pair p = some kv) es ps) (hn : es.length ≤ n) :
    ∃ r, findFrom m key n (m.links.load c) = .ok r ∧ Finds m es ps key value r := by
  induction hcontent generalizing c n with
  | nil =>
    have hload : m.links.load c = none := hc
    exact ⟨none, by rw [hload]; cases n <;> rfl, .absent rfl rfl⟩
  | @cons e kv es ps hkv hrest ih =>
    obtain ⟨n, rfl⟩ := Nat.exists_eq_succ_of_ne_zero (Nat.ne_of_gt (Nat.lt_of_lt_of_le (Nat.succ_pos _) hn))
    have hnodup := (List.nodup_cons.mp hc.nodup).1
    obtain ⟨k, u⟩ := kv
    rw [hc.1, findFrom, derefPair_of_pair hkv]
    dsimp only [ok_bind]
    by_cases hk : k = key
    · subst hk
      refine ⟨some e, if_pos rfl, .present e u ((k, value) :: ps) List.mem_cons_self hkv (by simp) ?_ ?_⟩
      · rw [replace?, if_pos rfl]
      · refine .cons (if_pos rfl) ?_
        rw [List.forall₂_iff_zip] at hrest ⊢
        refine ⟨hrest.1, fun {q kv} hmem => ?_⟩
        have hne : q ≠ e := fun heq => hnodup (heq ▸ (List.of_mem_zip hmem).1)
        rw [if_neg hne]
        exact hrest.2 hmem
    · have hbeq : (key == k) = false := by simpa using Ne.symm hk
      obtain ⟨r, hfind, hr⟩ := ih hc.2 (Nat.le_of_succ_le_succ hn)
      refine ⟨r, by rw [if_neg hk]; exact hfind, ?_⟩
      cases hr with
      | absent hlookup hreplace =>
        refine .absent ?_ ?_
        · rw [List.lookup_cons, hbeq]
          exact hlookup
        · rw [replace?, if_neg hk, hreplace, Option.map_none]
      | present p old qs hp hpair hlookup hreplace hqs =>
        have hne : e ≠ p := fun heq => hnodup (heq ▸ hp)
        refine .present p old ((k, u) :: qs) (List.mem_cons_of_mem e hp) hpair ?_ ?_ (.cons ?_ hqs)
        · rw [List.lookup_cons, hbeq]
          exact hlookup
        · rw [replace?, if_neg hk, hreplace, Option.map_some]
        · rw [if_neg hne, hkv]

theorem Represents.find (hr : Represents m h ids loose) (hx : Holds h x ps) (key : CString) (value : ObjId) :
    ∃ r, LinkedPairs.find m x key = .ok r ∧ Finds m (ids x) ps key value r :=
  findFrom_spec value (hr.queue hx).chain (hr.content hx) (hr.length_ids_le hx)

/-! ## Reading -/

theorem Represents.getValue (hr : Represents m h ids loose) {r : Option ObjId}
    (he : OpenXPC.xpcDictionaryGetValue h x key = .ok r) : xpcDictionaryGetValue m x key = .ok r := by
  obtain ⟨o, ho, he⟩ := bind_eq_ok.mp he
  obtain ⟨ps, hps, he⟩ := bind_eq_ok.mp he
  cases he
  have hx := Heap.get_of_deref ho
  have hu := XpcObject.xoU_of_dict hps
  obtain ⟨r, hfind, hr'⟩ := hr.find ⟨o, hx, hu⟩ key 0
  rw [xpcDictionaryGetValue, hr.derefDict hx hu, ok_bind, hfind]
  cases hr' with
  | absent hlookup => rw [hlookup, ok_bind]
  | present p old qs _ hpair hlookup =>
    dsimp only [ok_bind]
    rw [hlookup, derefPair_of_pair hpair, ok_bind]

theorem Represents.getCount (hr : Represents m h ids loose) {n : ℕ}
    (he : OpenXPC.xpcDictionaryGetCount h x = .ok n) : xpcDictionaryGetCount m x = .ok n := by
  obtain ⟨o, ho, he⟩ := bind_eq_ok.mp he
  cases he
  rw [xpcDictionaryGetCount, hr.deref (Heap.get_of_deref ho), ok_bind, xoSize_emptied]

theorem applyFrom_eq {σ : Type} {applier : CString → ObjId → σ → Except Fault (σ × Bool)} {es : List ℕ}
    {c : Cell ObjId ℕ} {n : ℕ} (hc : m.links.Chain c es)
    (hcontent : List.Forall₂ (fun p kv => m.pair p = some kv) es ps) (hn : es.length ≤ n) (udata : σ) :
    applyFrom m applier n (m.links.load c) udata = applyPairs applier ps udata := by
  induction hcontent generalizing c n udata with
  | nil =>
    have hload : m.links.load c = none := hc
    rw [hload]
    cases n <;> rfl
  | @cons e kv es ps hkv _ ih =>
    obtain ⟨n, rfl⟩ := Nat.exists_eq_succ_of_ne_zero (Nat.ne_of_gt (Nat.lt_of_lt_of_le (Nat.succ_pos _) hn))
    rw [hc.1, applyFrom, derefPair_of_pair hkv, ok_bind, applyPairs]
    refine bind_congr fun r => ?_
    obtain ⟨udata, go⟩ := r
    cases go with
    | false => rfl
    | true => exact ih hc.2 (Nat.le_of_succ_le_succ hn) udata

/-- The traversal visits the pairs in the order of the list, whatever the applier does. -/
theorem Represents.applyFun {σ : Type} {applier : CString → ObjId → σ → Except Fault (σ × Bool)} {udata : σ}
    (hr : Represents m h ids loose) (hx : Holds h x ps) :
    xpcDictionaryApplyFun m x applier udata = OpenXPC.xpcDictionaryApplyFun h x applier udata := by
  obtain ⟨o, ho, hu⟩ := id hx
  rw [xpcDictionaryApplyFun, hr.derefDict ho hu, ok_bind, xpcDictionaryApplyFun_of_get ho hu]
  exact applyFrom_eq (hr.queue hx).chain (hr.content hx) (hr.length_ids_le hx) udata

/-! ## Writing -/

theorem Represents.xpcRetain (hr : Represents m h ids loose) (he : OpenXPC.xpcRetain h v = .ok h') :
    ∃ heap, OpenXPC.xpcRetain m.heap v = .ok heap ∧ Represents { m with heap := heap } h' ids loose := by
  refine ⟨emptiedHeap h', ?_, hr.of_holds fun y qs => holds_xpcRetain he⟩
  rw [hr.heap, xpcRetain_emptiedHeap he]

theorem Represents.setValue (hr : Represents m h ids loose)
    (he : OpenXPC.xpcDictionarySetValue h x key v = .ok h') :
    ∃ m' ids', xpcDictionarySetValue m x key v = .ok m' ∧ Represents m' h' ids' loose := by
  obtain ⟨o, ps, hx, hu, hcases⟩ := xpcDictionarySetValue_cases he
  have hholds : Holds h x ps := ⟨o, hx, hu⟩
  obtain ⟨r, hfind, hr'⟩ := hr.find hholds key v
  rw [xpcDictionarySetValue, hr.derefDict hx hu, ok_bind, hfind, ok_bind]
  cases hr' with
  | present p old qs hp hpair hlookup hreplace hcontent =>
    rcases hcases with ⟨qs', hreplace', rfl⟩ | ⟨hnone, -⟩
    · obtain rfl : qs = qs' := Option.some.inj (hreplace.symm.trans hreplace')
      refine ⟨_, ids, ?_, hr.overwrite hx hu hp (key, v) hcontent⟩
      simp only [derefPair_of_pair hpair, ok_bind]
    · rw [hreplace] at hnone
      cases hnone
  | absent hlookup hreplace =>
    rcases hcases with ⟨qs', hreplace', -⟩ | ⟨-, hretain⟩
    · rw [hreplace] at hreplace'
      cases hreplace'
    · have hinsert := hr.insert hx hu (key, v) (o.xoSize + 1)
      obtain ⟨heap, hheap, hrep⟩ := hinsert.xpcRetain hretain
      have hinserted : Holds (h.set x (o.withPairs (ps ++ [(key, v)]) (o.xoSize + 1))) x (ps ++ [(key, v)]) := by
        rw [holds_set hx, if_pos rfl]
        rfl
      have hlast : m.links.tqhLast x ∈ (.first x ::
          (Function.update ids x (ids x ++ [m.pairs.length]) x).map .next : List (Cell ObjId ℕ)) := by
        rw [Function.update_self, List.map_append, ← List.cons_append, (hr.queue hholds).last]
        exact List.mem_append_left _ (Links.endCell_mem _ _)
      -- the block that the queue ends in is live, before and after the new pair
      have hcell : LinkedStore.derefCell ⟨m.heap.set x (o.withPairs [] (o.xoSize + 1)), m.links,
          m.pairs ++ [some (key, v)]⟩ (m.links.tqhLast x) = .ok () := hinsert.derefCell hinserted hlast
      have hheap' : OpenXPC.xpcRetain (m.heap.set x (o.withPairs [] (o.xoSize + 1))) v = .ok heap := hheap
      refine ⟨_, _, ?_, hrep⟩
      have hset : (o.withPairs [] o.xoSize).withPairs [] ((o.withPairs [] o.xoSize).xoSize + 1) =
          o.withPairs [] (o.xoSize + 1) := rfl
      dsimp only
      rw [hset, hcell, ok_bind, hheap', ok_bind]

theorem Represents.setValues {entries : Pairs} (hr : Represents m h ids loose)
    (he : entries.foldlM (fun h p => OpenXPC.xpcDictionarySetValue h x p.1 p.2) h = .ok h') :
    ∃ m' ids', entries.foldlM (fun m p => xpcDictionarySetValue m x p.1 p.2) m = .ok m' ∧
      Represents m' h' ids' loose := by
  induction entries generalizing m h ids with
  | nil =>
    cases he
    exact ⟨m, ids, rfl, hr⟩
  | cons p entries ih =>
    obtain ⟨h₁, hset, hrest⟩ := bind_eq_ok.mp he
    obtain ⟨m₁, ids₁, hset', hr₁⟩ := hr.setValue hset
    obtain ⟨m', ids', hrest', hr'⟩ := ih hr₁ hrest
    refine ⟨m', ids', ?_, hr'⟩
    rw [List.foldlM_cons, hset']
    exact hrest'

theorem Represents.dictionaryCreate {entries : Pairs} (hr : Represents m h ids loose)
    (he : OpenXPC.xpcDictionaryCreate h entries = .ok (h', x)) :
    ∃ m' ids', xpcDictionaryCreate m entries = .ok (m', x) ∧ Represents m' h' ids' loose := by
  obtain ⟨h₁, hsets, heq⟩ := bind_eq_ok.mp he
  cases heq
  let o : XpcObject (List ObjId) := ⟨0, 1, entries.length, .dictionary [], trivial⟩
  have hcreate := hr.create (o := o) rfl
  have hsize : m.heap.size = h.size := by rw [hr.heap, size_emptiedHeap]
  obtain ⟨m', ids', hsets', hr'⟩ := hcreate.setValues hsets
  refine ⟨m', ids', ?_, hr'⟩
  change (entries.foldlM (fun m' p => xpcDictionarySetValue m' m.heap.size p.1 p.2)
    (⟨(m.heap.alloc o).1, m.links.init m.heap.size, m.pairs⟩ : LinkedStore) >>=
      fun m' => Except.ok (m', m.heap.size)) = _
  rw [hsize]
  change ((entries.foldlM (fun m' p => xpcDictionarySetValue m' h.size p.1 p.2)
    (⟨(m.heap.alloc (o.withPairs [] o.xoSize)).1, m.links.init h.size, m.pairs⟩ : LinkedStore)) >>= _) = _
  rw [hsets']
  rfl

/-! ## Values and arrays -/

/-- A new object without pairs. -/
theorem Represents.alloc (hr : Represents m h ids loose) (hu : ∀ ps, o.xoU ≠ .dictionary ps) :
    Represents { m with heap := (m.heap.alloc o).1 } (h.alloc o).1 ids loose := by
  have hsame : emptied o = o := by
    rw [emptied]
    split
    · rename_i ps hps
      exact absurd hps (hu ps)
    · rfl
  have hheap : (m.heap.alloc o).1 = emptiedHeap (h.alloc o).1 := by
    rw [hr.heap, emptiedHeap_alloc, hsame]
  rw [hheap]
  refine hr.of_holds fun y qs => (holds_alloc h o).trans ?_
  split_ifs with hy
  · refine iff_of_false (hu qs) fun hq => ?_
    obtain ⟨w, hw, -⟩ := hq
    exact Nat.ne_of_lt (Heap.lt_size_of_get hw) hy
  · exact Iff.rfl

theorem Represents.leafCreate (hr : Represents m h ids loose) (v : Leaf) :
    Represents { m with heap := (OpenXPC.leafCreate m.heap v).1 } (OpenXPC.leafCreate h v).1 ids loose :=
  hr.alloc fun _ hu => by cases hu

theorem emptied_of_array {es : List ObjId} (hu : o.xoU = .array es) : emptied o = o := by
  rw [emptied, hu]

theorem Represents.arrayAppend (hr : Represents m h ids loose)
    (he : Arrays.xpcArrayAppendValue h x v = .ok h') :
    ∃ heap, Arrays.xpcArrayAppendValue m.heap x v = .ok heap ∧ Represents { m with heap := heap } h' ids loose := by
  obtain ⟨o, es, hx, hu, hretain⟩ := Arrays.xpcArrayAppendValue_cases he
  have hset : Represents { m with heap := m.heap.set x (o.withArr (es ++ [v])) }
      (h.set x (o.withArr (es ++ [v]))) ids loose := by
    rw [hr.heap, ← emptied_withArr, ← emptiedHeap_set]
    exact hr.of_holds fun y qs => holds_set_of_xoU hx fun _ => by rw [hu]; simp [XpcObject.withArr]
  obtain ⟨heap, hheap, hr'⟩ := hset.xpcRetain hretain
  refine ⟨heap, ?_, hr'⟩
  rw [Arrays.xpcArrayAppendValue, hr.deref hx, emptied_of_array hu, ok_bind, XpcObject.arr_of_xoU hu, ok_bind]
  exact hheap

theorem Represents.arrayAppends {objects : List ObjId} (hr : Represents m h ids loose)
    (he : objects.foldlM (fun h v => Arrays.xpcArrayAppendValue h x v) h = .ok h') :
    ∃ heap, objects.foldlM (fun h v => Arrays.xpcArrayAppendValue h x v) m.heap = .ok heap ∧
      Represents { m with heap := heap } h' ids loose := by
  induction objects generalizing m h with
  | nil =>
    cases he
    exact ⟨m.heap, rfl, hr⟩
  | cons v objects ih =>
    obtain ⟨h₁, happend, hrest⟩ := bind_eq_ok.mp he
    obtain ⟨heap₁, happend', hr₁⟩ := hr.arrayAppend happend
    obtain ⟨heap, hrest', hr'⟩ := ih hr₁ hrest
    refine ⟨heap, ?_, hr'⟩
    rw [List.foldlM_cons, happend']
    exact hrest'

theorem Represents.arrayCreate {objects : List ObjId} (hr : Represents m h ids loose)
    (he : Arrays.xpcArrayCreate h objects = .ok (h', x)) :
    ∃ heap, Arrays.xpcArrayCreate m.heap objects = .ok (heap, x) ∧
      Represents { m with heap := heap } h' ids loose := by
  obtain ⟨h₁, happends, heq⟩ := bind_eq_ok.mp he
  cases heq
  let o : XpcObject (List ObjId) := ⟨0, 1, 0, .array [], trivial⟩
  have hsize : m.heap.size = h.size := by rw [hr.heap, size_emptiedHeap]
  have halloc : Represents { m with heap := (m.heap.alloc o).1 } (h.alloc o).1 ids loose :=
    hr.alloc fun _ hu => by cases hu
  obtain ⟨heap, happends', hr'⟩ := halloc.arrayAppends happends
  refine ⟨heap, ?_, hr'⟩
  have happends'' : objects.foldlM (fun h' v => Arrays.xpcArrayAppendValue h' m.heap.size v)
      (m.heap.alloc o).1 = .ok heap := by
    rw [hsize]
    exact happends'
  change (objects.foldlM (fun h' v => Arrays.xpcArrayAppendValue h' m.heap.size v) (m.heap.alloc o).1 >>=
    fun h' => Except.ok (h', m.heap.size)) = _
  rw [happends'', ← hsize]
  rfl

end OpenXPC.LinkedPairs
