import OpenXPC.LinkedOperations

/-! # Destroying dictionaries with their queues

The destructor takes a pair out of the queue, destroys its value and frees it, while the
loop holds on to the next pair. The destruction of the value may itself free pairs, but
none of a dictionary that is still there afterwards. -/
namespace OpenXPC.LinkedPairs
open InsertionMap TailQueue LinkedStore

variable {m : LinkedStore} {h h' : Heap (List ObjId)} {ids : ObjId → List ℕ} {loose : List ℕ}
  {x y v : ObjId} {o : XpcObject (List ObjId)} {ps : Pairs}

/-- What is still there has not changed. -/
def Survives (h h' : Heap (List ObjId)) : Prop := ∀ y o, h'.get y = some o → h.get y = some o

/-- A destructor on the links does what one on the lists does, and keeps the queues of the
dictionaries that are left. -/
def Simulates (destroyList : Heap (List ObjId) → ObjId → Except Fault (Heap (List ObjId)))
    (destroy : LinkedStore → ObjId → Except Fault LinkedStore) : Prop :=
  ∀ ⦃m h ids loose x h'⦄, Represents m h ids loose → destroyList h x = .ok h' →
    Survives h h' ∧ ∃ m' ids', destroy m x = .ok m' ∧ Represents m' h' ids' loose ∧
      ∀ y ps, Holds h' y ps → ids' y = ids y

/-- A loop over the slots of an object has emptied it and left the others as they were. -/
structure Emptied (h h' : Heap (List ObjId)) (ids ids' : ObjId → List ℕ) (x : ObjId) : Prop where
  survives : ∀ y o, y ≠ x → h'.get y = some o → h.get y = some o
  queues : ∀ y ps, y ≠ x → Holds h' y ps → ids' y = ids y
  emptied : ∀ ps, Holds h' x ps → ids' x = []

theorem Emptied.refl (hx : ∀ ps, Holds h x ps → ids x = []) : Emptied h h ids ids x :=
  ⟨fun _ _ _ hy => hy, fun _ _ _ _ => rfl, hx⟩

theorem Survives.holds (hs : Survives h h') (hy : Holds h' y ps) : Holds h y ps := by
  obtain ⟨o, ho, hu⟩ := hy
  exact ⟨o, hs y o ho, hu⟩

section Loops

variable {destroyList : Heap (List ObjId) → ObjId → Except Fault (Heap (List ObjId))}
  {destroy : LinkedStore → ObjId → Except Fault LinkedStore}

theorem Represents.removePair {es : List ℕ} {p : ℕ} (hr : Represents m h ids loose) (hx : Holds h x ps)
    (hids : ids x = p :: es) :
    LinkedPairs.removePair m x p = .ok { m with links := m.links.remove x p } ∧
      m.links.tqeNext p = es.head? := by
  have hqueue : m.links.WellFormed x (p :: es) := hids ▸ hr.queue hx
  have hnext : m.links.tqeNext p = es.head? := hqueue.load_next_first
  have hprev : m.links.tqePrev p = .first x := hqueue.back.1
  have hbehind : (es.head?).elim (.first x) .next ∈ (.first x :: (ids x).map .next : List (Cell ObjId ℕ)) := by
    rw [hids]
    cases es with
    | nil => exact List.mem_cons_self
    | cons e es => simp
  refine ⟨?_, hnext⟩
  rw [LinkedPairs.removePair, hnext, hprev, hr.derefCell hx hbehind, hr.derefCell hx List.mem_cons_self]
  rfl

/-- The loop over the pairs. It goes on with the next pair of the queue, as it was before the
value was destroyed. -/
theorem dictionaryDestroy_sim (hsim : Simulates destroyList destroy) {es : List ℕ} {k : ℕ}
    (hr : Represents m h ids loose) (hx : ∀ o, h.get x = some o → o.xoU = .dictionary ps ∧ ids x = es)
    (hlen : es.length = ps.length) (hk : es.length ≤ k)
    (he : OpenXPC.xpcDictionaryDestroy destroyList h x ps = .ok h') :
    ∃ m' ids', xpcDictionaryDestroy destroy x k es.head? m = .ok m' ∧ Represents m' h' ids' loose ∧
      Emptied h h' ids ids' x := by
  induction ps generalizing m h ids es k with
  | nil =>
    cases he
    obtain rfl := List.eq_nil_of_length_eq_zero hlen
    refine ⟨m, ids, by cases k <;> rfl, hr, .refl fun ps hps => ?_⟩
    obtain ⟨o, ho, -⟩ := hps
    exact (hx o ho).2
  | cons kv ps ih =>
    obtain ⟨p, es, rfl⟩ := List.exists_cons_of_length_eq_add_one hlen
    obtain ⟨k, rfl⟩ := Nat.exists_eq_succ_of_ne_zero (Nat.ne_of_gt (Nat.lt_of_lt_of_le (Nat.succ_pos _) hk))
    obtain ⟨o, ho, he⟩ := bind_eq_ok.mp he
    obtain ⟨h₂, hdestroy, hrest⟩ := bind_eq_ok.mp he
    have hget := Heap.get_of_deref ho
    obtain ⟨hu, hids⟩ := hx o hget
    have hholds : Holds h x (kv :: ps) := ⟨o, hget, hu⟩
    obtain ⟨hremove, hnext⟩ := hr.removePair hholds hids
    have hcontent : List.Forall₂ (fun p kv => m.pair p = some kv) (p :: es) (kv :: ps) :=
      hids ▸ hr.content hholds
    have hpair := (List.forall₂_cons.mp hcontent).1
    have hunlink := hr.unlink hget hu hids
    obtain ⟨hsurvives, m₂, ids₂, hdestroy', hr₂, hqueues⟩ := hsim hunlink hdestroy
    obtain ⟨m₃, hfree, hr₃⟩ := hr₂.freePair
    have hx₂ : ∀ o₂, h₂.get x = some o₂ → o₂.xoU = .dictionary ps ∧ ids₂ x = es := by
      intro o₂ ho₂
      have hsame := hsurvives x o₂ ho₂
      rw [Heap.get_set hget, if_pos rfl] at hsame
      have hu₂ : o₂.xoU = .dictionary ps := by
        rw [← Option.some.inj hsame]
        rfl
      refine ⟨hu₂, ?_⟩
      rw [hqueues x ps ⟨o₂, ho₂, hu₂⟩, Function.update_self]
    obtain ⟨m', ids', hloop, hr', hemptied⟩ := ih hr₃ hx₂ (Nat.succ.inj hlen) (Nat.le_of_succ_le_succ hk) hrest
    refine ⟨m', ids', ?_, hr', fun y w hy hw => ?_, fun y qs hy hq => ?_, hemptied.emptied⟩
    · rw [List.head?_cons, xpcDictionaryDestroy, derefPair_of_pair hpair]
      simp only [ok_bind, hremove, hdestroy', hfree, hnext]
      exact hloop
    · have hold := hsurvives y w (hemptied.survives y w hy hw)
      rwa [Heap.get_set hget, if_neg hy] at hold
    · have hold : Holds h₂ y qs := by
        obtain ⟨w, hw, hu'⟩ := hq
        exact ⟨w, hemptied.survives y w hy hw, hu'⟩
      rw [hemptied.queues y qs hy hq, hqueues y qs hold, Function.update_of_ne hy]

theorem arrayDestroy_sim (hsim : Simulates destroyList destroy) {elems : List ObjId}
    (hr : Represents m h ids loose) (hx : ∀ o, h.get x = some o → o.xoU = .array elems)
    (he : OpenXPC.xpcArrayDestroy destroyList h x elems = .ok h') :
    ∃ m' ids', xpcArrayDestroy destroy x elems m = .ok m' ∧ Represents m' h' ids' loose ∧
      Emptied h h' ids ids' x := by
  induction elems generalizing m h ids with
  | nil =>
    cases he
    refine ⟨m, ids, rfl, hr, .refl fun ps hps => ?_⟩
    obtain ⟨o, ho, hu⟩ := hps
    rw [hx o ho] at hu
    cases hu
  | cons c elems ih =>
    obtain ⟨o, ho, he⟩ := bind_eq_ok.mp he
    obtain ⟨h₂, hdestroy, hrest⟩ := bind_eq_ok.mp he
    have hget := Heap.get_of_deref ho
    have hu := hx o hget
    have hset : Represents { m with heap := m.heap.set x (o.withArr elems) } (h.set x (o.withArr elems))
        ids loose := by
      rw [hr.heap, ← emptied_withArr, ← emptiedHeap_set]
      exact hr.of_holds fun y qs => holds_set_of_xoU hget fun _ => by rw [hu]; simp [XpcObject.withArr]
    obtain ⟨hsurvives, m₂, ids₂, hdestroy', hr₂, hqueues⟩ := hsim hset hdestroy
    have hx₂ : ∀ o₂, h₂.get x = some o₂ → o₂.xoU = .array elems := by
      intro o₂ ho₂
      have hsame := hsurvives x o₂ ho₂
      rw [Heap.get_set hget, if_pos rfl] at hsame
      rw [← Option.some.inj hsame]
      rfl
    obtain ⟨m', ids', hloop, hr', hemptied⟩ := ih hr₂ hx₂ hrest
    refine ⟨m', ids', ?_, hr', fun y w hy hw => ?_, fun y qs hy hq => ?_, hemptied.emptied⟩
    · rw [xpcArrayDestroy, hr.deref hget, emptied_of_array hu, ok_bind]
      rw [id_eq] at hdestroy'
      rw [hdestroy', ok_bind]
      exact hloop
    · have hold := hsurvives y w (hemptied.survives y w hy hw)
      rwa [Heap.get_set hget, if_neg hy] at hold
    · have hold : Holds h₂ y qs := by
        obtain ⟨w, hw, hu'⟩ := hq
        exact ⟨w, hemptied.survives y w hy hw, hu'⟩
      rw [hemptied.queues y qs hy hq, hqueues y qs hold]

theorem destroySlots_sim (hsim : Simulates destroyList destroy) (hr : Represents m h ids loose)
    (hx : h.get x = some o) (he : OpenXPC.destroySlots destroyList h x o.xoU = .ok h') :
    ∃ m' ids', destroySlots destroy m x (emptied o).xoU = .ok m' ∧ Represents m' h' ids' loose ∧
      Emptied h h' ids ids' x := by
  have hself : ∀ w, h.get x = some w → w = o := fun w hw => Option.some.inj (hw.symm.trans hx)
  cases hu : o.xoU with
  | leaf v =>
    rw [hu] at he
    cases he
    have hsame : emptied o = o := by rw [emptied, hu]
    refine ⟨m, ids, by rw [hsame, hu]; rfl, hr, .refl fun ps hps => ?_⟩
    obtain ⟨w, hw, hps⟩ := hps
    rw [hself w hw, hu] at hps
    cases hps
  | array elems =>
    rw [hu] at he
    rw [emptied_of_array hu, hu]
    exact arrayDestroy_sim hsim hr (fun w hw => by rw [hself w hw, hu]) he
  | dictionary ps =>
    rw [hu] at he
    have hholds : Holds h x ps := ⟨o, hx, hu⟩
    rw [emptied_of_dictionary hu]
    change ∃ m' ids', xpcDictionaryDestroy destroy x m.pairs.length (m.links.tqhFirst x) m = .ok m' ∧ _
    rw [hr.tqhFirst hholds]
    exact dictionaryDestroy_sim hsim hr (fun w hw => ⟨by rw [hself w hw, hu], rfl⟩)
      (hr.content hholds).length_eq (hr.length_ids_le hholds) he

end Loops

/-- More fuel than the destruction on the lists has does no harm. -/
theorem destroy_sim {n n' : ℕ} (hn : n ≤ n') :
    Simulates (OpenXPC.xpcObjectDestroy n) (xpcObjectDestroy n') := by
  induction n generalizing n' with
  | zero =>
    intro m h ids loose x h' _ he
    cases he
  | succ n ih =>
    intro m h ids loose x h' hr he
    obtain ⟨n', rfl⟩ := Nat.exists_eq_succ_of_ne_zero (Nat.ne_of_gt (Nat.lt_of_lt_of_le (Nat.succ_pos _) hn))
    obtain ⟨o, ho, he⟩ := bind_eq_ok.mp he
    obtain ⟨h₁, hslots, he⟩ := bind_eq_ok.mp he
    obtain ⟨o₁, ho₁, he⟩ := bind_eq_ok.mp he
    cases he
    have hget := Heap.get_of_deref ho
    have hsim := ih (Nat.le_of_succ_le_succ hn)
    obtain ⟨m₁, ids₁, hslots', hr₁, hemptied⟩ := destroySlots_sim hsim hr hget hslots
    refine ⟨fun y w hw => ?_, _, ids₁, ?_, hr₁.free hemptied.emptied, fun y ps hy => ?_⟩
    · rw [Heap.get_free] at hw
      split_ifs at hw with hyx
      exact hemptied.survives y w hyx hw
    · rw [xpcObjectDestroy, hr.deref hget, ok_bind, hslots', ok_bind, hr₁.deref (Heap.get_of_deref ho₁)]
      rfl
    · obtain ⟨hyx, hy⟩ := holds_free.mp hy
      exact hemptied.queues y ps hyx hy

theorem Represents.release {n : ℕ} (hr : Represents m h ids loose) (he : OpenXPC.xpcRelease h x = .ok h')
    (hn : h.slotTotal < n) :
    ∃ m' ids', xpcRelease n m x = .ok m' ∧ Represents m' h' ids' loose := by
  obtain ⟨o, ho, he⟩ := bind_eq_ok.mp he
  have hget := Heap.get_of_deref ho
  have hset : Represents { m with heap := m.heap.set x (emptied o).released } (h.set x o.released) ids loose := by
    rw [hr.heap, emptied_released, ← emptiedHeap_set]
    exact hr.of_holds fun y qs => holds_set_of_xoU hget fun _ => Iff.rfl
  have htotal : (h.set x o.released).slotTotal = h.slotTotal := by
    have hchange := Heap.total_set (f := fun o => o.slots.length) hget o.released
    exact Nat.add_right_cancel hchange
  rw [xpcRelease, hr.deref hget, ok_bind]
  dsimp only at he ⊢
  rw [xoRefcnt_emptied]
  split_ifs at he ⊢ with hcount
  · cases he
    exact ⟨_, ids, rfl, hset⟩
  · have hfuel : (h.set x o.released).slotTotal + 1 ≤ n := by omega
    obtain ⟨-, m', ids', hdestroy, hr', -⟩ := destroy_sim hfuel hset he
    exact ⟨m', ids', hdestroy, hr'⟩

end OpenXPC.LinkedPairs
