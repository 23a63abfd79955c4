import OpenXPC.Separation
import OpenXPC.Trees
import OpenXPC.WellFormedQueues

/-! # The objects in memory

The heap that a memory stands for: each object with the pairs, the elements or the
buffer that its block leads to. -/
namespace OpenXPC.Blocks
open Stores TailQueue

instance (u : Payload (List ObjId)) (n : ℕ) : Decidable (u.SizeOk n) :=
  match u with
  | .leaf (.data bytes) => inferInstanceAs (Decidable (n = bytes.length))
  | .leaf (.string str) => inferInstanceAs (Decidable (n = str.bytes.length))
  | .leaf .null | .leaf (.bool _) | .leaf (.int64 _) | .leaf (.uint64 _) | .leaf (.double _)
  | .leaf (.date _) | .leaf (.fd _) | .leaf (.endpoint _) | .leaf (.uuid _) | .leaf (.connection _)
  | .array _ | .dictionary _ => .isTrue trivial

namespace Memory

def readPairs (m : Memory) : List ℕ → Except Fault Pairs
  | [] => .ok []
  | p :: ps => do
    let pair ← deref m.pairs p
    let rest ← m.readPairs ps
    .ok ((pair.key, pair.value) :: rest)

/-- The fuel bounds the length of the queue. -/
def readElems (m : Memory) : ℕ → Option ObjId → Except Fault (List ObjId)
  | _, none => .ok []
  | 0, some _ => .error .outOfFuel
  | n + 1, some e => do
    let next ← m.tqeNext e
    let rest ← m.readElems n next
    .ok (e :: rest)

def payload (m : Memory) : XpcU → Option (Payload (List ObjId))
  | .scalar v _ => some (.leaf v.leaf)
  | .str s => (m.strings.get s).map (fun string => .leaf (.string string))
  | .data ptr => (m.data.get ptr).map (fun bytes => .leaf (.data bytes))
  | .array first _ => (m.readElems m.objects.size first).toOption.map .array
  | .dict head => (m.readPairs head).toOption.map .dictionary

/-- An object that refers to a block which is not there is not seen. -/
def object (m : Memory) (x : ObjId) : Option (XpcObject (List ObjId)) := do
  let o ← m.objects.get x
  let u ← m.payload o.xoU
  if hu : u.SizeOk o.xoSize then
    some { xoFlags := o.xoFlags, xoRefcnt := o.xoRefcnt, xoSize := o.xoSize, xoU := u, sized := hu }
  else none

def view (m : Memory) : Heap (List ObjId) := ⟨(List.range m.objects.size).map m.object⟩

section Views

variable {m m' : Memory} {x z n : ℕ} {b c : Block} {o : ObjectBlock} {w : XpcObject (List ObjId)}
  {p : Option ObjId} {es : List ObjId} {t : Tree}

@[simp] theorem size_view (m : Memory) : m.view.size = m.objects.size := by
  simp [view, Heap.size]

theorem object_eq_some : m.object x = some w ↔ ∃ o, m.objects.get x = some o ∧
    m.payload o.xoU = some w.xoU ∧ o.xoFlags = w.xoFlags ∧ o.xoRefcnt = w.xoRefcnt ∧
    o.xoSize = w.xoSize := by
  unfold object
  cases hget : m.objects.get x with
  | none => simp
  | some o =>
    cases hu : m.payload o.xoU with
    | none => simp [hu]
    | some u =>
      simp only [Option.bind_eq_bind, Option.bind_some, hu, Option.some.injEq, exists_eq_left']
      constructor
      · intro h
        split_ifs at h
        cases h
        exact ⟨rfl, rfl, rfl, rfl⟩
      · rintro ⟨rfl, hf, hr, hs⟩
        rw [dif_pos (hs ▸ w.sized)]
        cases w
        simp_all

theorem get_view (m : Memory) (x : ObjId) : m.view.get x = m.object x := by
  rcases Nat.lt_or_ge x m.objects.size with hlt | hge
  · simp [view, Heap.get, hlt]
  · have hnone : m.objects.get x = none := by
      by_contra hsome
      obtain ⟨o, ho⟩ := Option.ne_none_iff_exists'.mp hsome
      exact Nat.not_lt.mpr hge (Store.lt_size_of_get ho)
    rw [Heap.get_of_size_le (by rwa [size_view]), object, hnone]
    rfl

theorem readPairs_cons {p : ℕ} {head : List ℕ} {qs : Pairs} :
    m.readPairs (p :: head) = .ok qs ↔ ∃ pair rest, m.pairs.get p = some pair ∧
      m.readPairs head = .ok rest ∧ qs = (pair.key, pair.value) :: rest := by
  rw [readPairs, bind_eq_ok]
  constructor
  · rintro ⟨pair, hp, h⟩
    obtain ⟨rest, hrest, h⟩ := bind_eq_ok.mp h
    exact ⟨pair, rest, get_of_deref hp, hrest, (Except.ok.inj h).symm⟩
  · rintro ⟨pair, rest, hp, hrest, rfl⟩
    exact ⟨pair, deref_of_get hp, by rw [hrest]; rfl⟩

/-- The pairs of a dictionary are live. -/
def PairsLive (m : Memory) (head : List ℕ) : Prop := ∀ p ∈ head, ∃ pair, m.pairs.get p = some pair

theorem readPairs_mem {head : List ℕ} {qs : Pairs} {p : ℕ} (hr : m.readPairs head = .ok qs)
    (hp : p ∈ head) : ∃ pair, m.pairs.get p = some pair ∧ (pair.key, pair.value) ∈ qs := by
  induction head generalizing qs with
  | nil => cases hp
  | cons q head ih =>
    obtain ⟨pair, rest, hq, hrest, rfl⟩ := readPairs_cons.mp hr
    rcases List.mem_cons.mp hp with rfl | hp
    · exact ⟨pair, hq, List.mem_cons_self⟩
    · obtain ⟨pair', hp', hmem⟩ := ih hrest hp
      exact ⟨pair', hp', List.mem_cons_of_mem _ hmem⟩

theorem mem_readPairs {head : List ℕ} {qs : Pairs} {q : CString × ObjId}
    (hr : m.readPairs head = .ok qs) (hq : q ∈ qs) :
    ∃ p ∈ head, ∃ pair, m.pairs.get p = some pair ∧ q = (pair.key, pair.value) := by
  induction head generalizing qs with
  | nil =>
    cases hr
    cases hq
  | cons p head ih =>
    obtain ⟨pair, rest, hp, hrest, rfl⟩ := readPairs_cons.mp hr
    rcases List.mem_cons.mp hq with rfl | hq
    · exact ⟨p, List.mem_cons_self, pair, hp, rfl⟩
    · obtain ⟨p', hp', hpair⟩ := ih hrest hq
      exact ⟨p', List.mem_cons_of_mem p hp', hpair⟩

/-- The links lead from the pointer through the elements to the end. -/
def Queue (m : Memory) : Option ObjId → List ObjId → Prop
  | p, [] => p = none
  | p, e :: es => p = some e ∧ ∃ next, m.tqeNext e = .ok next ∧ m.Queue next es

theorem readElems_eq_ok : m.readElems n p = .ok es ↔ m.Queue p es ∧ es.length ≤ n := by
  induction n generalizing p es with
  | zero =>
    cases p with
    | none => cases es <;> simp [readElems, Queue]
    | some e => cases es <;> simp [readElems, Queue]
  | succ n ih =>
    cases p with
    | none => cases es <;> simp [readElems, Queue]
    | some e =>
      rw [readElems, bind_eq_ok]
      constructor
      · rintro ⟨next, hnext, h⟩
        obtain ⟨rest, hrest, h⟩ := bind_eq_ok.mp h
        cases h
        obtain ⟨hqueue, hlen⟩ := ih.mp hrest
        exact ⟨⟨rfl, next, hnext, hqueue⟩, Nat.succ_le_succ hlen⟩
      · rintro ⟨hqueue, hlen⟩
        cases es with
        | nil => cases hqueue
        | cons e' es =>
          obtain ⟨he, next, hnext, hqueue⟩ := hqueue
          cases he
          have hrest := ih.mpr ⟨hqueue, Nat.le_of_succ_le_succ hlen⟩
          exact ⟨next, hnext, by rw [hrest]; rfl⟩

theorem Queue.onQueue (hq : m.Queue p es) : m.OnQueue p z ↔ z ∈ es := by
  constructor
  · intro hz
    induction hz generalizing es with
    | here e =>
      cases es with
      | nil => cases hq
      | cons e' es =>
        cases hq.1
        exact List.mem_cons_self
    | next hnext _ ih =>
      cases es with
      | nil => cases hq
      | cons e' es =>
        obtain ⟨he, next, hnext', hrest⟩ := hq
        cases he
        cases hnext.symm.trans hnext'
        exact List.mem_cons_of_mem _ (ih hrest)
  · intro hz
    induction es generalizing p with
    | nil => cases hz
    | cons e es ih =>
      obtain ⟨rfl, next, hnext, hrest⟩ := hq
      rcases List.mem_cons.mp hz with rfl | hz
      · exact .here z
      · exact .next hnext (ih hrest hz)

theorem payload_array {first : Option ObjId} {last : Cell ObjId ObjId}
    {u : Payload (List ObjId)} : m.payload (.array first last) = some u ↔
      ∃ es, m.readElems m.objects.size first = .ok es ∧ u = .array es := by
  rw [payload]
  cases m.readElems m.objects.size first with
  | error e => simp [Except.toOption]
  | ok es => simp [Except.toOption, eq_comm]

theorem payload_dict {head : List ℕ} {u : Payload (List ObjId)} :
    m.payload (.dict head) = some u ↔ ∃ qs, m.readPairs head = .ok qs ∧ u = .dictionary qs := by
  rw [payload]
  cases m.readPairs head with
  | error e => simp [Except.toOption]
  | ok qs => simp [Except.toOption, eq_comm]

theorem xoU_of_payload_array {u : XpcU} (hu : m.payload u = some (.array es)) :
    ∃ first last, u = .array first last ∧ m.Queue first es ∧ es.length ≤ m.objects.size := by
  cases u with
  | scalar v word => cases hu
  | str s =>
    obtain ⟨string, -, hs⟩ := Option.map_eq_some_iff.mp hu
    cases hs
  | data ptr =>
    obtain ⟨bytes, -, hd⟩ := Option.map_eq_some_iff.mp hu
    cases hd
  | array first last =>
    obtain ⟨es', hes, h⟩ := payload_array.mp hu
    cases h
    exact ⟨first, last, rfl, readElems_eq_ok.mp hes⟩
  | dict head =>
    obtain ⟨qs, -, hqs⟩ := payload_dict.mp hu
    cases hqs

theorem xoU_of_payload_dictionary {u : XpcU} {qs : Pairs}
    (hu : m.payload u = some (.dictionary qs)) :
    ∃ head, u = .dict head ∧ m.readPairs head = .ok qs := by
  cases u with
  | scalar v word => cases hu
  | str s =>
    obtain ⟨string, -, hs⟩ := Option.map_eq_some_iff.mp hu
    cases hs
  | data ptr =>
    obtain ⟨bytes, -, hd⟩ := Option.map_eq_some_iff.mp hu
    cases hd
  | array first last =>
    obtain ⟨es, -, hes⟩ := payload_array.mp hu
    cases hes
  | dict head =>
    obtain ⟨qs', hread, hqs⟩ := payload_dict.mp hu
    cases hqs
    exact ⟨head, rfl, hread⟩

/-! ## Later memories -/

theorem Extends.readPairs (he : Extends m m') {head : List ℕ} {qs : Pairs}
    (hr : m.readPairs head = .ok qs) : m'.readPairs head = .ok qs := by
  induction head generalizing qs with
  | nil => exact hr
  | cons p head ih =>
    obtain ⟨pair, rest, hp, hrest, rfl⟩ := readPairs_cons.mp hr
    exact readPairs_cons.mpr ⟨pair, rest, he.pairs.get hp, ih hrest, rfl⟩

theorem Extends.tqeNext {e : ObjId} (he : Extends m m') (hn : m.tqeNext e = .ok p) :
    m'.tqeNext e = .ok p := by
  obtain ⟨o, ho, hp⟩ := tqeNext_eq_ok.mp hn
  exact tqeNext_eq_ok.mpr ⟨o, he.objects.get ho, hp⟩

theorem Extends.queue (he : Extends m m') (hq : m.Queue p es) : m'.Queue p es := by
  induction es generalizing p with
  | nil => exact hq
  | cons e es ih =>
    obtain ⟨hp, next, hnext, hrest⟩ := hq
    exact ⟨hp, next, he.tqeNext hnext, ih hrest⟩

theorem Extends.payload (he : Extends m m') {u : XpcU} {w : Payload (List ObjId)}
    (hu : m.payload u = some w) : m'.payload u = some w := by
  cases u with
  | scalar v word => exact hu
  | str s =>
    obtain ⟨string, hs, rfl⟩ := Option.map_eq_some_iff.mp hu
    exact Option.map_eq_some_iff.mpr ⟨string, he.strings.get hs, rfl⟩
  | data ptr =>
    obtain ⟨bytes, hd, rfl⟩ := Option.map_eq_some_iff.mp hu
    exact Option.map_eq_some_iff.mpr ⟨bytes, he.data.get hd, rfl⟩
  | array first last =>
    obtain ⟨es, hes, rfl⟩ := payload_array.mp hu
    obtain ⟨hqueue, hlen⟩ := readElems_eq_ok.mp hes
    have hlen' := Nat.le_trans hlen he.objects.size_le
    exact payload_array.mpr ⟨es, readElems_eq_ok.mpr ⟨he.queue hqueue, hlen'⟩, rfl⟩
  | dict head =>
    obtain ⟨qs, hqs, rfl⟩ := payload_dict.mp hu
    exact payload_dict.mpr ⟨qs, he.readPairs hqs, rfl⟩

/-- An object that is seen is seen as it was. -/
theorem Extends.get_view (he : Extends m m') (hx : m.view.get x = some w) :
    m'.view.get x = some w := by
  rw [Memory.get_view] at hx ⊢
  obtain ⟨o, ho, hu, hrest⟩ := object_eq_some.mp hx
  exact object_eq_some.mpr ⟨o, he.objects.get ho, he.payload hu, hrest⟩

theorem Extends.keeps (he : Extends m m') : m.view.Keeps m'.view :=
  ⟨by rw [size_view, size_view]; exact he.objects.size_le,
    fun {_ w} hx => ⟨w, he.get_view hx, rfl, rfl⟩⟩

/-! ## Trees in memory -/

/-- What an object of the heap holds is reached through its blocks. -/
theorem reaches_of_slot (hxz : m.view.Slot x z) : m.Reaches (.object x) (.object z) := by
  obtain ⟨w, hw, hz⟩ := hxz
  rw [Memory.get_view] at hw
  obtain ⟨o, ho, hu, -⟩ := object_eq_some.mp hw
  rw [XpcObject.slots] at hz
  cases hkind : w.xoU with
  | leaf v =>
    rw [hkind] at hz
    cases hz
  | array es =>
    rw [hkind] at hz hu
    obtain ⟨first, last, hfirst, hqueue, -⟩ := xoU_of_payload_array hu
    exact .single ⟨o, ho, by rw [hfirst]; exact ⟨z, hqueue.onQueue.mpr hz, rfl⟩⟩
  | dictionary qs =>
    rw [hkind] at hz hu
    obtain ⟨head, hhead, hqs⟩ := xoU_of_payload_dictionary hu
    obtain ⟨q, hq, rfl⟩ := List.mem_map.mp hz
    obtain ⟨p, hp, pair, hpair, rfl⟩ := mem_readPairs hqs hq
    have hfirst : m.Holds (.object x) (.pair p) := ⟨o, ho, by rw [hhead]; exact ⟨p, hp, rfl⟩⟩
    exact .tail (.single hfirst) ⟨pair, hpair, rfl⟩

/-- A block of a tree. -/
def Sound (m : Memory) : Block → Prop
  | .object x => ∃ t, TreeAt m.view x t
  | .pair p => ∃ pair, m.pairs.get p = some pair ∧ ∃ t, TreeAt m.view pair.value t
  | .string s => ∃ string, m.strings.get s = some string
  | .data d => ∃ bytes, m.data.get d = some bytes

theorem Sound.has (hb : m.Sound b) : m.Has b := by
  cases b with
  | object x =>
    obtain ⟨t, ht⟩ := hb
    obtain ⟨w, hw⟩ := ht.live
    have hlt := Heap.lt_size_of_get hw
    rwa [size_view] at hlt
  | pair p =>
    obtain ⟨pair, hp, -⟩ := hb
    exact Store.lt_size_of_get hp
  | string s =>
    obtain ⟨string, hs⟩ := hb
    exact Store.lt_size_of_get hs
  | data d =>
    obtain ⟨bytes, hd⟩ := hb
    exact Store.lt_size_of_get hd

theorem Sound.object (hx : m.Sound (.object x)) :
    ∃ o w, m.objects.get x = some o ∧ m.payload o.xoU = some w ∧
      ∀ z ∈ w.slots, m.Sound (.object z) := by
  obtain ⟨t, ht⟩ := hx
  obtain ⟨w, hw⟩ := ht.live
  have hslot : ∀ z ∈ w.slots, m.Sound (.object z) := fun z hz => ht.slot ⟨w, hw, hz⟩
  rw [Memory.get_view] at hw
  obtain ⟨o, ho, hu, -⟩ := object_eq_some.mp hw
  exact ⟨o, w.xoU, ho, hu, hslot⟩

/-- What a block of a tree refers to is a block of a tree. -/
theorem Sound.holds (hb : m.Sound b) (hbc : m.Holds b c) : m.Sound c := by
  cases b with
  | object x =>
    obtain ⟨o, w, ho, hu, hslots⟩ := hb.object
    obtain ⟨o', ho', hc⟩ := hbc
    obtain rfl : o = o' := Option.some.inj (ho.symm.trans ho')
    cases hkind : o.xoU with
    | scalar v word =>
      rw [hkind] at hc
      exact hc.elim
    | str s =>
      rw [hkind] at hc hu
      obtain ⟨string, hs, -⟩ := Option.map_eq_some_iff.mp hu
      rw [show c = .string s from hc]
      exact ⟨string, hs⟩
    | data ptr =>
      rw [hkind] at hc hu
      obtain ⟨bytes, hd, -⟩ := Option.map_eq_some_iff.mp hu
      rw [show c = .data ptr from hc]
      exact ⟨bytes, hd⟩
    | array first last =>
      rw [hkind] at hc hu
      obtain ⟨es, hes, rfl⟩ := payload_array.mp hu
      obtain ⟨z, hz, rfl⟩ := hc
      exact hslots z ((readElems_eq_ok.mp hes).1.onQueue.mp hz)
    | dict head =>
      rw [hkind] at hc hu
      obtain ⟨qs, hqs, rfl⟩ := payload_dict.mp hu
      obtain ⟨p, hp, rfl⟩ := hc
      obtain ⟨pair, hpair, hmem⟩ := readPairs_mem hqs hp
      exact ⟨pair, hpair, hslots pair.value (List.mem_map_of_mem hmem)⟩
  | pair p =>
    obtain ⟨pair, hp, ht⟩ := hb
    obtain ⟨pair', hp', rfl⟩ := hbc
    obtain rfl : pair = pair' := Option.some.inj (hp.symm.trans hp')
    exact ht
  | string s => exact hbc.elim
  | data d => exact hbc.elim

theorem Sound.reaches (hb : m.Sound b) (hbc : m.Reaches b c) : m.Sound c := by
  induction hbc with
  | refl => exact hb
  | tail _ hcd ih => exact ih.holds hcd

/-- A block of a tree refers to what it has referred to. -/
theorem Sound.holds_extends (hb : m.Sound b) (he : Extends m m') (hbc : m'.Holds b c) :
    m.Holds b c := by
  cases b with
  | object x =>
    obtain ⟨o, w, ho, hu, -⟩ := hb.object
    obtain ⟨o', ho', hc⟩ := hbc
    obtain rfl : o = o' := Option.some.inj ((he.objects.get ho).symm.trans ho')
    refine ⟨o, ho, ?_⟩
    cases hkind : o.xoU with
    | array first last =>
      rw [hkind] at hc hu
      obtain ⟨es, hes, -⟩ := payload_array.mp hu
      obtain ⟨hqueue, -⟩ := readElems_eq_ok.mp hes
      obtain ⟨z, hz, rfl⟩ := hc
      exact ⟨z, hqueue.onQueue.mpr ((he.queue hqueue).onQueue.mp hz), rfl⟩
    | _ =>
      rw [hkind] at hc
      exact hc
  | pair p =>
    obtain ⟨pair, hp, -⟩ := hb
    obtain ⟨pair', hp', rfl⟩ := hbc
    obtain rfl : pair = pair' := Option.some.inj ((he.pairs.get hp).symm.trans hp')
    exact ⟨pair, hp, rfl⟩
  | string s => exact hbc.elim
  | data d => exact hbc.elim

/-- A tree consists of the blocks it has had. -/
theorem Sound.reaches_extends (hb : m.Sound b) (he : Extends m m') (hbc : m'.Reaches b c) :
    m.Reaches b c := by
  induction hbc with
  | refl => exact .refl
  | tail _ hcd ih => exact ih.tail ((hb.reaches ih).holds_extends he hcd)

end Views

/-! ## The links of a memory

The queue macros on blocks are those on a store of links, in which a link that was
never written counts as the end of its queue. -/

def blockFirst : XpcU → Option ObjId
  | .array first _ => first
  | _ => none

def blockLast (h : ObjId) : XpcU → Cell ObjId ObjId
  | .array _ last => last
  | _ => .first h

def links (m : Memory) : Links ObjId ObjId where
  tqhFirst h := (m.objects.get h).bind (fun o => blockFirst o.xoU)
  tqhLast h := ((m.objects.get h).map (fun o => blockLast h o.xoU)).getD (.first h)
  tqeNext e := ((m.objects.get e).bind (fun o => o.xoLink.tqeNext)).join
  tqePrev e := ((m.objects.get e).bind (fun o => o.xoLink.tqePrev)).getD (.next e)

section Queues

variable {m m' : Memory} {h e : ObjId} {o w : ObjectBlock} {p first : Option ObjId}
  {c last : Cell ObjId ObjId}

theorem links_tqeNext (hn : m.tqeNext e = .ok p) : m.links.tqeNext e = p := by
  obtain ⟨o, ho, hp⟩ := tqeNext_eq_ok.mp hn
  simp [links, ho, hp]

theorem links_tqePrev (hc : m.tqePrev e = .ok c) : m.links.tqePrev e = c := by
  obtain ⟨o, ho, hc⟩ := bind_eq_ok.mp hc
  simp [links, get_of_deref ho, written_eq_ok.mp hc]

theorem links_tqhLast (hc : m.tqhLast h = .ok c) : m.links.tqhLast h = c := by
  obtain ⟨o, ho, hc⟩ := bind_eq_ok.mp hc
  obtain ⟨⟨first, last⟩, hhead, hc⟩ := bind_eq_ok.mp hc
  cases hc
  simp [links, get_of_deref ho, xoU_of_arrayHead hhead, blockLast]

/-- A block that is written is one entry of each of the four functions. -/
theorem links_setObject (he : m.objects.get e = some o) (w : ObjectBlock) :
    (m.setObject e w).links =
      { tqhFirst := Function.update m.links.tqhFirst e (blockFirst w.xoU)
        tqhLast := Function.update m.links.tqhLast e (blockLast e w.xoU)
        tqeNext := Function.update m.links.tqeNext e w.xoLink.tqeNext.join
        tqePrev := Function.update m.links.tqePrev e (w.xoLink.tqePrev.getD (.next e)) } := by
  simp only [links, setObject, Store.get_set he, Links.mk.injEq]
  refine ⟨?_, ?_, ?_, ?_⟩ <;>
  · funext x
    rw [Function.update_apply]
    split_ifs with hx
    · simp [hx]
    · rfl

theorem links_of_get (hx : m.objects.get e = some o) :
    m.links.tqhFirst e = blockFirst o.xoU ∧ m.links.tqhLast e = blockLast e o.xoU ∧
      m.links.tqeNext e = o.xoLink.tqeNext.join ∧
      m.links.tqePrev e = o.xoLink.tqePrev.getD (.next e) := by
  simp [links, hx]

theorem links_store (hs : m.store c p = .ok m') : m'.links = m.links.store c p := by
  cases c with
  | first h =>
    obtain ⟨o, ho, hs⟩ := bind_eq_ok.mp hs
    obtain ⟨⟨first, last⟩, hhead, hs⟩ := bind_eq_ok.mp hs
    cases hs
    obtain ⟨-, hlast, hnext, hprev⟩ := links_of_get (get_of_deref ho)
    rw [xoU_of_arrayHead hhead, blockLast] at hlast
    rw [links_setObject (get_of_deref ho), Links.store]
    simp only [blockFirst, blockLast, ← hlast, ← hnext, ← hprev, Function.update_eq_self]
  | next e =>
    obtain ⟨o, ho, hs⟩ := bind_eq_ok.mp hs
    cases hs
    obtain ⟨hfirst, hlast, -, hprev⟩ := links_of_get (get_of_deref ho)
    rw [links_setObject (get_of_deref ho), Links.store]
    simp only [← hfirst, ← hlast, ← hprev, Function.update_eq_self, Option.join_some]

theorem links_setPrev (hs : m.setPrev e c = .ok m') : m'.links = m.links.setPrev e c := by
  obtain ⟨o, ho, hs⟩ := bind_eq_ok.mp hs
  cases hs
  obtain ⟨hfirst, hlast, hnext, -⟩ := links_of_get (get_of_deref ho)
  rw [links_setObject (get_of_deref ho), Links.setPrev]
  simp only [← hfirst, ← hlast, ← hnext, Function.update_eq_self, Option.getD_some]

theorem links_setLast (hs : m.setLast h c = .ok m') : m'.links = m.links.setLast h c := by
  obtain ⟨o, ho, hs⟩ := bind_eq_ok.mp hs
  obtain ⟨⟨first, last⟩, hhead, hs⟩ := bind_eq_ok.mp hs
  cases hs
  obtain ⟨hfirst, -, hnext, hprev⟩ := links_of_get (get_of_deref ho)
  rw [xoU_of_arrayHead hhead, blockFirst] at hfirst
  rw [links_setObject (get_of_deref ho), Links.setLast]
  simp only [blockFirst, blockLast, ← hfirst, ← hnext, ← hprev, Function.update_eq_self]

theorem links_setBack (hs : m.setBack h p c = .ok m') : m'.links = m.links.setBack h p c := by
  cases p with
  | some n => exact links_setPrev hs
  | none => exact links_setLast hs

theorem links_insertTail (hi : m.insertTail h e = .ok m') : m'.links = m.links.insertTail h e := by
  obtain ⟨m₁, h₁, hi⟩ := bind_eq_ok.mp hi
  obtain ⟨c, hc, hi⟩ := bind_eq_ok.mp hi
  obtain ⟨m₂, h₂, hi⟩ := bind_eq_ok.mp hi
  obtain ⟨d, hd, hi⟩ := bind_eq_ok.mp hi
  obtain ⟨m₃, h₃, hi⟩ := bind_eq_ok.mp hi
  rw [links_setLast hi, links_store h₃, ← links_tqhLast hd, links_setPrev h₂, ← links_tqhLast hc,
    links_store h₁]
  rfl

theorem links_insertAfter {listelm : ObjId} (hi : m.insertAfter h listelm e = .ok m') :
    m'.links = m.links.insertAfter h listelm e := by
  obtain ⟨q, hq, hi⟩ := bind_eq_ok.mp hi
  obtain ⟨m₁, h₁, hi⟩ := bind_eq_ok.mp hi
  obtain ⟨r, hr, hi⟩ := bind_eq_ok.mp hi
  obtain ⟨m₂, h₂, hi⟩ := bind_eq_ok.mp hi
  obtain ⟨m₃, h₃, hi⟩ := bind_eq_ok.mp hi
  rw [links_setPrev hi, links_store h₃, links_setBack h₂, ← links_tqeNext hr, links_store h₁,
    ← links_tqeNext hq]
  rfl

theorem links_remove (hi : m.remove h e = .ok m') : m'.links = m.links.remove h e := by
  obtain ⟨q, hq, hi⟩ := bind_eq_ok.mp hi
  obtain ⟨c, hc, hi⟩ := bind_eq_ok.mp hi
  obtain ⟨m₁, h₁, hi⟩ := bind_eq_ok.mp hi
  obtain ⟨d, hd, hi⟩ := bind_eq_ok.mp hi
  obtain ⟨r, hr, hi⟩ := bind_eq_ok.mp hi
  rw [links_store hi, ← links_tqePrev hd, ← links_tqeNext hr, links_setBack h₁, ← links_tqeNext hq,
    ← links_tqePrev hc]
  rfl

end Queues
end Memory
end OpenXPC.Blocks
