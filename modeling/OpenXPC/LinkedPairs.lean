import OpenXPC.Destruction
import OpenXPC.QueueFrames

/-! # Dictionaries as intrusive queues

The dictionary operations on the links themselves. A pair is a block of its own, allocated
by the setter and freed by the destructor of its dictionary, and linked into the queue
whose head is in the dictionary. Arrays stay lists, so that it is only the storage of the
pairs that is refined. -/
namespace OpenXPC.LinkedPairs
open InsertionMap TailQueue

variable {σ : Type}

/-! ## The functions -/

/-- Dictionaries have no pairs in this heap. A pair is named by its number among those
allocated, and gone once it is freed. -/
structure LinkedStore where
  heap : Heap (List ObjId)
  links : Links ObjId ℕ
  pairs : List (Option (CString × ObjId))

namespace LinkedStore

def pair (m : LinkedStore) (p : ℕ) : Option (CString × ObjId) := (m.pairs[p]?).join

def derefPair (m : LinkedStore) (p : ℕ) : Except Fault (CString × ObjId) :=
  match m.pair p with
  | some pair => .ok pair
  | none => .error .dangling

def derefDict (m : LinkedStore) (xdict : ObjId) : Except Fault (XpcObject (List ObjId)) := do
  let xo ← m.heap.deref xdict
  let _ ← xo.dict
  .ok xo

/-- The block that the cell is in is accessed. -/
def derefCell (m : LinkedStore) : Cell ObjId ℕ → Except Fault Unit
  | .first x => do
    let _ ← m.heap.deref x
    .ok ()
  | .next p => do
    let _ ← derefPair m p
    .ok ()

end LinkedStore

open LinkedStore

/-- The loop that looks for a key, from a pair on. -/
def findFrom (m : LinkedStore) (key : CString) : ℕ → Option ℕ → Except Fault (Option ℕ)
  | _, none => .ok none
  | 0, some _ => .error .outOfFuel
  | n + 1, some p => do
    let pair ← derefPair m p
    if pair.1 = key then .ok (some p) else findFrom m key n (m.links.tqeNext p)

def find (m : LinkedStore) (xdict : ObjId) (key : CString) : Except Fault (Option ℕ) :=
  findFrom m key m.pairs.length (m.links.tqhFirst xdict)

def xpcDictionarySetValue (m : LinkedStore) (xdict : ObjId) (key : CString) (value : ObjId) :
    Except Fault LinkedStore := do
  let xo ← derefDict m xdict
  let found ← find m xdict key
  match found with
  | some p => do
    let pair ← derefPair m p
    .ok { m with pairs := m.pairs.set p (some (pair.1, value)) }
  | none => do
    let heap := m.heap.set xdict (xo.withPairs [] (xo.xoSize + 1))
    let pairs := m.pairs ++ [some (key, value)]
    derefCell ⟨heap, m.links, pairs⟩ (m.links.tqhLast xdict)
    let heap ← xpcRetain heap value
    .ok ⟨heap, m.links.insertTail xdict m.pairs.length, pairs⟩

def xpcDictionaryCreate (m : LinkedStore) (entries : Pairs) : Except Fault (LinkedStore × ObjId) := do
  let (heap, xo) := xpcPrimCreate m.heap (.dictionary []) entries.length trivial
  let m ← entries.foldlM (fun m p => xpcDictionarySetValue m xo p.1 p.2)
    { m with heap := heap, links := m.links.init xo }
  .ok (m, xo)

def xpcDictionaryGetValue (m : LinkedStore) (xdict : ObjId) (key : CString) : Except Fault (Option ObjId) := do
  let _ ← derefDict m xdict
  let found ← find m xdict key
  match found with
  | some p => do
    let pair ← derefPair m p
    .ok (some pair.2)
  | none => .ok none

def xpcDictionaryGetCount (m : LinkedStore) (xdict : ObjId) : Except Fault ℕ := do
  let xo ← m.heap.deref xdict
  .ok xo.xoSize

/-- The traversal from a pair on. -/
def applyFrom (m : LinkedStore) (applier : CString → ObjId → σ → Except Fault (σ × Bool)) :
    ℕ → Option ℕ → σ → Except Fault (σ × Bool)
  | _, none, udata => .ok (udata, true)
  | 0, some _, _ => .error .outOfFuel
  | n + 1, some p, udata => do
    let pair ← derefPair m p
    let (udata, go) ← applier pair.1 pair.2 udata
    if go then applyFrom m applier n (m.links.tqeNext p) udata else .ok (udata, false)

def xpcDictionaryApplyFun (m : LinkedStore) (xdict : ObjId)
    (applier : CString → ObjId → σ → Except Fault (σ × Bool)) (udata : σ) : Except Fault (σ × Bool) := do
  let _ ← derefDict m xdict
  applyFrom m applier m.pairs.length (m.links.tqhFirst xdict) udata

/-- `TAILQ_REMOVE` writes behind the pair, or the end of the queue, and before it. -/
def removePair (m : LinkedStore) (dict : ObjId) (p : ℕ) : Except Fault LinkedStore := do
  derefCell m ((m.links.tqeNext p).elim (.first dict) .next)
  derefCell m (m.links.tqePrev p)
  .ok { m with links := m.links.remove dict p }

def freePair (m : LinkedStore) (p : ℕ) : Except Fault LinkedStore := do
  let _ ← derefPair m p
  .ok { m with pairs := m.pairs.set p none }

/-- The loop of `xpc_dictionary_destroy`; the next pair is read before the body runs. -/
def xpcDictionaryDestroy (destroy : LinkedStore → ObjId → Except Fault LinkedStore) (dict : ObjId) :
    ℕ → Option ℕ → LinkedStore → Except Fault LinkedStore
  | _, none, m => .ok m
  | 0, some _, _ => .error .outOfFuel
  | n + 1, some p, m => do
    let pair ← derefPair m p
    let ptmp := m.links.tqeNext p
    let m ← removePair m dict p
    let m ← destroy m pair.2
    let m ← freePair m p
    xpcDictionaryDestroy destroy dict n ptmp m

def xpcArrayDestroy (destroy : LinkedStore → ObjId → Except Fault LinkedStore) (arr : ObjId) :
    List ObjId → LinkedStore → Except Fault LinkedStore
  | [], m => .ok m
  | x :: elems, m => do
    let xo ← m.heap.deref arr
    let m ← destroy { m with heap := m.heap.set arr (xo.withArr elems) } x
    xpcArrayDestroy destroy arr elems m

def destroySlots (destroy : LinkedStore → ObjId → Except Fault LinkedStore) (m : LinkedStore) (x : ObjId) :
    Payload (List ObjId) → Except Fault LinkedStore
  | .dictionary _ => xpcDictionaryDestroy destroy x m.pairs.length (m.links.tqhFirst x) m
  | .array elems => xpcArrayDestroy destroy x elems m
  | .leaf _ => .ok m

/-- The fuel bounds the depth of the recursion. -/
def xpcObjectDestroy : ℕ → LinkedStore → ObjId → Except Fault LinkedStore
  | 0, _, _ => .error .outOfFuel
  | n + 1, m, x => do
    let xo ← m.heap.deref x
    let m ← destroySlots (xpcObjectDestroy n) m x xo.xoU
    let _ ← m.heap.deref x
    .ok { m with heap := m.heap.free x }

def xpcRelease (n : ℕ) (m : LinkedStore) (obj : ObjId) : Except Fault LinkedStore := do
  let xo ← m.heap.deref obj
  let m := { m with heap := m.heap.set obj xo.released }
  if xo.xoRefcnt - 1 > 0 then .ok m else xpcObjectDestroy n m obj

/-! ## A heap without its pairs -/

def emptied (o : XpcObject (List ObjId)) : XpcObject (List ObjId) :=
  match o.xoU with
  | .dictionary _ => o.withPairs [] o.xoSize
  | _ => o

def emptiedHeap (h : Heap (List ObjId)) : Heap (List ObjId) := ⟨h.objs.map (Option.map emptied)⟩

/-- The object is a live dictionary with these pairs. -/
def Holds (h : Heap (List ObjId)) (x : ObjId) (ps : Pairs) : Prop :=
  ∃ o, h.get x = some o ∧ o.xoU = .dictionary ps

section Emptying

variable {h h' : Heap (List ObjId)} {x y v : ObjId} {o w : XpcObject (List ObjId)} {ps qs : Pairs}

theorem Holds.unique (h₁ : Holds h x ps) (h₂ : Holds h x qs) : ps = qs := by
  obtain ⟨o, ho, hu⟩ := h₁
  obtain ⟨w, hw, hu'⟩ := h₂
  obtain rfl : o = w := Option.some.inj (ho.symm.trans hw)
  exact Payload.dictionary.inj (hu.symm.trans hu')

theorem emptied_of_dictionary (hu : o.xoU = .dictionary ps) : emptied o = o.withPairs [] o.xoSize := by
  rw [emptied, hu]

@[simp] theorem emptied_withPairs (o : XpcObject (List ObjId)) (ps : Pairs) (n : ℕ) :
    emptied (o.withPairs ps n) = o.withPairs [] n := rfl

@[simp] theorem emptied_withArr (o : XpcObject (List ObjId)) (es : List ObjId) :
    emptied (o.withArr es) = o.withArr es := rfl

@[simp] theorem xoSize_emptied (o : XpcObject (List ObjId)) : (emptied o).xoSize = o.xoSize := by
  rw [emptied]
  split <;> rfl

@[simp] theorem xoRefcnt_emptied (o : XpcObject (List ObjId)) : (emptied o).xoRefcnt = o.xoRefcnt := by
  rw [emptied]
  split <;> rfl

theorem emptied_retained (o : XpcObject (List ObjId)) : (emptied o).retained = emptied o.retained := by
  obtain ⟨flags, count, size, u, sized⟩ := o
  cases u with
  | leaf v => rfl
  | array es => rfl
  | dictionary ps => rfl

theorem emptied_released (o : XpcObject (List ObjId)) : (emptied o).released = emptied o.released := by
  obtain ⟨flags, count, size, u, sized⟩ := o
  cases u with
  | leaf v => rfl
  | array es => rfl
  | dictionary ps => rfl

@[simp] theorem size_emptiedHeap (h : Heap (List ObjId)) : (emptiedHeap h).size = h.size :=
  List.length_map _

theorem get_emptiedHeap (h : Heap (List ObjId)) (x : ObjId) :
    (emptiedHeap h).get x = (h.get x).map emptied := by
  simp only [Heap.get, emptiedHeap, List.getElem?_map]
  cases h.objs[x]? with
  | none => rfl
  | some c => rfl

theorem get_emptiedHeap_of_get (hx : h.get x = some o) : (emptiedHeap h).get x = some (emptied o) := by
  rw [get_emptiedHeap, hx, Option.map_some]

theorem emptiedHeap_set (h : Heap (List ObjId)) (x : ObjId) (o : XpcObject (List ObjId)) :
    emptiedHeap (h.set x o) = (emptiedHeap h).set x (emptied o) := by
  simp [emptiedHeap, Heap.set, List.map_set]

theorem emptiedHeap_free (h : Heap (List ObjId)) (x : ObjId) :
    emptiedHeap (h.free x) = (emptiedHeap h).free x := by
  simp [emptiedHeap, Heap.free, List.map_set]

theorem emptiedHeap_alloc (h : Heap (List ObjId)) (o : XpcObject (List ObjId)) :
    emptiedHeap (h.alloc o).1 = ((emptiedHeap h).alloc (emptied o)).1 := by
  simp [emptiedHeap, Heap.alloc]

theorem xpcRetain_emptiedHeap (he : xpcRetain h v = .ok h') :
    xpcRetain (emptiedHeap h) v = .ok (emptiedHeap h') := by
  obtain ⟨o, ho, he⟩ := bind_eq_ok.mp he
  cases he
  have hv := get_emptiedHeap_of_get (Heap.get_of_deref ho)
  rw [xpcRetain_of_get hv, emptied_retained, emptiedHeap_set]

/-! ### The dictionaries of a heap -/

theorem holds_set (hx : h.get x = some o) (w : XpcObject (List ObjId)) :
    Holds (h.set x w) y ps ↔ if y = x then w.xoU = .dictionary ps else Holds h y ps := by
  rw [Holds, Heap.get_set hx]
  split_ifs with hyx
  · simp
  · exact Iff.rfl

theorem holds_free : Holds (h.free x) y ps ↔ y ≠ x ∧ Holds h y ps := by
  rw [Holds, Heap.get_free]
  split_ifs with hyx
  · simp [hyx]
  · exact ⟨fun hy => ⟨hyx, hy⟩, fun hy => hy.2⟩

theorem holds_alloc (h : Heap (List ObjId)) (o : XpcObject (List ObjId)) :
    Holds (h.alloc o).1 y ps ↔ if y = h.size then o.xoU = .dictionary ps else Holds h y ps := by
  rw [Holds, Heap.get_alloc]
  split_ifs with hy
  · simp
  · exact Iff.rfl

/-- Writing the counts of an object, or the elements of an array, touches no dictionary. -/
theorem holds_set_of_xoU (hx : h.get x = some o) (hu : ∀ ps, w.xoU = .dictionary ps ↔ o.xoU = .dictionary ps) :
    Holds (h.set x w) y ps ↔ Holds h y ps := by
  rw [holds_set hx]
  split_ifs with hyx
  · rw [hyx, hu]
    constructor
    · exact fun hps => ⟨o, hx, hps⟩
    · rintro ⟨o', ho', hps⟩
      obtain rfl : o = o' := Option.some.inj (hx.symm.trans ho')
      exact hps
  · exact Iff.rfl

theorem holds_xpcRetain (he : xpcRetain h v = .ok h') : Holds h' y ps ↔ Holds h y ps := by
  obtain ⟨o, ho, he⟩ := bind_eq_ok.mp he
  cases he
  exact holds_set_of_xoU (Heap.get_of_deref ho) fun _ => Iff.rfl

end Emptying

end OpenXPC.LinkedPairs
