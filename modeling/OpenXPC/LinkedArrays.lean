import OpenXPC.Containers
import OpenXPC.TailQueue

/-! # Arrays as intrusive queues

The array operations on the links themselves. The queue head of an array and the
one `xo_link` of every object live in one link store, whose entries are whatever
`malloc` left there until a queue operation writes them. -/
namespace OpenXPC.LinkedArrays
open TailQueue

structure LinkedHeap where
  heap : Heap Unit
  links : Links ObjId ObjId

variable {σ : Type}

def derefArray (m : LinkedHeap) (xarray : ObjId) : Except Fault (XpcObject Unit) := do
  let xo ← m.heap.deref xarray
  let _ ← xo.arr
  .ok xo

def xpcArrayAppendValue (m : LinkedHeap) (xarray value : ObjId) : Except Fault LinkedHeap := do
  let _ ← derefArray m xarray
  let heap ← xpcRetain m.heap value
  .ok { heap, links := m.links.insertTail xarray value }

def xpcArrayCreate (m : LinkedHeap) (objects : List ObjId) : Except Fault (LinkedHeap × ObjId) := do
  let (heap, xo) := xpcPrimCreate m.heap (.array ()) 0 trivial
  let m ← objects.foldlM (fun m object => xpcArrayAppendValue m xo object)
    { heap, links := m.links.init xo }
  .ok (m, xo)

def xpcArraySetValue (m : LinkedHeap) (xarray : ObjId) (index : ℕ) (value : ObjId) :
    Except Fault LinkedHeap :=
  if index = xpcArrayAppend then
    xpcArrayAppendValue m xarray value
  else do
    let xo ← derefArray m xarray
    if index ≥ xo.xoSize then
      .ok m
    else
      match m.links.nth index (m.links.tqhFirst xarray) with
      | none => .ok m
      | some xotmp => do
        -- the new element stands where the macro expects the one in the queue
        let links := (m.links.insertAfter xarray value xotmp).remove xarray xotmp
        let heap ← xpcRetain m.heap value
        let _ ← heap.deref xotmp
        .ok { heap := heap.free xotmp, links }

def xpcArrayGetValue (m : LinkedHeap) (xarray : ObjId) (index : ℕ) :
    Except Fault (Option ObjId) := do
  let xo ← derefArray m xarray
  if index > xo.xoSize then .ok none else .ok (m.links.nth index (m.links.tqhFirst xarray))

/-- The traversal from an element on, with the index of that element. -/
def applyFrom (q : Links ObjId ObjId) (applier : ℕ → ObjId → σ → Except Fault (σ × Bool)) :
    ℕ → ℕ → Option ObjId → σ → Except Fault (σ × Bool)
  | _, _, none, udata => .ok (udata, true)
  | 0, _, some _, _ => .error .outOfFuel
  | n + 1, i, some x, udata => do
    let (udata, go) ← applier i x udata
    if go then applyFrom q applier n (i + 1) (q.tqeNext x) udata else .ok (udata, false)

/-- The fuel bounds the number of elements visited. -/
def xpcArrayApplyFun (fuel : ℕ) (m : LinkedHeap) (xarray : ObjId)
    (applier : ℕ → ObjId → σ → Except Fault (σ × Bool)) (udata : σ) :
    Except Fault (σ × Bool) := do
  let _ ← derefArray m xarray
  applyFrom m.links applier fuel 0 (m.links.tqhFirst xarray) udata

/-- The typed setters create a value and set it. -/
def arraySetLeaf (m : LinkedHeap) (xarray : ObjId) (index : ℕ) (v : Leaf) :
    Except Fault LinkedHeap :=
  let (heap, xotmp) := leafCreate m.heap v
  xpcArraySetValue { m with heap } xarray index xotmp

def xpcArraySetBool (m : LinkedHeap) (xarray : ObjId) (index : ℕ) (value : Bool) :=
  arraySetLeaf m xarray index (.bool value)

def xpcArraySetInt64 (m : LinkedHeap) (xarray : ObjId) (index : ℕ) (value : Int64) :=
  arraySetLeaf m xarray index (.int64 value)

def xpcArraySetUint64 (m : LinkedHeap) (xarray : ObjId) (index : ℕ) (value : UInt64) :=
  arraySetLeaf m xarray index (.uint64 value)

def xpcArraySetDouble (m : LinkedHeap) (xarray : ObjId) (index : ℕ) (bits : UInt64) :=
  arraySetLeaf m xarray index (.double bits)

def xpcArraySetDate (m : LinkedHeap) (xarray : ObjId) (index : ℕ) (value : Int64) :=
  arraySetLeaf m xarray index (.date value)

def xpcArraySetData (m : LinkedHeap) (xarray : ObjId) (index : ℕ) (data : List UInt8) :=
  arraySetLeaf m xarray index (.data data)

def xpcArraySetString (m : LinkedHeap) (xarray : ObjId) (index : ℕ) (string : CString) :=
  arraySetLeaf m xarray index (.string string)

def xpcArraySetFd (m : LinkedHeap) (xarray : ObjId) (index : ℕ) (value : ℕ) :=
  arraySetLeaf m xarray index (.fd value)

/-- The applier that notes each element with its index and goes on. -/
def recordAll (i : ℕ) (x : ObjId) (seen : List (ObjId × ℕ)) :
    Except Fault (List (ObjId × ℕ) × Bool) := .ok (seen ++ [(x, i)], true)

/-- The traversal of an array ends after exactly the listed objects, with their indices. -/
def Traverses (m : LinkedHeap) (xarray : ObjId) (es : List ObjId) : Prop :=
  ∃ fuel, xpcArrayApplyFun fuel m xarray recordAll [] = .ok (es.zipIdx, true)

def IsArray (h : Heap Unit) (x : ObjId) : Prop := ∃ o, h.get x = some o ∧ o.xoU = .array ()

theorem IsArray.keeps {h h' : Heap Unit} {x : ObjId} (hx : IsArray h x) (hk : h.Keeps h') :
    IsArray h' x := by
  obtain ⟨o, ho, hu⟩ := hx
  obtain ⟨o', ho', hu', -⟩ := hk.get_of_get ho
  exact ⟨o', ho', hu'.trans hu⟩

theorem derefArray_of_isArray {m : LinkedHeap} {x : ObjId} (hx : IsArray m.heap x) :
    ∃ o, m.heap.get x = some o ∧ derefArray m x = .ok o := by
  obtain ⟨o, ho, hu⟩ := hx
  exact ⟨o, ho, by simp [derefArray, Heap.deref_of_get ho, XpcObject.arr_of_xoU hu]⟩

theorem isArray_of_derefArray {m : LinkedHeap} {x : ObjId} {o : XpcObject Unit}
    (hd : derefArray m x = .ok o) : IsArray m.heap x := by
  obtain ⟨p, hp, hd⟩ := bind_eq_ok.mp hd
  obtain ⟨u, hu, -⟩ := bind_eq_ok.mp hd
  refine ⟨p, Heap.get_of_deref hp, ?_⟩
  cases hx : p.xoU <;> simp [XpcObject.arr, hx] at hu ⊢

theorem xpcArrayAppendValue_ok {m : LinkedHeap} {a v : ObjId} {w : XpcObject Unit}
    (ha : IsArray m.heap a) (hv : m.heap.get v = some w) :
    ∃ m', xpcArrayAppendValue m a v = .ok m' ∧ m.heap.Keeps m'.heap ∧
      m'.heap.size = m.heap.size ∧ m'.links = m.links.insertTail a v := by
  obtain ⟨o, -, hd⟩ := derefArray_of_isArray ha
  have hr := xpcRetain_of_get hv
  refine ⟨⟨m.heap.set v w.retained, m.links.insertTail a v⟩, ?_, keeps_of_xpcRetain hr, by simp, rfl⟩
  simp [xpcArrayAppendValue, hd, hr]

private theorem applyFrom_recordAll {q : Links ObjId ObjId} {n i : ℕ} {p : Option ObjId}
    {seen out : List (ObjId × ℕ)} {b : Bool} :
    applyFrom q recordAll n i p seen = .ok (out, b) ↔
      ∃ es, q.visit n p = some es ∧ out = seen ++ es.zipIdx i ∧ b = true := by
  induction n generalizing i p seen with
  | zero => cases p <;> simp [applyFrom, Links.visit, eq_comm]
  | succ n ih =>
    cases p with
    | none => simp [applyFrom, Links.visit, eq_comm]
    | some x =>
      simp only [applyFrom, recordAll, ok_bind, if_true, ih, Links.visit, Option.map_eq_some_iff]
      constructor
      · intro h
        obtain ⟨es, hes, hout, hb⟩ := h
        exact ⟨x :: es, ⟨es, hes, rfl⟩, by simpa [List.zipIdx_cons] using hout, hb⟩
      · intro h
        obtain ⟨_, ⟨es, hes, rfl⟩, hout, hb⟩ := h
        exact ⟨es, hes, by simpa [List.zipIdx_cons] using hout, hb⟩

/-- The traversal reads the forward chain from the head's first pointer. -/
theorem traverses_iff {m : LinkedHeap} {a : ObjId} {es : List ObjId} (ha : IsArray m.heap a) :
    Traverses m a es ↔ m.links.Chain (.first a) es := by
  obtain ⟨o, -, hd⟩ := derefArray_of_isArray ha
  rw [← Links.exists_visit_iff, Traverses]
  apply exists_congr
  intro n
  simp only [xpcArrayApplyFun, hd, ok_bind, applyFrom_recordAll, List.nil_append, and_true]
  constructor
  · intro h
    obtain ⟨ds, hds, hzip⟩ := h
    have he : es = ds := by simpa using congrArg (List.map Prod.fst) hzip
    rw [he]
    exact hds
  · exact fun h => ⟨es, h, rfl⟩

theorem Traverses.chain {m : LinkedHeap} {a : ObjId} {es : List ObjId} (h : Traverses m a es) :
    m.links.Chain (.first a) es := by
  have hcopy := h
  obtain ⟨fuel, hf⟩ := hcopy
  obtain ⟨o, ho, -⟩ := bind_eq_ok.mp hf
  exact (traverses_iff (isArray_of_derefArray ho)).mp h

end OpenXPC.LinkedArrays
