import OpenXPC.GuardedRuns
import OpenXPC.LinkedArrays

/-! # Arrays against plain lists

No array operation ever writes the size of an array, which the creation sets to
zero. The count, the indexed reads and the replacements all go by that size, so
an array behaves as the list of its elements exactly as long as it is empty. -/
namespace OpenXPC.ArrayIndexing
open TailQueue LinkedArrays GuardedRuns

/-- The typed setters are `setLeaf` with a value of their type. -/
inductive Op
  | append (value : ObjId)
  | set (index : ℕ) (value : ObjId)
  | setLeaf (index : ℕ) (v : Leaf)

/-- The heap, the array, and the list it should stand for. -/
structure State where
  m : LinkedHeap
  arr : ObjId
  elems : List ObjId

/-- Setting an index of a list: appending at the reserved index, replacing below
the length, and nothing otherwise. -/
def setList (es : List ObjId) (index : ℕ) (v : ObjId) : List ObjId :=
  if index = xpcArrayAppend then es ++ [v] else es.set index v

def elemsAfter (s : State) : Op → List ObjId
  | .append v => s.elems ++ [v]
  | .set i v => setList s.elems i v
  | .setLeaf i _ => setList s.elems i s.m.heap.size

def execHeap (s : State) : Op → Except Fault LinkedHeap
  | .append v => xpcArrayAppendValue s.m s.arr v
  | .set i v => xpcArraySetValue s.m s.arr i v
  | .setLeaf i v => arraySetLeaf s.m s.arr i v

def exec (s : State) (op : Op) : Except Fault State := do
  let m ← execHeap s op
  .ok { s with m, elems := elemsAfter s op }

def allowed (s : State) : Op → Prop
  | .append v => ∃ o, s.m.heap.get v = some o
  | .set _ v => ∃ o, s.m.heap.get v = some o
  | .setLeaf _ _ => True

def machine : Machine State Op Fault := ⟨allowed, exec⟩

structure RefinesList (s : State) : Prop where
  count : xpcArrayGetCount s.m.heap s.arr = .ok s.elems.length
  value : ∀ i, xpcArrayGetValue s.m s.arr i = .ok s.elems[i]?
  order : Traverses s.m s.arr s.elems

/-- The step puts no element into the array. -/
def NoAppend (_ : State) : Op → Prop
  | .append _ => False
  | .set i _ => i ≠ xpcArrayAppend
  | .setLeaf i _ => i ≠ xpcArrayAppend

/-- The array is empty, and its size says so. -/
structure Invariant (s : State) : Prop where
  elems : s.elems = []
  chain : s.m.links.Chain (.first s.arr) []
  array : ∃ o, s.m.heap.get s.arr = some o ∧ o.xoU = .array () ∧ o.xoSize = 0

theorem Invariant.refinesList {s : State} (hs : Invariant s) : RefinesList s := by
  obtain ⟨o, ho, hu, hsize⟩ := hs.array
  have hnull : s.m.links.tqhFirst s.arr = none := hs.chain
  constructor
  · simp [xpcArrayGetCount, Heap.deref_of_get ho, hsize, hs.elems]
  · intro i
    have hd : derefArray s.m s.arr = .ok o := by
      simp [derefArray, Heap.deref_of_get ho, XpcObject.arr_of_xoU hu]
    rw [hs.elems, xpcArrayGetValue, hd, ok_bind, hnull]
    split_ifs <;> cases i <;> simp [Links.nth]
  · rw [hs.elems]
    exact (traverses_iff ⟨o, ho, hu⟩).mpr hs.chain

/-- Below the appending index a set on a size-zero array does nothing. -/
theorem xpcArraySetValue_of_size_zero {m : LinkedHeap} {a v : ObjId} {i : ℕ} {o : XpcObject Unit}
    (ho : m.heap.get a = some o) (hu : o.xoU = .array ()) (hsize : o.xoSize = 0)
    (hi : i ≠ xpcArrayAppend) : xpcArraySetValue m a i v = .ok m := by
  have hd : derefArray m a = .ok o := by
    simp [derefArray, Heap.deref_of_get ho, XpcObject.arr_of_xoU hu]
  simp [xpcArraySetValue, hi, hd, hsize]

theorem invariant_step {s : State} {op : Op} (hs : Invariant s) (hc : NoAppend s op) :
    ∃ s', exec s op = .ok s' ∧ Invariant s' := by
  obtain ⟨o, ho, hu, hsize⟩ := hs.array
  cases op with
  | append v => exact hc.elim
  | set i v =>
    have he := xpcArraySetValue_of_size_zero (v := v) ho hu hsize hc
    have hc : i ≠ xpcArrayAppend := hc
    refine ⟨⟨s.m, s.arr, []⟩, ?_, rfl, hs.chain, o, ho, hu, hsize⟩
    simp [exec, execHeap, elemsAfter, setList, he, hc, hs.elems]
  | setLeaf i v =>
    let m : LinkedHeap := { s.m with heap := (leafCreate s.m.heap v).1 }
    have ho' : m.heap.get s.arr = some o := Heap.get_alloc_of_get ho _
    have he : arraySetLeaf s.m s.arr i v = .ok m := xpcArraySetValue_of_size_zero ho' hu hsize hc
    have hc : i ≠ xpcArrayAppend := hc
    refine ⟨⟨m, s.arr, []⟩, ?_, rfl, hs.chain, o, ho', hu, hsize⟩
    simp [exec, execHeap, elemsAfter, setList, he, hc, hs.elems]

theorem keeps_of_xpcArrayAppendValue {m m' : LinkedHeap} {a v : ObjId}
    (he : xpcArrayAppendValue m a v = .ok m') : m.heap.Keeps m'.heap := by
  obtain ⟨o, -, he⟩ := bind_eq_ok.mp he
  obtain ⟨heap, hr, he⟩ := bind_eq_ok.mp he
  cases he
  exact keeps_of_xpcRetain hr

theorem keeps_of_appendAll {m m' : LinkedHeap} {a : ObjId} {xs : List ObjId}
    (he : xs.foldlM (fun m x => xpcArrayAppendValue m a x) m = .ok m') :
    m.heap.Keeps m'.heap := by
  apply foldlM_preserves (I := fun m₁ => m.heap.Keeps m₁.heap) _ (Heap.Keeps.refl m.heap) he
  exact fun _ _ _ hkeep hx => hkeep.trans (keeps_of_xpcArrayAppendValue hx)

/-- A size-zero array with a nonzero count expected does not refine its list. -/
theorem RefinesList.elems_eq_nil {s : State} (hr : RefinesList s) {o : XpcObject Unit}
    (ho : s.m.heap.get s.arr = some o) (hsize : o.xoSize = 0) : s.elems = [] := by
  have hcount := hr.count
  simp only [xpcArrayGetCount, Heap.deref_of_get ho, ok_bind, Except.ok.injEq, hsize] at hcount
  exact List.eq_nil_of_length_eq_zero hcount.symm

theorem noAppend_of_refinesList {s s' : State} {op : Op} (hs : Invariant s)
    (he : exec s op = .ok s') (hr : RefinesList s') : NoAppend s op := by
  obtain ⟨o, ho, hu, hsize⟩ := hs.array
  obtain ⟨m, hm, he⟩ := bind_eq_ok.mp he
  cases he
  -- an append leaves the size at zero, against a list of one element
  have happ : ∀ heap v, s.m.heap.Keeps heap → xpcArrayAppendValue ⟨heap, s.m.links⟩ s.arr v = .ok m →
      elemsAfter s op = [v] → False := by
    intro heap v hk hv hel
    obtain ⟨o', ho', -, hs'⟩ := (hk.trans (keeps_of_xpcArrayAppendValue hv)).get_of_get ho
    have hnil := hr.elems_eq_nil ho' (hs'.trans hsize)
    simp [hel] at hnil
  cases op with
  | append v => exact happ s.m.heap v (Heap.Keeps.refl _) hm (by simp [elemsAfter, hs.elems])
  | set i v =>
    intro hi
    refine happ s.m.heap v (Heap.Keeps.refl _) ?_ (by simp [elemsAfter, setList, hi, hs.elems])
    simpa [execHeap, xpcArraySetValue, hi] using hm
  | setLeaf i v =>
    intro hi
    refine happ (leafCreate s.m.heap v).1 s.m.heap.size (Heap.keeps_alloc _ _) ?_
      (by simp [elemsAfter, setList, hi, hs.elems])
    have hm' : xpcArraySetValue ⟨(leafCreate s.m.heap v).1, s.m.links⟩ s.arr i s.m.heap.size =
        .ok m := hm
    rwa [xpcArraySetValue, if_pos hi] at hm'

/-- An array behaves as the list of its elements in every state of a run if and
only if it is created empty and no step of the run appends to it. -/
theorem refinesList_iff_empty {m₀ m : LinkedHeap} {objects : List ObjId} {a : ObjId}
    {tr : List (Op × Except Fault State)} (hcreate : xpcArrayCreate m₀ objects = .ok (m, a))
    (hr : Run machine ⟨m, a, objects⟩ tr) :
    (RefinesList ⟨m, a, objects⟩ ∧ ∀ p ∈ tr, Holds RefinesList p.2) ↔
      objects = [] ∧ Meets NoAppend ⟨m, a, objects⟩ tr := by
  obtain ⟨m₁, hall, hcreate⟩ := bind_eq_ok.mp hcreate
  cases hcreate
  have hget : ((m₀.heap.alloc ⟨0, 1, 0, .array (), trivial⟩).1).get m₀.heap.size =
      some ⟨0, 1, 0, .array (), trivial⟩ := by simp [Heap.get_alloc]
  obtain ⟨o, ho, hu, hsize⟩ := (keeps_of_appendAll hall).get_of_get hget
  have hempty (hnil : objects = []) : Invariant ⟨m, m₀.heap.size, objects⟩ := by
    subst hnil
    cases hall
    exact ⟨rfl, (Links.enumerates_init _ _).chain, _, hget, rfl, rfl⟩
  have hruns (hs : Invariant ⟨m, m₀.heap.size, objects⟩) :=
    hr.holds_iff_meets (I := Invariant) (G := RefinesList) (C := NoAppend)
      (fun s op hs _ hc => invariant_step hs hc) (fun s hs => hs.refinesList)
      (fun s op s' hs _ he hg => noAppend_of_refinesList hs he hg) hs
  constructor
  · intro h
    have hnil : objects = [] := h.1.elems_eq_nil ho hsize
    exact ⟨hnil, (hruns (hempty hnil)).mp h.2⟩
  · intro h
    exact ⟨(hempty h.1).refinesList, (hruns (hempty h.1)).mpr h.2⟩

/-- A boolean and no array. -/
def oneBool : LinkedHeap where
  heap := ⟨[some ⟨0, 1, 1, .leaf (.bool true), trivial⟩]⟩
  links := ⟨fun _ => none, .first, fun _ => none, .first⟩

/-- The array just created empty. -/
def emptyArray : State where
  m := { heap := ⟨[some ⟨0, 1, 1, .leaf (.bool true), trivial⟩, some ⟨0, 1, 0, .array (), trivial⟩]⟩
         links := Links.init ⟨fun _ => none, .first, fun _ => none, .first⟩ 1 }
  arr := 1
  elems := []

theorem set_below_append_refinesList : ∃ s, Run machine emptyArray [(.set 0 0, .ok s)] ∧
    RefinesList s := by
  have hr : ∃ s, Run machine emptyArray [(.set 0 0, .ok s)] :=
    ⟨_, .step ⟨_, rfl⟩ rfl (.nil _)⟩
  obtain ⟨s, hr⟩ := hr
  have hcreate : xpcArrayCreate oneBool [] = .ok (emptyArray.m, emptyArray.arr) := rfl
  have hgood := (refinesList_iff_empty hcreate hr).mpr
    ⟨rfl, by simp [NoAppend, xpcArrayAppend], trivial⟩
  exact ⟨s, hr, holds_ok.mp (hgood.2 _ List.mem_cons_self)⟩

/-- After one append the count is still 0, and the element cannot be replaced. -/
theorem append_not_refinesList : ∃ s, xpcArrayCreate oneBool [] = .ok (emptyArray.m, emptyArray.arr) ∧
    Run machine emptyArray [(.append 0, .ok s)] ∧ s.elems = [0] ∧
    xpcArrayGetCount s.m.heap s.arr = .ok 0 ∧ xpcArraySetValue s.m s.arr 0 0 = .ok s.m ∧
    ¬ RefinesList s := by
  refine ⟨_, rfl, .step ⟨_, rfl⟩ rfl (.nil _), rfl, rfl, rfl, fun h => ?_⟩
  exact absurd (Except.ok.inj h.count) (by decide)

end OpenXPC.ArrayIndexing
