import OpenXPC.LinkedArrays
import OpenXPC.WellFormedQueues

/-! # Typed getters

A typed getter of a container looks up an element and passes it on, NULL or not, to the
extractor of its type. All extractors but that of doubles compare the element with NULL
before they look at its type. -/
namespace OpenXPC
open InsertionMap TailQueue

variable {A : Type}

/-! ## Extractors -/

/-- A missing element is dereferenced. -/
def xpcDoubleGetValue (h : Heap A) (xdouble : Option ObjId) : Except Fault UInt64 :=
  match xdouble with
  | none => .error .dangling
  | some x => getLeaf h (some x) (fun | .double bits => some bits | _ => none) 0

def xpcDateGetValue (h : Heap A) (xdate : Option ObjId) : Except Fault Int64 :=
  getLeaf h xdate (fun | .date interval => some interval | _ => none) 0

/-- The length of the buffer is the size of the object. -/
def xpcDataGetLength (h : Heap A) (xdata : Option ObjId) : Except Fault ℕ :=
  match xdata with
  | none => .ok 0
  | some x => do
    let xo ← h.deref x
    match xo.xoU with
    | .leaf (.data _) => .ok xo.xoSize
    | _ => .ok 0

/-- The buffer, or NULL. -/
def xpcDataGetBytesPtr (h : Heap A) (xdata : Option ObjId) : Except Fault (Option (List UInt8)) :=
  getLeaf h xdata (fun | .data bytes => some (some bytes) | _ => none) none

namespace LinkedArrays

/-! ## Getters of arrays -/

/-- An element is looked up and read. -/
def arrayGet {β : Type} (m : LinkedHeap) (xarray : ObjId) (index : ℕ)
    (extract : Heap Unit → Option ObjId → Except Fault β) : Except Fault β := do
  let xotmp ← xpcArrayGetValue m xarray index
  extract m.heap xotmp

def xpcArrayGetBool (m : LinkedHeap) (xarray : ObjId) (index : ℕ) : Except Fault Bool :=
  arrayGet m xarray index xpcBoolGetValue

def xpcArrayGetInt64 (m : LinkedHeap) (xarray : ObjId) (index : ℕ) : Except Fault Int64 :=
  arrayGet m xarray index xpcInt64GetValue

def xpcArrayGetUint64 (m : LinkedHeap) (xarray : ObjId) (index : ℕ) : Except Fault UInt64 :=
  arrayGet m xarray index xpcUint64GetValue

def xpcArrayGetDouble (m : LinkedHeap) (xarray : ObjId) (index : ℕ) : Except Fault UInt64 :=
  arrayGet m xarray index xpcDoubleGetValue

def xpcArrayGetDate (m : LinkedHeap) (xarray : ObjId) (index : ℕ) : Except Fault Int64 :=
  arrayGet m xarray index xpcDateGetValue

/-- The length that is stored through the pointer, and the result. -/
def xpcArrayGetData (m : LinkedHeap) (xarray : ObjId) (index : ℕ) :
    Except Fault (ℕ × Option (List UInt8)) := do
  let xotmp ← xpcArrayGetValue m xarray index
  let length ← xpcDataGetLength m.heap xotmp
  let bytes ← xpcDataGetBytesPtr m.heap xotmp
  .ok (length, bytes)

def xpcArrayGetString (m : LinkedHeap) (xarray : ObjId) (index : ℕ) :
    Except Fault (Option CString) :=
  arrayGet m xarray index xpcStringGetStringPtr

end LinkedArrays

namespace Getters
open LinkedArrays

/-! ## What a getter is for -/

/-- The types with a getter. -/
inductive Kind
  | bool
  | int64
  | uint64
  | double
  | date
  | data
  | string
  deriving DecidableEq

namespace Kind

/-- A buffer comes with its length. -/
def Value : Kind → Type
  | .bool => Bool
  | .int64 => Int64
  | .uint64 => UInt64
  | .double => UInt64
  | .date => Int64
  | .data => ℕ × Option (List UInt8)
  | .string => Option CString

def dflt : (k : Kind) → k.Value
  | .bool => false
  | .int64 => (0 : Int64)
  | .uint64 => (0 : UInt64)
  | .double => (0 : UInt64)
  | .date => (0 : Int64)
  | .data => (0, none)
  | .string => none

/-- The payload of a value of the type. -/
def read : (k : Kind) → Leaf → Option k.Value
  | .bool, .bool value => some value
  | .int64, .int64 value => some value
  | .uint64, .uint64 value => some value
  | .double, .double bits => some bits
  | .date, .date interval => some interval
  | .data, .data bytes => some (bytes.length, some bytes)
  | .string, .string str => some (some str)
  | _, _ => none

/-- The payload of the element if there is one and it has the type, else the default. -/
def payload (k : Kind) (h : Heap A) (elem : Option ObjId) : k.Value :=
  match elem.bind h.get with
  | some ⟨_, _, _, .leaf v, _⟩ => (k.read v).getD k.dflt
  | _ => k.dflt

def arrayGetter : (k : Kind) → LinkedHeap → ObjId → ℕ → Except Fault k.Value
  | .bool => xpcArrayGetBool
  | .int64 => xpcArrayGetInt64
  | .uint64 => xpcArrayGetUint64
  | .double => xpcArrayGetDouble
  | .date => xpcArrayGetDate
  | .data => xpcArrayGetData
  | .string => xpcArrayGetString

end Kind

/-- The getter returns the payload of the element at the index of the list. -/
def ArrayReturns (m : LinkedHeap) (xarray : ObjId) (es : List ObjId) (index : ℕ) (k : Kind) : Prop :=
  k.arrayGetter m xarray index = .ok (k.payload m.heap es[index]?)

/-- So do the getters of a dictionary with the value of the key. -/
structure DictionaryReturns (h : Heap A) (xdict : ObjId) (ps : Pairs) (key : CString) : Prop where
  bool : xpcDictionaryGetBool h xdict key = .ok (Kind.payload .bool h (ps.lookup key))
  int64 : xpcDictionaryGetInt64 h xdict key = .ok (Kind.payload .int64 h (ps.lookup key))
  uint64 : xpcDictionaryGetUint64 h xdict key = .ok (Kind.payload .uint64 h (ps.lookup key))
  string : xpcDictionaryGetString h xdict key = .ok (Kind.payload .string h (ps.lookup key))

namespace Kind

def extract : (k : Kind) → Heap A → Option ObjId → Except Fault k.Value
  | .bool => xpcBoolGetValue
  | .int64 => xpcInt64GetValue
  | .uint64 => xpcUint64GetValue
  | .double => xpcDoubleGetValue
  | .date => xpcDateGetValue
  | .data => fun h x => do
    let length ← xpcDataGetLength h x
    let bytes ← xpcDataGetBytesPtr h x
    .ok (length, bytes)
  | .string => xpcStringGetStringPtr

section Extracting

variable {h : Heap A} {x : ObjId} {o : XpcObject A}

theorem arrayGetter_eq (k : Kind) (m : LinkedHeap) (a : ObjId) (i : ℕ) :
    k.arrayGetter m a i = arrayGet m a i k.extract := by
  cases k <;> rfl

theorem payload_none (k : Kind) (h : Heap A) : k.payload h none = k.dflt := rfl

theorem payload_of_leaf {v : Leaf} (k : Kind) (hx : h.get x = some o) (hu : o.xoU = .leaf v) :
    k.payload h (some x) = (k.read v).getD k.dflt := by
  obtain ⟨flags, refcnt, size, u, hsize⟩ := o
  subst hu
  simp only [payload, Option.bind_some, hx]

theorem payload_of_container (k : Kind) (hx : h.get x = some o) (hu : ∀ v, o.xoU ≠ .leaf v) :
    k.payload h (some x) = k.dflt := by
  obtain ⟨flags, refcnt, size, u, hsize⟩ := o
  cases u with
  | leaf v => exact absurd rfl (hu v)
  | array arr => simp only [payload, Option.bind_some, hx]
  | dictionary pairs => simp only [payload, Option.bind_some, hx]

theorem getLeaf_eq_payload (k : Kind) (hx : h.get x = some o) {read : Leaf → Option k.Value}
    (hread : ∀ v, read v = k.read v) :
    getLeaf h (some x) read k.dflt = .ok (k.payload h (some x)) := by
  cases hu : o.xoU with
  | leaf v => rw [k.payload_of_leaf hx hu, getLeaf_of_get hx hu, hread]
  | array arr =>
    rw [k.payload_of_container hx (by simp [hu])]
    simp [getLeaf, Heap.deref_of_get hx, hu]
  | dictionary pairs =>
    rw [k.payload_of_container hx (by simp [hu])]
    simp [getLeaf, Heap.deref_of_get hx, hu]

theorem extract_data (hx : h.get x = some o) :
    Kind.data.extract h (some x) = .ok (Kind.data.payload h (some x)) := by
  have hd := Heap.deref_of_get hx
  have hsize := o.sized
  cases hu : o.xoU with
  | leaf v =>
    rw [hu] at hsize
    rw [payload_of_leaf .data hx hu]
    cases v with
    | data bytes =>
      have hlength : o.xoSize = bytes.length := hsize
      simp [extract, xpcDataGetLength, xpcDataGetBytesPtr, getLeaf, hd, hu, hlength]
      rfl
    | _ =>
      simp [extract, xpcDataGetLength, xpcDataGetBytesPtr, getLeaf, hd, hu]
      rfl
  | array arr =>
    rw [payload_of_container .data hx (by simp [hu])]
    simp [extract, xpcDataGetLength, xpcDataGetBytesPtr, getLeaf, hd, hu]
    rfl
  | dictionary pairs =>
    rw [payload_of_container .data hx (by simp [hu])]
    simp [extract, xpcDataGetLength, xpcDataGetBytesPtr, getLeaf, hd, hu]
    rfl

/-- Every extractor handles an object of any type. -/
theorem extract_some (k : Kind) (hx : h.get x = some o) :
    k.extract h (some x) = .ok (k.payload h (some x)) := by
  cases k with
  | bool => exact getLeaf_eq_payload .bool hx (fun v => by cases v <;> rfl)
  | int64 => exact getLeaf_eq_payload .int64 hx (fun v => by cases v <;> rfl)
  | uint64 => exact getLeaf_eq_payload .uint64 hx (fun v => by cases v <;> rfl)
  | double => exact getLeaf_eq_payload .double hx (fun v => by cases v <;> rfl)
  | date => exact getLeaf_eq_payload .date hx (fun v => by cases v <;> rfl)
  | data => exact extract_data hx
  | string => exact getLeaf_eq_payload .string hx (fun v => by cases v <;> rfl)

/-- All but one handle a missing element. -/
theorem extract_none (k : Kind) (h : Heap A) :
    k.extract h none = if k = .double then .error .dangling else .ok k.dflt := by
  cases k <;> rfl

end Extracting

end Kind

section Looking

variable {m : LinkedHeap} {a i : ℕ} {es : List ObjId} {o : XpcObject Unit}

/-- The lookup goes by the size, which may be less than the length. -/
theorem xpcArrayGetValue_eq (ha : m.heap.get a = some o) (hu : o.xoU = .array ())
    (hq : m.links.Chain (.first a) es) (i : ℕ) :
    xpcArrayGetValue m a i = .ok (if i > o.xoSize then none else es[i]?) := by
  have hd : derefArray m a = .ok o := by
    simp [derefArray, Heap.deref_of_get ha, XpcObject.arr_of_xoU hu]
  have hnth : m.links.nth i (m.links.tqhFirst a) = es[i]? := hq.nth i
  rw [xpcArrayGetValue, hd, ok_bind, hnth]
  split_ifs <;> rfl

/-- A getter of an array returns what it should exactly when the index is not above the
size, or the default is right anyway, and for a double the index is in range as well. -/
theorem arrayReturns_iff (ha : m.heap.get a = some o) (hu : o.xoU = .array ())
    (hq : m.links.Chain (.first a) es) (hlive : ∀ x ∈ es, ∃ p, m.heap.get x = some p) (k : Kind) :
    ArrayReturns m a es i k ↔ (i ≤ o.xoSize ∨ k.payload m.heap es[i]? = k.dflt) ∧
      (k = .double → i < es.length ∧ i ≤ o.xoSize) := by
  have hget := xpcArrayGetValue_eq ha hu hq i
  rw [ArrayReturns, Kind.arrayGetter_eq, arrayGet, hget, ok_bind]
  by_cases hi : i > o.xoSize
  · have hnot : ¬ i ≤ o.xoSize := Nat.not_le.mpr hi
    rw [if_pos hi, Kind.extract_none, or_iff_right hnot]
    split_ifs with hk
    · exact iff_of_false (by simp) (fun h => hnot (h.2 hk).2)
    · constructor
      · exact fun h => ⟨(Except.ok.inj h).symm, fun h => absurd h hk⟩
      · exact fun h => congrArg Except.ok h.1.symm
  · have hle : i ≤ o.xoSize := Nat.not_lt.mp hi
    rw [if_neg hi]
    cases hx : es[i]? with
    | some x =>
      obtain ⟨p, hp⟩ := hlive x (List.mem_of_getElem? hx)
      refine iff_of_true (k.extract_some hp) ⟨.inl hle, fun _ => ⟨?_, hle⟩⟩
      exact (List.getElem?_eq_some_iff.mp hx).1
    | none =>
      rw [Kind.extract_none, Kind.payload_none]
      split_ifs with hk
      · refine iff_of_false (by simp) (fun h => ?_)
        exact absurd (h.2 hk).1 (Nat.not_lt.mpr (List.getElem?_eq_none_iff.mp hx))
      · exact iff_of_true rfl ⟨.inl hle, fun h => absurd h hk⟩

end Looking

section Dictionaries

variable {h : Heap A} {d : ObjId} {o : XpcObject A} {ps : Pairs} {key : CString}

/-- The element of an extractor that checks it. -/
theorem extract_ok {elem : Option ObjId} {k : Kind} (hlive : ∀ x, elem = some x → ∃ p, h.get x = some p)
    (hk : k ≠ .double) : k.extract h elem = .ok (k.payload h elem) := by
  cases elem with
  | none => rw [Kind.extract_none, if_neg hk, Kind.payload_none]
  | some x =>
    obtain ⟨p, hp⟩ := hlive x rfl
    exact k.extract_some hp

/-- There is no getter of a dictionary for doubles. -/
theorem dictionaryReturns (hd : h.get d = some o) (hu : o.xoU = .dictionary ps)
    (hlive : ∀ p ∈ ps, ∃ w, h.get p.2 = some w) (key : CString) : DictionaryReturns h d ps key := by
  have hget := xpcDictionaryGetValue_of_get hd hu key
  have hvalue : ∀ x, ps.lookup key = some x → ∃ w, h.get x = some w := by
    intro x hx
    exact hlive (key, x) (pair_mem_of_lookup hx)
  constructor
  · rw [xpcDictionaryGetBool, hget]
    exact extract_ok (k := .bool) hvalue (by decide)
  · rw [xpcDictionaryGetInt64, hget]
    exact extract_ok (k := .int64) hvalue (by decide)
  · rw [xpcDictionaryGetUint64, hget]
    exact extract_ok (k := .uint64) hvalue (by decide)
  · rw [xpcDictionaryGetString, hget]
    exact extract_ok (k := .string) hvalue (by decide)

end Dictionaries

/-- The typed getters of an array and of a dictionary return the payload or the default if
and only if that of the array has an index that is not above the stated size, or the
default is right anyway, and one of doubles an index that is in range as well. -/
theorem getters_iff {m : LinkedHeap} {a d i : ℕ} {o w : XpcObject Unit} {es : List ObjId} {ps : Pairs}
    (ha : m.heap.get a = some o) (hu : o.xoU = .array ()) (hq : m.links.Chain (.first a) es)
    (hes : ∀ x ∈ es, ∃ p, m.heap.get x = some p) (hd : m.heap.get d = some w)
    (hw : w.xoU = .dictionary ps) (hps : ∀ q ∈ ps, ∃ p, m.heap.get q.2 = some p) (k : Kind)
    (key : CString) :
    ArrayReturns m a es i k ∧ DictionaryReturns m.heap d ps key ↔
      (i ≤ o.xoSize ∨ k.payload m.heap es[i]? = k.dflt) ∧
        (k = .double → i < es.length ∧ i ≤ o.xoSize) :=
  (and_iff_left (dictionaryReturns hd hw hps key)).trans (arrayReturns_iff ha hu hq hes k)

/-- An array of two booleans that are true, as it is created, and an empty dictionary. -/
def twoTrue : LinkedHeap where
  heap := ⟨[some ⟨0, 1, 0, .array (), trivial⟩, some ⟨0, 2, 1, .leaf (.bool true), trivial⟩,
    some ⟨0, 2, 1, .leaf (.bool true), trivial⟩, some ⟨0, 1, 0, .dictionary [], trivial⟩]⟩
  links := ((Links.init ⟨fun _ => none, .first, fun _ => none, .first⟩ 0).insertTail 0 1).insertTail 0 2

theorem first_element_returned : ArrayReturns twoTrue 0 [1, 2] 0 .bool := by
  have hlive : ∀ x ∈ [1, 2], ∃ p, twoTrue.heap.get x = some p := by
    intro x hx
    rcases List.mem_pair.mp hx with rfl | rfl
    · exact ⟨_, rfl⟩
    · exact ⟨_, rfl⟩
  have hq : twoTrue.links.Chain (.first 0) [1, 2] := ⟨rfl, rfl, rfl⟩
  have hreturns := getters_iff (m := twoTrue) (a := 0) (d := 3) (i := 0) rfl rfl hq hlive rfl rfl
    (by simp) .bool keyK
  exact (hreturns.mpr ⟨.inl (Nat.le_refl _), by simp⟩).1

/-- The second element is not found, and a double that is missing is dereferenced. -/
theorem second_element_missed :
    xpcArrayGetBool twoTrue 0 1 = .ok false ∧ Kind.payload .bool twoTrue.heap [1, 2][1]? = true ∧
      ¬ ArrayReturns twoTrue 0 [1, 2] 1 .bool ∧
      xpcArrayGetDouble twoTrue 0 2 = .error .dangling ∧ ¬ ArrayReturns twoTrue 0 [1, 2] 2 .double := by
  refine ⟨rfl, rfl, ?_, rfl, ?_⟩
  · intro h
    cases h
  · intro h
    cases h

end Getters
end OpenXPC
