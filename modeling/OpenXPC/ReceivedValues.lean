import OpenXPC.Conversion
import OpenXPC.DictionaryCounts

/-! # Received values

The message values that have an XPC type, and the tree each of them stands for.
Nothing on the wire keeps a dictionary from repeating a key. -/
namespace OpenXPC.ReceivedValues
open InsertionMap Wire

/-- The basic values with an XPC type. -/
inductive Plain
  | boolean (val : Bool)
  | int64 (val : Int64)
  | uint64 (val : UInt64)
  | string (val : CString)
  | unixFd (file : ℕ)

/-- An array holds variants, a dictionary variants under strings. -/
inductive Received
  | plain (val : Plain)
  | array (elems : List Received)
  | dictionary (entries : List (CString × Received))

def Plain.val : Plain → BasicVal CString
  | .boolean val => .boolean val
  | .int64 val => .int64 val
  | .uint64 val => .uint64 val
  | .string val => .string val
  | .unixFd file => .unixFd file

def Plain.leaf : Plain → Leaf
  | .boolean val => .bool val
  | .int64 val => .int64 val
  | .uint64 val => .uint64 val
  | .string val => .string val
  | .unixFd file => .fd file

namespace Received

def ty : Received → Ty
  | .plain val => .basic val.val.ty
  | .array _ => .array .variant
  | .dictionary _ => .array (.dictEntry .string .variant)

mutual

/-- The value on the wire. -/
def toVal : Received → Val CString
  | .plain val => .basic val.val
  | .array elems => .container (.array .variant) (elemVals elems)
  | .dictionary entries =>
    .container (.array (.dictEntry .string .variant)) (entryVals entries)

def elemVals : List Received → List (Val CString)
  | [] => []
  | v :: elems => .container (.variant v.ty) [toVal v] :: elemVals elems

def entryVals : List (CString × Received) → List (Val CString)
  | [] => []
  | (key, v) :: entries =>
    .container .dictEntry [.basic (.string key), .container (.variant v.ty) [toVal v]] ::
      entryVals entries

end

/-- One entry for each key, in the order of the first occurrences, with the last value. -/
def lastPerKey {V : Type} (entries : List (CString × V)) : List (CString × V) :=
  (firstKeys entries).filterMap (fun key => (lastSet entries key).map (key, ·))

mutual

/-- The tree the value stands for. -/
def reference : Received → Tree
  | .plain val => .leaf val.leaf
  | .array elems => .array (referenceElems elems)
  | .dictionary entries => .dictionary (lastPerKey (referenceEntries entries))

def referenceElems : List Received → List Tree
  | [] => []
  | v :: elems => reference v :: referenceElems elems

def referenceEntries : List (CString × Received) → List (CString × Tree)
  | [] => []
  | (key, v) :: entries => (key, reference v) :: referenceEntries entries

end

mutual

theorem toVal_hasTy : ∀ v : Received, v.toVal.HasTy v.ty
  | .plain _ => Val.hasTy_basic.mpr rfl
  | .array elems => Val.hasTy_array.mpr ⟨rfl, elemVals_hasTy elems⟩
  | .dictionary entries => Val.hasTy_array.mpr ⟨rfl, entryVals_hasTy entries⟩

theorem elemVals_hasTy : ∀ elems : List Received, ∀ w ∈ elemVals elems, w.HasTy .variant
  | [], w, hw => by cases hw
  | v :: elems, w, hw => by
    rcases List.mem_cons.mp hw with rfl | hw
    · exact Val.hasTy_variant.mpr ⟨rfl, v.toVal, rfl, toVal_hasTy v⟩
    · exact elemVals_hasTy elems w hw

theorem entryVals_hasTy : ∀ entries : List (CString × Received), ∀ w ∈ entryVals entries,
    w.HasTy (.dictEntry .string .variant)
  | [], w, hw => by cases hw
  | (key, v) :: entries, w, hw => by
    rcases List.mem_cons.mp hw with rfl | hw
    · have hvalue := Val.hasTy_variant.mpr ⟨rfl, v.toVal, rfl, toVal_hasTy v⟩
      exact Val.hasTy_dictEntry (k := .string key) hvalue
    · exact entryVals_hasTy entries w hw

end

theorem supported_toVal (v : Received) : Supported v.toVal := by
  cases v with
  | plain val => cases val <;> trivial
  | array elems => trivial
  | dictionary entries => trivial

mutual

theorem safe_toVal : ∀ v : Received, Safe v.toVal
  | .plain val => by cases val <;> trivial
  | .array elems => safeArr_elemVals elems
  | .dictionary entries => safeDict_entryVals entries

theorem safeArr_elemVals : ∀ elems : List Received, SafeArr (elemVals elems)
  | [] => trivial
  | v :: elems => ⟨⟨supported_toVal v, safe_toVal v⟩, safeArr_elemVals elems⟩

theorem safeDict_entryVals : ∀ entries : List (CString × Received), SafeDict (entryVals entries)
  | [] => trivial
  | (_, v) :: entries => ⟨⟨supported_toVal v, safe_toVal v⟩, safeDict_entryVals entries⟩

end

mutual

/-- The tree the decoder builds by its updates is the reference. -/
theorem translate_toVal : ∀ v : Received, translate v.toVal = some v.reference
  | .plain val => by cases val <;> rfl
  | .array elems => by rw [toVal, translate, translateArr_elemVals elems, reference]
  | .dictionary entries => by
    rw [toVal, translate, translateDict_entryVals entries, build_eq_filterMap, reference, lastPerKey]

theorem translateArr_elemVals : ∀ elems : List Received,
    translateArr (elemVals elems) = referenceElems elems
  | [] => rfl
  | v :: elems => by
    rw [elemVals, translateArr, translateIter, translate_toVal v, translateArr_elemVals elems,
      referenceElems]
    rfl

theorem translateDict_entryVals : ∀ entries : List (CString × Received),
    translateDict (entryVals entries) = referenceEntries entries
  | [] => rfl
  | (key, v) :: entries => by
    rw [entryVals, translateDict, translateIter, translate_toVal v,
      translateDict_entryVals entries, referenceEntries]
    rfl

end

/-- A received value, with any nesting and any repetition of keys, becomes a new
object with the reference tree. The count of each dictionary in it is the number
of its keys, which are distinct. -/
theorem deserialiseObject_reference (h : Heap (List ObjId)) (v : Received) :
    v.toVal.HasTy v.ty ∧ ∃ h' x, deserialiseObject h v.toVal = .ok (h', some x) ∧ h.Keeps h' ∧
      TreeAt h' x v.reference ∧ ∀ d ps, Relation.ReflTransGen h'.Slot x d → TreeAt h' d (.dictionary ps) →
          (ps.map Prod.fst).Nodup ∧ xpcDictionaryGetCount h' d = .ok ps.length := by
  obtain ⟨h', r, hdecode, hkeeps, hrel⟩ := deserialiseObject_ok (safe_toVal v) h
  rw [translate_toVal v] at hrel
  cases hrel with
  | @some x _ htree =>
    have hnew : h.ForallFrom h.size DictionaryCounts.Counted := fun y o hy hget =>
      absurd (Heap.lt_size_of_get hget) (Nat.not_lt.mpr hy)
    have hcounted := (DictionaryCounts.closed_counted h.size).preservesBelow _ v.toVal
      (Nat.lt_succ_self _) h h' _ hnew hdecode
    refine ⟨toVal_hasTy v, h', x, hdecode, hkeeps, htree.keeps (Nat.zero_le _) (Heap.Keeps.refl h'), ?_⟩
    intro d ps hreach hd
    obtain ⟨u, hu⟩ := htree.reached hreach
    obtain ⟨-, o, qs, ho, hqs, hps⟩ := treeFrom_dictionary.mp hd
    obtain ⟨hsize, hnodup⟩ := hcounted d o hu.le ho qs hqs
    refine ⟨hps.keys ▸ hnodup, ?_⟩
    have hlen : qs.length = ps.length := by simpa using congrArg List.length hps.keys
    rw [xpcDictionaryGetCount, Heap.deref_of_get ho, ok_bind, hsize, hlen]

end Received
end OpenXPC.ReceivedValues
