import OpenXPC.BorrowedKeys
import OpenXPC.Decoding

/-! # Received messages with captured keys

The decoder that leaves the keys where the message has them is the decoder of the heap
once its keys are captured: they make the same objects, headers aside, and stop at the
same faults. -/
namespace OpenXPC.BorrowedKeys
open InsertionMap Wire

/-- What is left of an object without its header. -/
def nodeOf (o : XpcObject (List ObjId)) : Node CString :=
  match o.xoU with
  | .leaf v => .leaf v
  | .array es => .array es
  | .dictionary ps => .dictionary ps

def nodesOf (h : Heap (List ObjId)) : Nodes CString := h.objs.map (Option.map nodeOf)

variable {h h' : Heap (List ObjId)} {d a v x y : ObjId} {o w : XpcObject (List ObjId)}

@[simp] theorem length_nodesOf (h : Heap (List ObjId)) : (nodesOf h).length = h.size := by
  simp [nodesOf, Heap.size]

theorem getElem?_nodesOf (h : Heap (List ObjId)) (x : ObjId) :
    ((nodesOf h)[x]?).join = (h.get x).map nodeOf := by
  rw [nodesOf, List.getElem?_map, Heap.get]
  cases h.objs[x]? <;> rfl

theorem deref_nodesOf (h : Heap (List ObjId)) (x : ObjId) :
    deref (nodesOf h) x = (h.deref x).map nodeOf := by
  rw [deref, getElem?_nodesOf, Heap.deref]
  cases h.get x <;> rfl

theorem dict_nodesOf (h : Heap (List ObjId)) (x : ObjId) :
    dict (nodesOf h) x = (h.deref x >>= XpcObject.dict) := by
  rw [dict, deref_nodesOf]
  cases h.deref x with
  | error e => rfl
  | ok o =>
    simp only [Except.map, ok_bind, nodeOf, XpcObject.dict]
    cases o.xoU <;> rfl

@[simp] theorem nodesOf_set (h : Heap (List ObjId)) (x : ObjId) (o : XpcObject (List ObjId)) :
    nodesOf (h.set x o) = (nodesOf h).set x (some (nodeOf o)) := by
  simp [nodesOf, Heap.set]

@[simp] theorem nodesOf_alloc (h : Heap (List ObjId)) (o : XpcObject (List ObjId)) :
    nodesOf (h.alloc o).1 = nodesOf h ++ [some (nodeOf o)] := by
  simp [nodesOf, Heap.alloc]

/-- A count is in the header. -/
theorem nodesOf_retained (hx : h.get x = some o) : nodesOf (h.set x o.retained) = nodesOf h := by
  have hlt : x < (nodesOf h).length := by
    rw [length_nodesOf]
    exact Heap.lt_size_of_get hx
  have hnode : (nodesOf h)[x]? = some (some (nodeOf o)) := by
    apply Option.join_eq_some_iff.mp
    rw [getElem?_nodesOf, hx]
    rfl
  rw [nodesOf_set]
  refine List.ext_getElem? (fun i => ?_)
  rw [List.getElem?_set]
  split_ifs with hi
  · subst hi
    exact hnode.symm
  · rfl

theorem created_nodesOf (h : Heap (List ObjId)) (v : Leaf) :
    created (nodesOf h) v = (nodesOf (OpenXPC.created h v).1, (OpenXPC.created h v).2) := by
  simp [created, OpenXPC.created, leafCreate, xpcPrimCreate, xpcPrimCreateFlags, nodeOf]
  rfl

/-! ## The containers -/

/-- The container is written and then the value is retained, which is there. -/
theorem retain_set_nodesOf (hd : h.get d = some o) (hv : h.get v = some w)
    (o' : XpcObject (List ObjId)) :
    (xpcRetain (h.set d o') v).map nodesOf = .ok ((nodesOf h).set d (some (nodeOf o'))) := by
  have hvalue : ∃ w', (h.set d o').get v = some w' := by
    rw [Heap.get_set hd]
    split_ifs
    · exact ⟨o', rfl⟩
    · exact ⟨w, hv⟩
  obtain ⟨w', hw'⟩ := hvalue
  rw [xpcRetain_of_get hw', Except.map, nodesOf_retained hw', nodesOf_set]

theorem deref_nodesOf_of_get (hv : h.get v = some w) : deref (nodesOf h) v = .ok (nodeOf w) := by
  rw [deref_nodesOf, Heap.deref_of_get hv]
  rfl

/-- Where the pair is replaced the value is not looked at, but it is there. -/
theorem dictionarySetValue_nodesOf (hv : h.get v = some w) (d : ObjId) (k : CString) :
    dictionarySetValue id (nodesOf h) d k v = (xpcDictionarySetValue h d k v).map nodesOf := by
  rw [dictionarySetValue, dict_nodesOf, xpcDictionarySetValue]
  cases hd : h.deref d with
  | error e => rfl
  | ok o =>
    simp only [ok_bind]
    cases o.dict with
    | error e => rfl
    | ok ps =>
      simp only [ok_bind, deref_nodesOf_of_get hv, setLoop_id]
      cases replace? k v ps with
      | some qs => exact congrArg Except.ok (nodesOf_set h d (o.withPairs qs o.xoSize)).symm
      | none =>
        let added := o.withPairs (ps ++ [(k, v)]) (o.xoSize + 1)
        exact (retain_set_nodesOf (Heap.get_of_deref hd) hv added).symm

theorem arrayAppendValue_nodesOf (hv : h.get v = some w) (a : ObjId) :
    arrayAppendValue (nodesOf h) a v = (Arrays.xpcArrayAppendValue h a v).map nodesOf := by
  rw [arrayAppendValue, deref_nodesOf, Arrays.xpcArrayAppendValue]
  cases ha : h.deref a with
  | error e => rfl
  | ok o =>
    simp only [ok_bind, Except.map, nodeOf, XpcObject.arr]
    cases ho : o.xoU with
    | array es =>
      simp only [ok_bind, deref_nodesOf_of_get hv]
      exact (retain_set_nodesOf (Heap.get_of_deref ha) hv (o.withArr (es ++ [v]))).symm
    | _ => rfl

/-! ## The decoder -/

/-- An object that has been returned is there. -/
theorem live_of_deserialiseIter {sub : List (Val CString)}
    (he : OpenXPC.deserialiseIter h sub = .ok (h', some y)) : ∃ o, h'.get y = some o := by
  cases sub with
  | nil => cases he
  | cons u rest =>
    by_cases hs : Safe u
    · obtain ⟨h₁, r, hu, -, hrel⟩ := deserialiseObject_ok hs h
      cases hu.symm.trans he
      cases htree : translate u with
      | none =>
        rw [htree] at hrel
        cases hrel
      | some t =>
        rw [htree] at hrel
        cases hrel with
        | some hy => exact hy.live
    · obtain ⟨e, hfails⟩ := deserialiseObject_fails hs h
      cases hfails.symm.trans he

mutual

theorem deserialiseObject_nodesOf (h : Heap (List ObjId)) : ∀ v : Val CString,
    deserialiseObject id (nodesOf h) v =
      (OpenXPC.deserialiseObject h v).map (fun r => (nodesOf r.1, r.2))
  | .basic b => by
    cases b <;> simp [deserialiseObject, OpenXPC.deserialiseObject, Except.map, created_nodesOf]
  | .container c sub => by
    cases c with
    | array elem =>
      cases elem with
      | dictEntry key value =>
        let h₁ := (h.alloc ⟨0, 1, 0, .dictionary [], trivial⟩).1
        have hcreate : xpcDictionaryCreate h [] = .ok (h₁, h.size) := rfl
        have hsub := deserialiseDict_nodesOf h.size h₁ sub
        rw [nodesOf_alloc] at hsub
        simp only [deserialiseObject, OpenXPC.deserialiseObject, hcreate, ok_bind, length_nodesOf]
        rw [show deserialiseDict id h.size (nodesOf h ++ [some (.dictionary [])]) sub = _ from hsub]
        cases OpenXPC.deserialiseDict h.size h₁ sub <;> rfl
      | variant =>
        let h₁ := (h.alloc ⟨0, 1, 0, .array [], trivial⟩).1
        have hcreate : Arrays.xpcArrayCreate h [] = .ok (h₁, h.size) := rfl
        have hsub := deserialiseArr_nodesOf h.size h₁ sub
        rw [nodesOf_alloc] at hsub
        simp only [deserialiseObject, OpenXPC.deserialiseObject, hcreate, ok_bind, length_nodesOf]
        rw [show deserialiseArr id h.size (nodesOf h ++ [some (.array [])]) sub = _ from hsub]
        cases OpenXPC.deserialiseArr h.size h₁ sub <;> rfl
      | basic b => cases b <;> rfl
      | _ => rfl
    | _ => rfl

theorem deserialiseIter_nodesOf (h : Heap (List ObjId)) : ∀ vs : List (Val CString),
    deserialiseIter id (nodesOf h) vs =
      (OpenXPC.deserialiseIter h vs).map (fun r => (nodesOf r.1, r.2))
  | [] => rfl
  | v :: _ => deserialiseObject_nodesOf h v

theorem deserialiseArr_nodesOf (arr : ObjId) (h : Heap (List ObjId)) : ∀ iter : List (Val CString),
    deserialiseArr id arr (nodesOf h) iter = (OpenXPC.deserialiseArr arr h iter).map nodesOf
  | [] => rfl
  | .basic _ :: _ => rfl
  | .container c sub :: iter => by
    cases c with
    | variant sig =>
      simp only [deserialiseArr, OpenXPC.deserialiseArr, deserialiseIter_nodesOf h sub]
      cases hsub : OpenXPC.deserialiseIter h sub with
      | error e => rfl
      | ok r =>
        obtain ⟨h₁, value⟩ := r
        cases value with
        | none => rfl
        | some value =>
          obtain ⟨w, hw⟩ := live_of_deserialiseIter hsub
          simp only [Except.map, ok_bind, arrayAppendValue_nodesOf hw]
          cases Arrays.xpcArrayAppendValue h₁ arr value with
          | error e => rfl
          | ok h₂ => exact deserialiseArr_nodesOf arr h₂ iter
    | _ => rfl

theorem deserialiseDict_nodesOf (dict : ObjId) (h : Heap (List ObjId)) : ∀ iter : List (Val CString),
    deserialiseDict id dict (nodesOf h) iter = (OpenXPC.deserialiseDict dict h iter).map nodesOf
  | [] => rfl
  | .basic _ :: _ => rfl
  | .container _ [] :: _ => rfl
  | .container _ (.container _ _ :: _) :: _ => rfl
  | .container _ (.basic b :: []) :: _ => by cases b <;> rfl
  | .container _ (.basic b :: .basic _ :: _) :: _ => by cases b <;> rfl
  | .container _ (.basic b :: .container c sub2 :: rest) :: iter => by
    cases b with
    | string key =>
      cases c with
      | variant sig =>
        simp only [deserialiseDict, OpenXPC.deserialiseDict, deserialiseIter_nodesOf h sub2]
        cases hsub : OpenXPC.deserialiseIter h sub2 with
        | error e => rfl
        | ok r =>
          obtain ⟨h₁, value⟩ := r
          cases value with
          | none => rfl
          | some value =>
            obtain ⟨w, hw⟩ := live_of_deserialiseIter hsub
            simp only [Except.map, ok_bind, dictionarySetValue_nodesOf hw]
            cases xpcDictionarySetValue h₁ dict key value with
            | error e => rfl
            | ok h₂ => exact deserialiseDict_nodesOf dict h₂ iter
      | _ => rfl
    | _ => rfl

end

/-- Decoding over pointers and capturing is decoding what they point to. -/
theorem deserialiseObject_of_captured {K : Type} (read : K → CString) {ns : Nodes K}
    (hns : capture read ns = nodesOf h) (v : Val K) :
    (deserialiseObject read ns v).map (fun r => (capture read r.1, r.2)) =
      (OpenXPC.deserialiseObject h (captureVal read v)).map (fun r => (nodesOf r.1, r.2)) := by
  rw [← deserialiseObject_capture, hns, deserialiseObject_nodesOf]

end OpenXPC.BorrowedKeys
