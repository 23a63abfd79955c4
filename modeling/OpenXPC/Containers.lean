import OpenXPC.InsertionMap
import OpenXPC.Objects

/-! # Dictionaries and arrays

The container operations over the heap. A dictionary holds its pairs in queue
order; the operations on it do not depend on how arrays are stored. An array is
here the list of the objects in its queue. -/
namespace OpenXPC

open InsertionMap

variable {A σ : Type}

abbrev Pairs := List (CString × ObjId)

namespace XpcObject

def dict (o : XpcObject A) : Except Fault Pairs :=
  match o.xoU with
  | .dictionary pairs => .ok pairs
  | _ => .error .wrongType

def arr (o : XpcObject A) : Except Fault A :=
  match o.xoU with
  | .array a => .ok a
  | _ => .error .wrongType

def withPairs (o : XpcObject A) (pairs : Pairs) (size : ℕ) : XpcObject A :=
  { o with xoU := .dictionary pairs, xoSize := size, sized := trivial }

def withArr (o : XpcObject A) (a : A) : XpcObject A :=
  { o with xoU := .array a, sized := trivial }

theorem dict_of_xoU {o : XpcObject A} {ps : Pairs} (ho : o.xoU = .dictionary ps) :
    o.dict = .ok ps := by simp [dict, ho]

theorem arr_of_xoU {o : XpcObject A} {a : A} (ho : o.xoU = .array a) : o.arr = .ok a := by
  simp [arr, ho]

theorem xoU_of_dict {o : XpcObject A} {ps : Pairs} (ho : o.dict = .ok ps) :
    o.xoU = .dictionary ps := by
  unfold dict at ho
  split at ho
  · cases ho
    assumption
  · cases ho

theorem xoU_of_arr {o : XpcObject A} {a : A} (ho : o.arr = .ok a) : o.xoU = .array a := by
  unfold arr at ho
  split at ho
  · cases ho
    assumption
  · cases ho

end XpcObject

/-! ## Dictionaries -/

def xpcDictionarySetValue (h : Heap A) (xdict : ObjId) (key : CString) (value : ObjId) :
    Except Fault (Heap A) := do
  let xo ← h.deref xdict
  let pairs ← xo.dict
  match replace? key value pairs with
  -- the old value is overwritten: it is not released, and the new one not retained
  | some pairs' => .ok (h.set xdict (xo.withPairs pairs' xo.xoSize))
  | none => xpcRetain (h.set xdict (xo.withPairs (pairs ++ [(key, value)]) (xo.xoSize + 1))) value

/-- The keys and values arrays, zipped; their length is the count. -/
def xpcDictionaryCreate (h : Heap A) (entries : Pairs) : Except Fault (Heap A × ObjId) := do
  let (h, xo) := xpcPrimCreate h (.dictionary []) entries.length trivial
  let h ← entries.foldlM (fun h p => xpcDictionarySetValue h xo p.1 p.2) h
  .ok (h, xo)

def xpcDictionaryGetValue (h : Heap A) (xdict : ObjId) (key : CString) :
    Except Fault (Option ObjId) := do
  let xo ← h.deref xdict
  let pairs ← xo.dict
  .ok (pairs.lookup key)

def xpcDictionaryGetCount (h : Heap A) (xdict : ObjId) : Except Fault ℕ := do
  let xo ← h.deref xdict
  .ok xo.xoSize

/-- The loop over the pairs; the user data is threaded through the applier. -/
def applyPairs (applier : CString → ObjId → σ → Except Fault (σ × Bool)) :
    Pairs → σ → Except Fault (σ × Bool)
  | [], udata => .ok (udata, true)
  | p :: ps, udata => do
    let (udata, go) ← applier p.1 p.2 udata
    if go then applyPairs applier ps udata else .ok (udata, false)

def xpcDictionaryApplyFun (h : Heap A) (xdict : ObjId)
    (applier : CString → ObjId → σ → Except Fault (σ × Bool)) (udata : σ) :
    Except Fault (σ × Bool) := do
  let xo ← h.deref xdict
  let pairs ← xo.dict
  applyPairs applier pairs udata

def IsDictionary (h : Heap A) (d : ObjId) : Prop := ∃ o ps, h.get d = some o ∧ o.xoU = .dictionary ps

/-- The typed setters create a value and insert it. -/
def dictionarySetLeaf (h : Heap A) (xdict : ObjId) (key : CString) (v : Leaf) :
    Except Fault (Heap A) :=
  let (h, xotmp) := leafCreate h v
  xpcDictionarySetValue h xdict key xotmp

def xpcDictionarySetBool (h : Heap A) (xdict : ObjId) (key : CString) (value : Bool) :=
  dictionarySetLeaf h xdict key (.bool value)

def xpcDictionarySetInt64 (h : Heap A) (xdict : ObjId) (key : CString) (value : Int64) :=
  dictionarySetLeaf h xdict key (.int64 value)

def xpcDictionarySetUint64 (h : Heap A) (xdict : ObjId) (key : CString) (value : UInt64) :=
  dictionarySetLeaf h xdict key (.uint64 value)

def xpcDictionarySetString (h : Heap A) (xdict : ObjId) (key value : CString) :=
  dictionarySetLeaf h xdict key (.string value)

def xpcDictionaryGetBool (h : Heap A) (xdict : ObjId) (key : CString) : Except Fault Bool := do
  let xo ← xpcDictionaryGetValue h xdict key
  xpcBoolGetValue h xo

def xpcDictionaryGetInt64 (h : Heap A) (xdict : ObjId) (key : CString) : Except Fault Int64 := do
  let xo ← xpcDictionaryGetValue h xdict key
  xpcInt64GetValue h xo

def xpcDictionaryGetUint64 (h : Heap A) (xdict : ObjId) (key : CString) : Except Fault UInt64 := do
  let xo ← xpcDictionaryGetValue h xdict key
  xpcUint64GetValue h xo

def xpcDictionaryGetString (h : Heap A) (xdict : ObjId) (key : CString) :
    Except Fault (Option CString) := do
  let xo ← xpcDictionaryGetValue h xdict key
  xpcStringGetStringPtr h xo

section Specifications

/-- Writing a container and then retaining what went into it. -/
theorem xpcRetain_set {h : Heap A} {x v : ObjId} {o w : XpcObject A} (hx : h.get x = some o)
    (hv : h.get v = some w) (p : XpcObject A) :
    ∃ h', xpcRetain (h.set x p) v = .ok h' ∧ h.KeepsBut x h' ∧
      ∃ p', h'.get x = some p' ∧ p'.xoU = p.xoU ∧ p'.xoSize = p.xoSize := by
  obtain ⟨q, hq⟩ : ∃ q, (h.set x p).get v = some q := by
    rw [Heap.get_set hx]
    split_ifs
    · exact ⟨p, rfl⟩
    · exact ⟨w, hv⟩
  have hr := xpcRetain_of_get hq
  have hkeep := keeps_of_xpcRetain hr
  have hp : (h.set x p).get x = some p := by rw [Heap.get_set hx, if_pos rfl]
  exact ⟨_, hr, (Heap.keepsBut_set hx p).trans (hkeep.keepsBut x), hkeep.get_of_get hp⟩

variable {h : Heap A} {d v : ObjId} {o w : XpcObject A} {ps : Pairs} {k : CString}

theorem xpcDictionarySetValue_replace (hd : h.get d = some o) (ho : o.xoU = .dictionary ps)
    (hk : k ∈ ps.map Prod.fst) :
    xpcDictionarySetValue h d k v = .ok (h.set d (o.withPairs (upsert k v ps) o.xoSize)) := by
  simp [xpcDictionarySetValue, Heap.deref_of_get hd, XpcObject.dict_of_xoU ho, upsert_of_mem hk]

/-- All that a set can do: write a value over the old one of its key, or add a pair
and retain the value. -/
theorem xpcDictionarySetValue_cases {h' : Heap A} (he : xpcDictionarySetValue h d k v = .ok h') :
    ∃ o ps, h.get d = some o ∧ o.xoU = .dictionary ps ∧
      ((∃ qs, replace? k v ps = some qs ∧ h' = h.set d (o.withPairs qs o.xoSize)) ∨
        (replace? k v ps = none ∧
          xpcRetain (h.set d (o.withPairs (ps ++ [(k, v)]) (o.xoSize + 1))) v = .ok h')) := by
  obtain ⟨o, hd, he⟩ := bind_eq_ok.mp he
  obtain ⟨ps, hps, he⟩ := bind_eq_ok.mp he
  refine ⟨o, ps, Heap.get_of_deref hd, XpcObject.xoU_of_dict hps, ?_⟩
  cases hr : replace? k v ps with
  | some qs =>
    rw [hr] at he
    exact .inl ⟨qs, rfl, (Except.ok.inj he).symm⟩
  | none =>
    rw [hr] at he
    exact .inr ⟨rfl, he⟩

/-- A set updates the pairs, counts a fresh key and leaves the other objects alone. -/
theorem xpcDictionarySetValue_ok (hd : h.get d = some o) (ho : o.xoU = .dictionary ps)
    (hv : h.get v = some w) (k : CString) :
    ∃ h', xpcDictionarySetValue h d k v = .ok h' ∧ h.KeepsBut d h' ∧ ∃ o', h'.get d = some o' ∧
      o'.xoU = .dictionary (upsert k v ps) ∧
      o'.xoSize + ps.length = o.xoSize + (upsert k v ps).length := by
  by_cases hk : k ∈ ps.map Prod.fst
  · refine ⟨_, xpcDictionarySetValue_replace hd ho hk, Heap.keepsBut_set hd _,
      _, by rw [Heap.get_set hd, if_pos rfl], rfl, ?_⟩
    rw [replace?_length (upsert_of_mem hk)]
    rfl
  · obtain ⟨h', hr, hkeep, o', ho', hu', hs'⟩ :=
      xpcRetain_set hd hv (o.withPairs (ps ++ [(k, v)]) (o.xoSize + 1))
    refine ⟨h', ?_, hkeep, o', ho', ?_, ?_⟩
    · simp only [xpcDictionarySetValue, Heap.deref_of_get hd, XpcObject.dict_of_xoU ho, ok_bind,
        replace?_eq_none_iff.mpr hk, hr]
    · rw [hu', upsert_of_notMem hk]
      rfl
    · have hlen : (upsert k v ps).length = ps.length + 1 := by simp [upsert_of_notMem hk]
      have hsize : o'.xoSize = o.xoSize + 1 := hs'
      omega

/-- The sets of a bulk creation. -/
theorem dictionarySetAll_ok {entries : Pairs} (hd : h.get d = some o) (ho : o.xoU = .dictionary ps)
    (hv : ∀ p ∈ entries, ∃ w, h.get p.2 = some w) :
    ∃ h', entries.foldlM (fun h p => xpcDictionarySetValue h d p.1 p.2) h = .ok h' ∧
      h.KeepsBut d h' ∧ ∃ o', h'.get d = some o' ∧
        o'.xoU = .dictionary (entries.foldl (fun ps p => upsert p.1 p.2 ps) ps) ∧
        o'.xoSize + ps.length =
          o.xoSize + (entries.foldl (fun ps p => upsert p.1 p.2 ps) ps).length := by
  induction entries generalizing h o ps with
  | nil => exact ⟨h, rfl, (Heap.Keeps.refl h).keepsBut d, o, hd, ho, rfl⟩
  | cons p entries ih =>
    obtain ⟨w, hw⟩ := hv p List.mem_cons_self
    obtain ⟨h₁, he₁, hk₁, o₁, hd₁, ho₁, hs₁⟩ := xpcDictionarySetValue_ok hd ho hw p.1
    have hv₁ : ∀ q ∈ entries, ∃ w, h₁.get q.2 = some w := by
      intro q hq
      obtain ⟨w, hw⟩ := hv q (List.mem_cons_of_mem p hq)
      by_cases hqd : q.2 = d
      · exact ⟨o₁, by rw [hqd, hd₁]⟩
      · obtain ⟨w', hw', -⟩ := hk₁.get_of_get hqd hw
        exact ⟨w', hw'⟩
    obtain ⟨h₂, he₂, hk₂, o₂, hd₂, ho₂, hs₂⟩ := ih hd₁ ho₁ hv₁
    refine ⟨h₂, ?_, hk₁.trans hk₂, o₂, hd₂, ho₂, ?_⟩
    · rw [List.foldlM_cons, he₁]
      exact he₂
    · rw [List.foldl_cons]
      omega

/-- The count starts at the number of entries, and every new key adds to it. -/
theorem xpcDictionaryCreate_ok {entries : Pairs} (hv : ∀ p ∈ entries, ∃ w, h.get p.2 = some w) :
    ∃ h', xpcDictionaryCreate h entries = .ok (h', h.size) ∧ h.Keeps h' ∧
      ∃ o, h'.get h.size = some o ∧ o.xoU = .dictionary (build entries) ∧
        o.xoSize = entries.length + (build entries).length := by
  let o : XpcObject A := ⟨0, 1, entries.length, .dictionary [], trivial⟩
  have hnew : (h.alloc o).1.get h.size = some o := by simp [Heap.get_alloc]
  have hlive : ∀ p ∈ entries, ∃ w, (h.alloc o).1.get p.2 = some w := by
    intro p hp
    obtain ⟨w, hw⟩ := hv p hp
    exact ⟨w, Heap.get_alloc_of_get hw o⟩
  obtain ⟨h', he, hk, o', ho', hu', hs'⟩ := dictionarySetAll_ok hnew rfl hlive
  refine ⟨h', ?_, (((h.keeps_alloc o).keepsBut _).trans hk).keeps (Nat.le_refl _), o', ho', hu', hs'⟩
  change (entries.foldlM (fun h' p => xpcDictionarySetValue h' h.size p.1 p.2) (h.alloc o).1 >>= _) = _
  rw [he]
  rfl

theorem xpcDictionaryGetValue_of_get (hd : h.get d = some o) (ho : o.xoU = .dictionary ps)
    (k : CString) : xpcDictionaryGetValue h d k = .ok (ps.lookup k) := by
  simp [xpcDictionaryGetValue, Heap.deref_of_get hd, XpcObject.dict_of_xoU ho]

theorem xpcDictionaryApplyFun_of_get (hd : h.get d = some o) (ho : o.xoU = .dictionary ps)
    (applier : CString → ObjId → σ → Except Fault (σ × Bool)) (udata : σ) :
    xpcDictionaryApplyFun h d applier udata = applyPairs applier ps udata := by
  simp [xpcDictionaryApplyFun, Heap.deref_of_get hd, XpcObject.dict_of_xoU ho]

end Specifications

/-! ## Arrays -/

/-- `XPC_ARRAY_APPEND`, the largest `size_t` -/
def xpcArrayAppend : ℕ := UInt64.size - 1

def xpcArrayGetCount (h : Heap A) (xarray : ObjId) : Except Fault ℕ := do
  let xo ← h.deref xarray
  .ok xo.xoSize

namespace Arrays

def xpcArrayAppendValue (h : Heap (List ObjId)) (xarray value : ObjId) :
    Except Fault (Heap (List ObjId)) := do
  let xo ← h.deref xarray
  let elems ← xo.arr
  xpcRetain (h.set xarray (xo.withArr (elems ++ [value]))) value

def xpcArrayCreate (h : Heap (List ObjId)) (objects : List ObjId) :
    Except Fault (Heap (List ObjId) × ObjId) := do
  let (h, xo) := xpcPrimCreate h (.array []) 0 trivial
  let h ← objects.foldlM (fun h object => xpcArrayAppendValue h xo object) h
  .ok (h, xo)

/-- A set below the size exchanges the elements in its call of `TAILQ_INSERT_AFTER`: the
element there is freed and stays in the queue, which goes on behind it by the link of the
value, and the value is not put in. The link of an object that is in no queue is taken
to be NULL. -/
def xpcArraySetValue (h : Heap (List ObjId)) (xarray : ObjId) (index : ℕ) (value : ObjId) :
    Except Fault (Heap (List ObjId)) := do
  if index = xpcArrayAppend then
    xpcArrayAppendValue h xarray value
  else
    let xo ← h.deref xarray
    let elems ← xo.arr
    if index ≥ xo.xoSize then
      .ok h
    else
      match elems[index]? with
      | none => .ok h
      | some old => do
        let _ ← h.deref old
        let h ← xpcRetain (h.set xarray (xo.withArr (elems.take (index + 1)))) value
        -- freed whatever its count is
        .ok (h.free old)

/-- The typed setters create a value and set it. -/
def arraySetLeaf (h : Heap (List ObjId)) (xarray : ObjId) (index : ℕ) (v : Leaf) :
    Except Fault (Heap (List ObjId)) :=
  let (h, xotmp) := leafCreate h v
  xpcArraySetValue h xarray index xotmp

def xpcArrayGetValue (h : Heap (List ObjId)) (xarray : ObjId) (index : ℕ) :
    Except Fault (Option ObjId) := do
  let xo ← h.deref xarray
  let elems ← xo.arr
  if index > xo.xoSize then .ok none else .ok elems[index]?

def applyElems (applier : ℕ → ObjId → σ → Except Fault (σ × Bool)) :
    ℕ → List ObjId → σ → Except Fault (σ × Bool)
  | _, [], udata => .ok (udata, true)
  | i, x :: xs, udata => do
    let (udata, go) ← applier i x udata
    if go then applyElems applier (i + 1) xs udata else .ok (udata, false)

def xpcArrayApplyFun (h : Heap (List ObjId)) (xarray : ObjId)
    (applier : ℕ → ObjId → σ → Except Fault (σ × Bool)) (udata : σ) :
    Except Fault (σ × Bool) := do
  let xo ← h.deref xarray
  let elems ← xo.arr
  applyElems applier 0 elems udata

section Specifications

variable {h : Heap (List ObjId)} {a v : ObjId} {o w : XpcObject (List ObjId)} {es : List ObjId}

theorem xpcArrayAppendValue_cases {h' : Heap (List ObjId)}
    (he : xpcArrayAppendValue h a v = .ok h') :
    ∃ o es, h.get a = some o ∧ o.xoU = .array es ∧
      xpcRetain (h.set a (o.withArr (es ++ [v]))) v = .ok h' := by
  obtain ⟨o, ha, he⟩ := bind_eq_ok.mp he
  obtain ⟨es, hes, he⟩ := bind_eq_ok.mp he
  exact ⟨o, es, Heap.get_of_deref ha, XpcObject.xoU_of_arr hes, he⟩

/-- All that a set can do: append, nothing, or free an element and lose those behind it. -/
theorem xpcArraySetValue_cases {h' : Heap (List ObjId)} {i : ℕ}
    (he : xpcArraySetValue h a i v = .ok h') :
    xpcArrayAppendValue h a v = .ok h' ∨ h' = h ∨ ∃ o es old h₁, h.get a = some o ∧
      o.xoU = .array es ∧ xpcRetain (h.set a (o.withArr (es.take (i + 1)))) v = .ok h₁ ∧
      h' = h₁.free old := by
  unfold xpcArraySetValue at he
  split_ifs at he
  · exact .inl he
  · obtain ⟨o, ha, he⟩ := bind_eq_ok.mp he
    obtain ⟨es, hes, he⟩ := bind_eq_ok.mp he
    split_ifs at he
    · exact .inr (.inl (Except.ok.inj he).symm)
    · cases hold : es[i]? with
      | none =>
        rw [hold] at he
        exact .inr (.inl (Except.ok.inj he).symm)
      | some old =>
        rw [hold] at he
        obtain ⟨_, -, he⟩ := bind_eq_ok.mp he
        obtain ⟨h₁, hretain, he⟩ := bind_eq_ok.mp he
        exact .inr (.inr ⟨o, es, old, h₁, Heap.get_of_deref ha, XpcObject.xoU_of_arr hes, hretain,
          (Except.ok.inj he).symm⟩)

theorem xpcArrayAppendValue_ok (ha : h.get a = some o) (ho : o.xoU = .array es)
    (hv : h.get v = some w) :
    ∃ h', xpcArrayAppendValue h a v = .ok h' ∧ h.KeepsBut a h' ∧ ∃ o', h'.get a = some o' ∧
      o'.xoU = .array (es ++ [v]) ∧ o'.xoSize = o.xoSize := by
  obtain ⟨h', hr, hkeep, o', ho', hu', hs'⟩ := xpcRetain_set ha hv (o.withArr (es ++ [v]))
  refine ⟨h', ?_, hkeep, o', ho', hu', hs'⟩
  simp [xpcArrayAppendValue, Heap.deref_of_get ha, XpcObject.arr_of_xoU ho, hr]

theorem arrayAppendAll_ok {objects : List ObjId} (ha : h.get a = some o) (ho : o.xoU = .array es)
    (hv : ∀ v ∈ objects, ∃ w, h.get v = some w) :
    ∃ h', objects.foldlM (fun h object => xpcArrayAppendValue h a object) h = .ok h' ∧
      h.KeepsBut a h' ∧ ∃ o', h'.get a = some o' ∧ o'.xoU = .array (es ++ objects) := by
  induction objects generalizing h o es with
  | nil => exact ⟨h, rfl, (Heap.Keeps.refl h).keepsBut a, o, ha, by rw [ho, List.append_nil]⟩
  | cons v objects ih =>
    obtain ⟨w, hw⟩ := hv v List.mem_cons_self
    obtain ⟨h₁, he₁, hk₁, o₁, ha₁, ho₁, -⟩ := xpcArrayAppendValue_ok ha ho hw
    have hv₁ : ∀ u ∈ objects, ∃ w, h₁.get u = some w := by
      intro u hu
      obtain ⟨w, hw⟩ := hv u (List.mem_cons_of_mem v hu)
      by_cases hua : u = a
      · exact ⟨o₁, by rw [hua, ha₁]⟩
      · obtain ⟨w', hw', -⟩ := hk₁.get_of_get hua hw
        exact ⟨w', hw'⟩
    obtain ⟨h₂, he₂, hk₂, o₂, ha₂, ho₂⟩ := ih ha₁ ho₁ hv₁
    refine ⟨h₂, by rw [List.foldlM_cons, he₁]; exact he₂, hk₁.trans hk₂, o₂, ha₂, ?_⟩
    rw [ho₂, List.append_assoc]
    rfl

theorem xpcArrayCreate_ok {objects : List ObjId} (hv : ∀ v ∈ objects, ∃ w, h.get v = some w) :
    ∃ h', xpcArrayCreate h objects = .ok (h', h.size) ∧ h.Keeps h' ∧
      ∃ o, h'.get h.size = some o ∧ o.xoU = .array objects := by
  let o : XpcObject (List ObjId) := ⟨0, 1, 0, .array [], trivial⟩
  have hnew : (h.alloc o).1.get h.size = some o := by simp [Heap.get_alloc]
  have hlive : ∀ v ∈ objects, ∃ w, (h.alloc o).1.get v = some w := by
    intro v hmem
    obtain ⟨w, hw⟩ := hv v hmem
    exact ⟨w, Heap.get_alloc_of_get hw o⟩
  obtain ⟨h', he, hk, o', ho', hu'⟩ := arrayAppendAll_ok hnew rfl hlive
  refine ⟨h', ?_, (((h.keeps_alloc o).keepsBut _).trans hk).keeps (Nat.le_refl _), o', ho', hu'⟩
  change (objects.foldlM (fun h' object => xpcArrayAppendValue h' h.size object) (h.alloc o).1 >>= _) = _
  rw [he]
  rfl

theorem xpcArrayApplyFun_of_get (ha : h.get a = some o) (ho : o.xoU = .array es)
    (applier : ℕ → ObjId → σ → Except Fault (σ × Bool)) (udata : σ) :
    xpcArrayApplyFun h a applier udata = applyElems applier 0 es udata := by
  simp [xpcArrayApplyFun, Heap.deref_of_get ha, XpcObject.arr_of_xoU ho]

end Specifications

end Arrays
end OpenXPC
