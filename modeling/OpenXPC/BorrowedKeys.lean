import OpenXPC.DictionaryRuns
import OpenXPC.WireValues

/-! # Borrowed keys

A pair holds the pointer that its key was passed as. The operations are written over
the type of what a pair holds, with a function that reads the string from it: a
pointer is read through the memory of the caller, and a captured string is itself. A
run is played with pointers and with the strings they pointed to when they were
passed. -/
namespace OpenXPC.BorrowedKeys
open GuardedRuns InsertionMap Wire

/-- A live object, as far as dictionaries are concerned. -/
inductive Node (K : Type)
  | leaf (v : Leaf)
  | array (elems : List ObjId)
  | dictionary (pairs : List (K × ObjId))

/-- The cell of an object holds `none` once it is freed. -/
abbrev Nodes (K : Type) := List (Option (Node K))

section Operations

variable {K : Type} (read : K → CString)

def deref (ns : Nodes K) (x : ObjId) : Except Fault (Node K) :=
  match (ns[x]?).join with
  | some n => .ok n
  | none => .error .dangling

def dict (ns : Nodes K) (x : ObjId) : Except Fault (List (K × ObjId)) := do
  match ← deref ns x with
  | .dictionary pairs => .ok pairs
  | _ => .error .wrongType

/-- The loop that compares the key with that of each pair; a pair that is found
keeps its own key. -/
def setLoop (key : K) (value : ObjId) : List (K × ObjId) → Option (List (K × ObjId))
  | [] => none
  | p :: ps =>
    if read p.1 = read key then some ((p.1, value) :: ps) else (setLoop key value ps).map (p :: ·)

def dictionarySetValue (ns : Nodes K) (xdict : ObjId) (key : K) (value : ObjId) :
    Except Fault (Nodes K) := do
  let pairs ← dict ns xdict
  let _ ← deref ns value
  let pairs := (setLoop read key value pairs).getD (pairs ++ [(key, value)])
  .ok (ns.set xdict (some (.dictionary pairs)))

def dictionaryCreate (ns : Nodes K) (entries : List (K × ObjId)) :
    Except Fault (Nodes K × ObjId) := do
  let xo := ns.length
  let ns ← entries.foldlM (fun ns p => dictionarySetValue read ns xo p.1 p.2)
    (ns ++ [some (.dictionary [])])
  .ok (ns, xo)

def dictionarySetLeaf (ns : Nodes K) (xdict : ObjId) (key : K) (v : Leaf) : Except Fault (Nodes K) :=
  dictionarySetValue read (ns ++ [some (.leaf v)]) xdict key ns.length

def dictionaryGetValue (ns : Nodes K) (xdict : ObjId) (key : CString) :
    Except Fault (Option ObjId) := do
  let pairs ← dict ns xdict
  .ok ((pairs.find? (fun p => read p.1 = key)).map Prod.snd)

def dictionaryApplyFun {σ : Type} (ns : Nodes K) (xdict : ObjId)
    (applier : CString → ObjId → σ → Except Fault (σ × Bool)) (udata : σ) :
    Except Fault (σ × Bool) := do
  let pairs ← dict ns xdict
  applyPairs applier (pairs.map (fun p => (read p.1, p.2))) udata

def arrayAppendValue (ns : Nodes K) (xarray value : ObjId) : Except Fault (Nodes K) := do
  match ← deref ns xarray with
  | .array elems => do
    let _ ← deref ns value
    .ok (ns.set xarray (some (.array (elems ++ [value]))))
  | _ => .error .wrongType

def created (ns : Nodes K) (v : Leaf) : Nodes K × Option ObjId :=
  (ns ++ [some (.leaf v)], some ns.length)

mutual

/-- A string is copied, a key is not. -/
def deserialiseObject (ns : Nodes K) : Val K → Except Fault (Nodes K × Option ObjId)
  | .basic (.boolean val) => .ok (created ns (.bool val))
  | .basic (.int64 val) => .ok (created ns (.int64 val))
  | .basic (.uint64 val) => .ok (created ns (.uint64 val))
  | .basic (.string val) => .ok (created ns (.string (read val)))
  | .container (.array (.dictEntry _ _)) sub => do
    let ns' ← deserialiseDict ns.length (ns ++ [some (.dictionary [])]) sub
    .ok (ns', some ns.length)
  | .container (.array .variant) sub => do
    let ns' ← deserialiseArr ns.length (ns ++ [some (.array [])]) sub
    .ok (ns', some ns.length)
  | .container (.array (.basic .byte)) _ => .error .wildRead
  | .basic (.unixFd val) => .ok (created ns (.fd val))
  | _ => .ok (ns, none)

def deserialiseIter (ns : Nodes K) : List (Val K) → Except Fault (Nodes K × Option ObjId)
  | [] => .ok (ns, none)
  | v :: _ => deserialiseObject ns v

def deserialiseArr (arr : ObjId) (ns : Nodes K) : List (Val K) → Except Fault (Nodes K)
  | [] => .ok ns
  | .container (.variant _) sub :: iter => do
    let (ns, value) ← deserialiseIter ns sub
    match value with
    | none => .error .nullValue
    | some value => do
      let ns ← arrayAppendValue ns arr value
      deserialiseArr arr ns iter
  | _ :: _ => .error .assertFailed

def deserialiseDict (dict : ObjId) (ns : Nodes K) : List (Val K) → Except Fault (Nodes K)
  | [] => .ok ns
  | .container _ (.basic (.string key) :: .container (.variant _) sub2 :: _) :: iter => do
    let (ns, value) ← deserialiseIter ns sub2
    match value with
    | none => .error .nullValue
    | some value => do
      let ns ← dictionarySetValue read ns dict key value
      deserialiseDict dict ns iter
  | _ :: _ => .error .assertFailed

end

/-- What a client can do with dictionaries, its keys being of type `K`. -/
inductive Op (K : Type)
  | createLeaf (v : Leaf)
  | create (entries : List (K × ObjId))
  | setValue (xdict : ObjId) (key : K) (value : ObjId)
  | setLeaf (xdict : ObjId) (key : K) (v : Leaf)
  | deserialise (message : Val K)
  | free (obj : ObjId)

def step (ns : Nodes K) : Op K → Except Fault (Nodes K)
  | .createLeaf v => .ok (ns ++ [some (.leaf v)])
  | .create entries => (dictionaryCreate read ns entries).map Prod.fst
  | .setValue d k v => dictionarySetValue read ns d k v
  | .setLeaf d k v => dictionarySetLeaf read ns d k v
  | .deserialise v => (deserialiseObject read ns v).map Prod.fst
  | .free x => .ok (ns.set x none)

end Operations

/-! ## Capturing -/

section Capturing

variable {K : Type} (read : K → CString)

def capturePairs (pairs : List (K × ObjId)) : Pairs := pairs.map (fun p => (read p.1, p.2))

def Node.capture : Node K → Node CString
  | .leaf v => .leaf v
  | .array elems => .array elems
  | .dictionary pairs => .dictionary (capturePairs read pairs)

def capture (ns : Nodes K) : Nodes CString := ns.map (Option.map (Node.capture read))

def captureBasic : BasicVal K → BasicVal CString
  | .byte b => .byte b
  | .boolean b => .boolean b
  | .int16 i => .int16 i
  | .uint16 u => .uint16 u
  | .int32 i => .int32 i
  | .uint32 u => .uint32 u
  | .int64 i => .int64 i
  | .uint64 u => .uint64 u
  | .double bits => .double bits
  | .string s => .string (read s)
  | .objectPath s => .objectPath (read s)
  | .signature s => .signature (read s)
  | .unixFd file => .unixFd file

mutual

def captureVal : Val K → Val CString
  | .basic b => .basic (captureBasic read b)
  | .container c content => .container c (captureVals content)

def captureVals : List (Val K) → List (Val CString)
  | [] => []
  | v :: vs => captureVal v :: captureVals vs

end

def Op.capture : Op K → Op CString
  | .createLeaf v => .createLeaf v
  | .create entries => .create (capturePairs read entries)
  | .setValue d k v => .setValue d (read k) v
  | .setLeaf d k v => .setLeaf d (read k) v
  | .deserialise v => .deserialise (captureVal read v)
  | .free x => .free x

/-! ### Every operation commutes with capturing -/

variable (ns : Nodes K)

@[simp] theorem length_capture : (capture read ns).length = ns.length := by simp [capture]

@[simp] theorem capture_append (ms : Nodes K) :
    capture read (ns ++ ms) = capture read ns ++ capture read ms := by simp [capture]

@[simp] theorem capture_set (x : ObjId) (n : Option (Node K)) :
    capture read (ns.set x n) = (capture read ns).set x (n.map (Node.capture read)) := by
  simp [capture]

theorem capture_single (n : Node K) : capture read [some n] = [some (n.capture read)] := rfl

theorem getElem?_capture (x : ObjId) :
    ((capture read ns)[x]?).join = ((ns[x]?).join).map (Node.capture read) := by
  simp only [capture, List.getElem?_map]
  cases ns[x]? <;> rfl

theorem deref_capture (x : ObjId) :
    deref (capture read ns) x = (deref ns x).map (Node.capture read) := by
  simp only [deref, getElem?_capture]
  cases (ns[x]?).join <;> rfl

theorem dict_capture (x : ObjId) :
    dict (capture read ns) x = (dict ns x).map (capturePairs read) := by
  simp only [dict, deref_capture]
  cases deref ns x with
  | error e => rfl
  | ok n => cases n <;> rfl

theorem setLoop_capture (key : K) (value : ObjId) (ps : List (K × ObjId)) :
    setLoop id (read key) value (capturePairs read ps) =
      (setLoop read key value ps).map (capturePairs read) := by
  induction ps with
  | nil => rfl
  | cons p ps ih =>
    by_cases hp : read p.1 = read key
    · simp [setLoop, capturePairs, hp]
    · simp only [capturePairs, List.map_cons, setLoop, id, hp, if_false] at ih ⊢
      rw [ih, Option.map_map, Option.map_map]
      rfl

theorem dictionarySetValue_capture (d : ObjId) (key : K) (value : ObjId) :
    dictionarySetValue id (capture read ns) d (read key) value =
      (dictionarySetValue read ns d key value).map (capture read) := by
  simp only [dictionarySetValue, dict_capture, deref_capture]
  cases dict ns d with
  | error e => rfl
  | ok ps =>
    cases deref ns value with
    | error e => rfl
    | ok n =>
      simp only [Except.map, ok_bind, setLoop_capture, capture_set, Option.map_some, Node.capture]
      cases setLoop read key value ps with
      | some qs => rfl
      | none => simp [capturePairs]

theorem setAll_capture (d : ObjId) (entries : List (K × ObjId)) :
    (capturePairs read entries).foldlM (fun ns p => dictionarySetValue id ns d p.1 p.2)
        (capture read ns) =
      (entries.foldlM (fun ns p => dictionarySetValue read ns d p.1 p.2) ns).map (capture read) := by
  induction entries generalizing ns with
  | nil => rfl
  | cons p entries ih =>
    simp only [capturePairs, List.map_cons, List.foldlM_cons, dictionarySetValue_capture] at ih ⊢
    cases dictionarySetValue read ns d p.1 p.2 with
    | error e => rfl
    | ok ns₁ => exact ih ns₁

theorem dictionaryCreate_capture (entries : List (K × ObjId)) :
    dictionaryCreate id (capture read ns) (capturePairs read entries) =
      (dictionaryCreate read ns entries).map (fun r => (capture read r.1, r.2)) := by
  have hset := setAll_capture read (ns ++ [some (.dictionary [])]) ns.length entries
  simp only [capture_append, capture_single, Node.capture] at hset
  simp only [dictionaryCreate, length_capture]
  rw [show capturePairs read ([] : List (K × ObjId)) = [] from rfl] at hset
  rw [hset]
  cases entries.foldlM (fun ns' p => dictionarySetValue read ns' ns.length p.1 p.2)
    (ns ++ [some (.dictionary [])]) <;> rfl

theorem dictionarySetLeaf_capture (d : ObjId) (key : K) (v : Leaf) :
    dictionarySetLeaf id (capture read ns) d (read key) v =
      (dictionarySetLeaf read ns d key v).map (capture read) := by
  simp only [dictionarySetLeaf, ← dictionarySetValue_capture, capture_append, capture_single,
    Node.capture, length_capture]

theorem arrayAppendValue_capture (a value : ObjId) :
    arrayAppendValue (capture read ns) a value =
      (arrayAppendValue ns a value).map (capture read) := by
  simp only [arrayAppendValue, deref_capture]
  cases deref ns a with
  | error e => rfl
  | ok n =>
    cases n with
    | array elems =>
      cases deref ns value with
      | error e => rfl
      | ok m => simp [Except.map, Node.capture]
    | _ => rfl

mutual

theorem deserialiseObject_capture (ns : Nodes K) : ∀ v : Val K,
    deserialiseObject id (capture read ns) (captureVal read v) =
      (deserialiseObject read ns v).map (fun r => (capture read r.1, r.2))
  | .basic b => by
    cases b <;>
      simp [captureVal, captureBasic, deserialiseObject, created, Except.map, capture_single,
        Node.capture]
  | .container c sub => by
    cases c with
    | array elem =>
      cases elem with
      | dictEntry key value =>
        have hdict := deserialiseDict_capture ns.length (ns ++ [some (.dictionary [])]) sub
        rw [capture_append, capture_single] at hdict
        simp only [captureVal, deserialiseObject, length_capture]
        rw [show Node.capture read (.dictionary []) = .dictionary [] from rfl] at hdict
        rw [hdict]
        cases deserialiseDict read ns.length (ns ++ [some (.dictionary [])]) sub <;> rfl
      | variant =>
        have harr := deserialiseArr_capture ns.length (ns ++ [some (.array [])]) sub
        rw [capture_append, capture_single] at harr
        simp only [captureVal, deserialiseObject, length_capture]
        rw [show Node.capture read (.array []) = .array [] from rfl] at harr
        rw [harr]
        cases deserialiseArr read ns.length (ns ++ [some (.array [])]) sub <;> rfl
      | basic b => cases b <;> rfl
      | _ => rfl
    | _ => rfl

theorem deserialiseIter_capture (ns : Nodes K) : ∀ vs : List (Val K),
    deserialiseIter id (capture read ns) (captureVals read vs) =
      (deserialiseIter read ns vs).map (fun r => (capture read r.1, r.2))
  | [] => rfl
  | v :: _ => by
    simp only [captureVals, deserialiseIter]
    exact deserialiseObject_capture ns v

theorem deserialiseArr_capture (arr : ObjId) (ns : Nodes K) : ∀ iter : List (Val K),
    deserialiseArr id arr (capture read ns) (captureVals read iter) =
      (deserialiseArr read arr ns iter).map (capture read)
  | [] => rfl
  | .basic _ :: _ => rfl
  | .container c sub :: iter => by
    cases c with
    | variant sig =>
      simp only [captureVals, captureVal, deserialiseArr, deserialiseIter_capture ns sub]
      cases deserialiseIter read ns sub with
      | error e => rfl
      | ok r =>
        obtain ⟨ns₁, value⟩ := r
        cases value with
        | none => rfl
        | some value =>
          simp only [Except.map, ok_bind, arrayAppendValue_capture]
          cases arrayAppendValue ns₁ arr value with
          | error e => rfl
          | ok ns₂ => exact deserialiseArr_capture arr ns₂ iter
    | _ => rfl

theorem deserialiseDict_capture (dict : ObjId) (ns : Nodes K) : ∀ iter : List (Val K),
    deserialiseDict id dict (capture read ns) (captureVals read iter) =
      (deserialiseDict read dict ns iter).map (capture read)
  | [] => rfl
  | .basic _ :: _ => rfl
  | .container _ [] :: _ => rfl
  | .container _ (.container _ _ :: _) :: _ => rfl
  | .container _ (.basic b :: []) :: _ => by cases b <;> rfl
  | .container _ (.basic b :: .basic _ :: _) :: _ => by cases b <;> rfl
  | .container _ (.basic b :: .container c sub2 :: rest) :: iter => by
    cases b with
    | string key =>
      cases c with
      | variant sig =>
        simp only [captureVals, captureVal, captureBasic, deserialiseDict,
          deserialiseIter_capture ns sub2]
        cases deserialiseIter read ns sub2 with
        | error e => rfl
        | ok r =>
          obtain ⟨ns₁, value⟩ := r
          cases value with
          | none => rfl
          | some value =>
            simp only [Except.map, ok_bind, dictionarySetValue_capture]
            cases dictionarySetValue read ns₁ dict key value with
            | error e => rfl
            | ok ns₂ => exact deserialiseDict_capture dict ns₂ iter
      | _ => rfl
    | _ => rfl

end

theorem step_capture (op : Op K) :
    step id (capture read ns) (op.capture read) = (step read ns op).map (capture read) := by
  cases op with
  | createLeaf v => simp [step, Op.capture, Except.map, capture_single, Node.capture]
  | create entries =>
    simp only [step, Op.capture, dictionaryCreate_capture]
    cases dictionaryCreate read ns entries <;> rfl
  | setValue d k v => exact dictionarySetValue_capture read ns d k v
  | setLeaf d k v => exact dictionarySetLeaf_capture read ns d k v
  | deserialise v =>
    simp only [step, Op.capture, deserialiseObject_capture]
    cases deserialiseObject read ns v <;> rfl
  | free x => simp [step, Op.capture, Except.map]

theorem dictionaryApplyFun_capture {σ : Type} (d : ObjId)
    (applier : CString → ObjId → σ → Except Fault (σ × Bool)) (udata : σ) :
    dictionaryApplyFun id (capture read ns) d applier udata =
      dictionaryApplyFun read ns d applier udata := by
  simp only [dictionaryApplyFun, dict_capture]
  cases dict ns d with
  | error e => rfl
  | ok ps => simp [Except.map, capturePairs]

theorem dictionaryGetValue_capture (d : ObjId) (k : CString) :
    dictionaryGetValue id (capture read ns) d k = dictionaryGetValue read ns d k := by
  simp only [dictionaryGetValue, dict_capture]
  cases dict ns d with
  | error e => rfl
  | ok ps => simp [Except.map, capturePairs, List.find?_map, Function.comp_def]

end Capturing

/-! ## Captured keys are distinct -/

section Captured

variable {ns ns' : Nodes CString}

/-- With captured keys the setter is that of the dictionaries of strings. -/
theorem setLoop_id (k : CString) (v : ObjId) (ps : Pairs) : setLoop id k v ps = replace? k v ps := by
  induction ps with
  | nil => rfl
  | cons p ps ih => simp [setLoop, replace?, ih]

theorem find?_id (k : CString) (ps : Pairs) :
    (ps.find? (fun p => id p.1 = k)).map Prod.snd = ps.lookup k := by
  induction ps with
  | nil => rfl
  | cons p ps ih =>
    obtain ⟨j, v⟩ := p
    by_cases hk : k = j
    · simp [hk]
    · have hkj : (k == j) = false := by simpa using hk
      simpa [List.find?_cons, List.lookup_cons, hkj, Ne.symm hk] using ih

theorem dict_of_getElem {K : Type} {ns : Nodes K} {d : ObjId} {ps : List (K × ObjId)}
    (hd : ns[d]? = some (some (.dictionary ps))) : dict ns d = .ok ps := by
  simp [dict, deref, hd]

theorem getElem_of_dict {K : Type} {ns : Nodes K} {d : ObjId} {ps : List (K × ObjId)}
    (hd : dict ns d = .ok ps) : ns[d]? = some (some (.dictionary ps)) := by
  obtain ⟨n, hn, he⟩ := bind_eq_ok.mp hd
  cases n with
  | dictionary qs =>
    cases he
    unfold deref at hn
    split at hn
    · rename_i m hm
      cases hn
      exact Option.join_eq_some_iff.mp hm
    · cases hn
  | _ => cases he

/-- A dictionary with captured keys is read and set as the dictionary of a heap that
has the same pairs. -/
theorem captured_dictionary {A : Type} {h : Heap A} {d v : ObjId} {o w : XpcObject A}
    {ps : Pairs} {k : CString} (hd : dict ns d = .ok ps) (ho : h.get d = some o)
    (hu : o.xoU = .dictionary ps) (hv : h.get v = some w)
    (he : dictionarySetValue id ns d k v = .ok ns') :
    dictionaryGetValue id ns d k = xpcDictionaryGetValue h d k ∧
      (∀ (σ : Type) (applier : CString → ObjId → σ → Except Fault (σ × Bool)) (udata : σ),
        dictionaryApplyFun id ns d applier udata = xpcDictionaryApplyFun h d applier udata) ∧
      ∃ h' o' ps', xpcDictionarySetValue h d k v = .ok h' ∧ h'.get d = some o' ∧
        o'.xoU = .dictionary ps' ∧ dict ns' d = .ok ps' := by
  refine ⟨?_, fun σ applier udata => ?_, ?_⟩
  · rw [xpcDictionaryGetValue_of_get ho hu, dictionaryGetValue, hd, ok_bind, find?_id]
  · simp [dictionaryApplyFun, hd, xpcDictionaryApplyFun_of_get ho hu]
  · obtain ⟨h', hset, -, o', ho', hu', -⟩ := xpcDictionarySetValue_ok ho hu hv k
    refine ⟨h', o', _, hset, ho', hu', ?_⟩
    rw [dictionarySetValue, hd, ok_bind] at he
    obtain ⟨n, -, he⟩ := bind_eq_ok.mp he
    cases he
    obtain ⟨hlt, -⟩ := List.getElem?_eq_some_iff.mp (getElem_of_dict hd)
    apply dict_of_getElem
    rw [List.getElem?_set_self hlt, setLoop_id]
    rfl

def DistinctKeys (ns : Nodes CString) : Prop :=
  ∀ pairs, some (.dictionary pairs) ∈ ns → (pairs.map Prod.fst).Nodup

theorem mem_of_dict {K : Type} {ns : Nodes K} {d : ObjId} {ps : List (K × ObjId)}
    (hd : dict ns d = .ok ps) : some (.dictionary ps) ∈ ns :=
  List.mem_of_getElem? (getElem_of_dict hd)

theorem DistinctKeys.snoc (hns : DistinctKeys ns) {n : Node CString}
    (hn : ∀ ps, n = .dictionary ps → ps = []) : DistinctKeys (ns ++ [some n]) := by
  intro ps hps
  rcases List.mem_append.mp hps with hps | hps
  · exact hns ps hps
  · rw [hn ps (Option.some.inj (List.mem_singleton.mp hps)).symm]
    exact List.nodup_nil

theorem DistinctKeys.set (hns : DistinctKeys ns) {x : ObjId} {n : Option (Node CString)}
    (hn : ∀ ps, n = some (.dictionary ps) → (ps.map Prod.fst).Nodup) : DistinctKeys (ns.set x n) := by
  intro ps hps
  rcases List.mem_or_eq_of_mem_set hps with hps | hps
  · exact hns ps hps
  · exact hn ps hps.symm

theorem DistinctKeys.dictionarySetValue {d v : ObjId} {k : CString} (hns : DistinctKeys ns)
    (he : dictionarySetValue id ns d k v = .ok ns') : DistinctKeys ns' := by
  obtain ⟨ps, hd, he⟩ := bind_eq_ok.mp he
  obtain ⟨n, -, he⟩ := bind_eq_ok.mp he
  cases he
  apply hns.set
  intro qs hqs
  cases hqs
  rw [setLoop_id]
  exact upsert_nodup (hns ps (mem_of_dict hd))

theorem DistinctKeys.arrayAppendValue {a v : ObjId} (hns : DistinctKeys ns)
    (he : arrayAppendValue ns a v = .ok ns') : DistinctKeys ns' := by
  obtain ⟨n, -, he⟩ := bind_eq_ok.mp he
  cases n with
  | array es =>
    obtain ⟨m, -, he⟩ := bind_eq_ok.mp he
    cases he
    exact hns.set (fun _ => nofun)
  | _ => cases he

theorem DistinctKeys.setAll {d : ObjId} {entries : Pairs} (hns : DistinctKeys ns)
    (he : entries.foldlM (fun ns p => BorrowedKeys.dictionarySetValue id ns d p.1 p.2) ns = .ok ns') :
    DistinctKeys ns' :=
  foldlM_preserves (fun _ _ _ hns he => DistinctKeys.dictionarySetValue hns he) hns he

mutual

theorem distinctKeys_deserialiseObject : ∀ (v : Val CString) (ns ns' : Nodes CString) r,
    DistinctKeys ns → deserialiseObject id ns v = .ok (ns', r) → DistinctKeys ns'
  | .basic b, _, _, _, hns, he => by
    cases b <;> cases he
    all_goals first | exact hns | exact hns.snoc (fun _ => nofun)
  | .container c sub, _, _, _, hns, he => by
    cases c with
    | array elem =>
      cases elem with
      | dictEntry key value =>
        obtain ⟨ns₁, hsub, he⟩ := bind_eq_ok.mp he
        cases he
        refine distinctKeys_deserialiseDict _ sub _ _ (hns.snoc (n := .dictionary []) ?_) hsub
        intro ps hps
        cases hps
        rfl
      | variant =>
        obtain ⟨ns₁, hsub, he⟩ := bind_eq_ok.mp he
        cases he
        exact distinctKeys_deserialiseArr _ sub _ _ (hns.snoc (n := .array []) (fun _ => nofun)) hsub
      | basic b =>
        cases b <;> cases he
        all_goals exact hns
      | _ =>
        cases he
        exact hns
    | _ =>
      cases he
      exact hns

theorem distinctKeys_deserialiseIter : ∀ (vs : List (Val CString)) (ns ns' : Nodes CString) r,
    DistinctKeys ns → deserialiseIter id ns vs = .ok (ns', r) → DistinctKeys ns'
  | [], _, _, _, hns, he => by
    cases he
    exact hns
  | v :: _, _, _, _, hns, he => distinctKeys_deserialiseObject v _ _ _ hns he

theorem distinctKeys_deserialiseArr (arr : ObjId) : ∀ (iter : List (Val CString))
    (ns ns' : Nodes CString), DistinctKeys ns → deserialiseArr id arr ns iter = .ok ns' →
    DistinctKeys ns'
  | [], _, _, hns, he => by
    cases he
    exact hns
  | .basic _ :: _, _, _, hns, he => by cases he
  | .container c sub :: iter, _, _, hns, he => by
    cases c with
    | variant sig =>
      obtain ⟨⟨ns₁, value⟩, hsub, he⟩ := bind_eq_ok.mp he
      have hns₁ := distinctKeys_deserialiseIter sub _ _ _ hns hsub
      cases value with
      | none => cases he
      | some value =>
        obtain ⟨ns₂, happend, he⟩ := bind_eq_ok.mp he
        exact distinctKeys_deserialiseArr arr iter _ _ (hns₁.arrayAppendValue happend) he
    | _ => cases he

theorem distinctKeys_deserialiseDict (dict : ObjId) : ∀ (iter : List (Val CString))
    (ns ns' : Nodes CString), DistinctKeys ns → deserialiseDict id dict ns iter = .ok ns' →
    DistinctKeys ns'
  | [], _, _, hns, he => by
    cases he
    exact hns
  | .basic _ :: _, _, _, hns, he => by cases he
  | .container _ [] :: _, _, _, hns, he => by cases he
  | .container _ (.container _ _ :: _) :: _, _, _, hns, he => by cases he
  | .container _ (.basic b :: []) :: _, _, _, hns, he => by cases b <;> cases he
  | .container _ (.basic b :: .basic _ :: _) :: _, _, _, hns, he => by cases b <;> cases he
  | .container _ (.basic b :: .container c sub2 :: rest) :: iter, _, _, hns, he => by
    cases b with
    | string key =>
      cases c with
      | variant sig =>
        obtain ⟨⟨ns₁, value⟩, hsub, he⟩ := bind_eq_ok.mp he
        have hns₁ := distinctKeys_deserialiseIter sub2 _ _ _ hns hsub
        cases value with
        | none => cases he
        | some value =>
          obtain ⟨ns₂, hset, he⟩ := bind_eq_ok.mp he
          exact distinctKeys_deserialiseDict dict iter _ _ (hns₁.dictionarySetValue hset) he
      | _ => cases he
    | _ => cases he

end

theorem DistinctKeys.step {op : Op CString} (hns : DistinctKeys ns)
    (he : step id ns op = .ok ns') : DistinctKeys ns' := by
  cases op with
  | createLeaf v =>
    cases he
    exact hns.snoc (fun _ => nofun)
  | create entries =>
    have hnew : DistinctKeys (ns ++ [some (.dictionary [])]) :=
      hns.snoc (fun ps hps => by cases hps; rfl)
    obtain ⟨r, hcreate, rfl⟩ := map_eq_ok.mp he
    obtain ⟨ns₁, hall, hr⟩ := bind_eq_ok.mp hcreate
    cases hr
    exact hnew.setAll hall
  | setValue d k v => exact hns.dictionarySetValue he
  | setLeaf d k v => exact (hns.snoc (n := .leaf v) (fun _ => nofun)).dictionarySetValue he
  | deserialise v =>
    obtain ⟨r, hv, rfl⟩ := map_eq_ok.mp he
    exact distinctKeys_deserialiseObject v _ _ _ hns hv
  | free x =>
    cases he
    exact hns.set (fun _ => nofun)

end Captured

/-! ## Runs -/

abbrev Addr := ℕ

/-- The client calls the library, or it or the owner of a message writes to a buffer. -/
inductive Action
  | call (op : Op Addr)
  | write (buffer : Addr) (string : CString)

/-- The strings in the buffers, the objects with pointers for keys, and the same
objects with the keys captured. -/
structure State where
  store : Addr → CString
  borrowed : Nodes Addr
  captured : Nodes CString

def exec (s : State) : Action → Except Fault State
  | .call op => do
    let borrowed ← step s.store s.borrowed op
    let captured ← step id s.captured (op.capture s.store)
    .ok { s with borrowed, captured }
  | .write buffer string => .ok { s with store := Function.update s.store buffer string }

def allowed (s : State) : Action → Prop
  | .call op => ∃ ns, step s.store s.borrowed op = .ok ns
  | .write _ _ => True

def machine : Machine State Action Fault := ⟨allowed, exec⟩

def Initial (s : State) : Prop := s.borrowed = [] ∧ s.captured = []

/-- Every reader sees what it would with captured keys. -/
structure SameAsCaptured (s : State) : Prop where
  getValue : ∀ d k, dictionaryGetValue s.store s.borrowed d k = dictionaryGetValue id s.captured d k
  apply : ∀ (σ : Type) (applier : CString → ObjId → σ → Except Fault (σ × Bool)) (udata : σ) d,
    dictionaryApplyFun s.store s.borrowed d applier udata =
      dictionaryApplyFun id s.captured d applier udata
  distinct : ∀ d ps, dict s.borrowed d = .ok ps → (ps.map (fun p => s.store p.1)).Nodup

/-- A buffer that a dictionary points to for a key keeps its string. -/
def KeepsKeys (s : State) : Action → Prop
  | .call _ => True
  | .write buffer string => ∀ d ps, dict s.borrowed d = .ok ps → buffer ∈ ps.map Prod.fst →
    string = s.store buffer

structure Captures (s : State) : Prop where
  captured : s.captured = capture s.store s.borrowed
  distinct : DistinctKeys s.captured

theorem Captures.sameAsCaptured {s : State} (hs : Captures s) : SameAsCaptured s where
  getValue := fun d k => by rw [hs.captured, dictionaryGetValue_capture]
  apply := fun σ applier udata d => by rw [hs.captured, dictionaryApplyFun_capture]
  distinct := fun d ps hd => by
    have hcaptured : dict s.captured d = .ok (capturePairs s.store ps) := by
      rw [hs.captured, dict_capture, hd]
      rfl
    have hnodup := hs.distinct _ (mem_of_dict hcaptured)
    simpa [capturePairs, Function.comp_def] using hnodup

/-- The captured keys do not see a write that keeps the strings pointed to. -/
theorem capture_congr {store store' : Addr → CString} {ns : Nodes Addr}
    (hsame : ∀ d ps, dict ns d = .ok ps → ∀ p ∈ ps, store' p.1 = store p.1) :
    capture store' ns = capture store ns := by
  refine List.map_congr_left (fun n hn => ?_)
  obtain ⟨d, hd⟩ := List.mem_iff_getElem?.mp hn
  cases n with
  | none => rfl
  | some n =>
    cases n with
    | dictionary ps =>
      have hps := hsame d ps (dict_of_getElem hd)
      have hpairs : capturePairs store' ps = capturePairs store ps :=
        List.map_congr_left (fun p hp => by rw [hps p hp])
      simp [Node.capture, hpairs]
    | _ => rfl

theorem captures_step {s : State} {a : Action} (hs : Captures s) (ha : allowed s a)
    (hc : KeepsKeys s a) : ∃ s', exec s a = .ok s' ∧ Captures s' := by
  cases a with
  | call op =>
    obtain ⟨ns, he⟩ := ha
    have he' : step id s.captured (op.capture s.store) = .ok (capture s.store ns) := by
      rw [hs.captured, step_capture, he]
      rfl
    refine ⟨{ s with borrowed := ns, captured := capture s.store ns }, ?_, rfl, ?_⟩
    · simp [exec, he, he']
    · exact hs.distinct.step he'
  | write buffer string =>
    refine ⟨_, rfl, ?_, hs.distinct⟩
    rw [hs.captured, capture_congr]
    intro d ps hd p hp
    by_cases hb : p.1 = buffer
    · rw [hb, Function.update_self]
      exact (hc d ps hd (hb ▸ List.mem_map_of_mem hp)).symm
    · rw [Function.update_of_ne hb]

/-- A write that changes a key changes what is applied. -/
theorem keepsKeys_of_sameAsCaptured {s s' : State} {a : Action} (hs : Captures s)
    (he : exec s a = .ok s') (hg : SameAsCaptured s') : KeepsKeys s a := by
  cases a with
  | call op => trivial
  | write buffer string =>
    cases he
    intro d ps hd hmem
    have happly := hg.apply _ (DictionaryRuns.recordWhile fun _ _ => true) [] d
    have hcaptured : dict s.captured d = .ok (capturePairs s.store ps) := by
      rw [hs.captured, dict_capture, hd]
      rfl
    simp only [dictionaryApplyFun, hd, hcaptured, ok_bind, DictionaryRuns.applyPairs_recordWhile,
      DictionaryRuns.untilStop_true, List.nil_append, Except.ok.injEq, Prod.mk.injEq] at happly
    obtain ⟨p, hp, rfl⟩ := List.mem_map.mp hmem
    have hpairs := happly.1
    simp only [capturePairs, List.map_map, List.map_inj_left] at hpairs
    have hkey := congrArg Prod.fst (hpairs p hp)
    simpa using hkey

/-- In a run of calls and writes the readers see captured keys in every state
reached, if and only if no write changes a string that a dictionary has for a key. -/
theorem sameAsCaptured_iff_keepsKeys {s : State} {tr : List (Action × Except Fault State)}
    (hi : Initial s) (hr : Run machine s tr) :
    (∀ p ∈ tr, Holds SameAsCaptured p.2) ↔ Meets KeepsKeys s tr := by
  apply hr.holds_iff_meets (I := Captures)
  · exact fun _ _ => captures_step
  · exact fun _ hs => hs.sameAsCaptured
  · exact fun _ _ _ hs _ => keepsKeys_of_sameAsCaptured hs
  · refine ⟨?_, fun ps hps => ?_⟩
    · rw [hi.1, hi.2]
      rfl
    · rw [hi.2] at hps
      cases hps

/-- Every buffer holds the string `k`. -/
def noObjects : State := ⟨fun _ => keyK, [], []⟩

/-- A buffer that is no key may be written. -/
theorem other_buffer_sameAsCaptured : ∃ s₁ s₂ s₃, Run machine noObjects
      [(.call (.createLeaf .null), .ok s₁), (.call (.create [(0, 0)]), .ok s₂),
        (.write 1 keyJ, .ok s₃)] ∧
    dictionaryGetValue s₃.store s₃.borrowed 1 keyK = .ok (some 0) ∧ SameAsCaptured s₃ := by
  have hr : ∃ s₁ s₂ s₃, Run machine noObjects
      [(.call (.createLeaf .null), .ok s₁), (.call (.create [(0, 0)]), .ok s₂),
        (.write 1 keyJ, .ok s₃)] ∧
      dictionaryGetValue s₃.store s₃.borrowed 1 keyK = .ok (some 0) ∧
      s₂.borrowed = [some (.leaf .null), some (.dictionary [(0, 0)])] :=
    ⟨_, _, _, .step ⟨_, rfl⟩ rfl (.step ⟨_, rfl⟩ rfl (.step trivial rfl (.nil _))), rfl, rfl⟩
  obtain ⟨s₁, s₂, s₃, hr, hget, hnodes⟩ := hr
  have hall := (sameAsCaptured_iff_keepsKeys ⟨rfl, rfl⟩ hr).mpr ⟨trivial, trivial, ?_, trivial⟩
  · exact ⟨s₁, s₂, s₃, hr, hget, holds_ok.mp (hall (.write 1 keyJ, .ok s₃) (by simp))⟩
  · intro d ps hd hmem
    have hps := mem_of_dict hd
    rw [hnodes] at hps
    simp only [List.mem_cons, Option.some.injEq, Node.dictionary.injEq, List.not_mem_nil, or_false,
      reduceCtorEq, false_or] at hps
    subst hps
    simp at hmem

/-- A message with one entry, whose key lies in buffer 0. -/
def message : Val Addr :=
  .container (.array (.dictEntry .string .variant)) [.container .dictEntry
    [.basic (.string 0), .container (.variant (.basic .boolean)) [.basic (.boolean true)]]]

/-- A received dictionary changes when the memory of its message is written again,
and a dictionary has a key twice when the client makes two of its buffers equal. -/
theorem keys_follow_buffers :
    (∃ s₁ s₂, Run machine noObjects [(.call (.deserialise message), .ok s₁),
        (.write 0 keyJ, .ok s₂)] ∧
      dictionaryGetValue s₁.store s₁.borrowed 0 keyK = .ok (some 1) ∧
      dictionaryGetValue s₂.store s₂.borrowed 0 keyK = .ok none ∧
      dictionaryGetValue id s₂.captured 0 keyK = .ok (some 1) ∧ ¬ SameAsCaptured s₂) ∧
    ∃ s₁ s₂ s₃ s₄, Run machine noObjects [(.write 1 keyJ, .ok s₁), (.call (.createLeaf .null), .ok s₂),
        (.call (.create [(0, 0), (1, 0)]), .ok s₃), (.write 1 keyK, .ok s₄)] ∧
      dict s₄.borrowed 1 = .ok [(0, 0), (1, 0)] ∧ s₄.store 0 = s₄.store 1 ∧ ¬ SameAsCaptured s₄ := by
  constructor
  · refine ⟨_, _, .step ⟨_, rfl⟩ rfl (.step trivial rfl (.nil _)), rfl, rfl, rfl, fun h => ?_⟩
    have hget := h.getValue 0 keyK
    cases hget
  · refine ⟨_, _, _, _, .step trivial rfl (.step ⟨_, rfl⟩ rfl (.step ⟨_, rfl⟩ rfl
      (.step trivial rfl (.nil _)))), rfl, rfl, fun h => ?_⟩
    have hnodup := h.distinct 1 [(0, 0), (1, 0)] rfl
    exact absurd hnodup (by decide)

end OpenXPC.BorrowedKeys
