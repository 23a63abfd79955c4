import OpenXPC.DictionaryCounts
import OpenXPC.Leaks

/-! # The flag of received objects

`xpc_dictionary_create_reply` answers only a dictionary whose flags say that it came
from the wire. The constructors that the decoder uses are those of the client, and
they create every object with no flag set. -/
namespace OpenXPC.WireFlags
open GuardedRuns Wire

/-- `_XPC_FROM_WIRE` -/
def xpcFromWire : UInt16 := 0x1

/-- NULL is `none`. -/
def xpcDictionaryCreateReply (h : Heap (List ObjId)) (original : ObjId) :
    Except Fault (Heap (List ObjId) × Option ObjId) := do
  let xoOrig ← h.deref original
  if xoOrig.xoFlags &&& xpcFromWire = 0 then
    .ok (h, none)
  else
    let (h, xo) ← xpcDictionaryCreate h []
    .ok (h, some xo)

/-! ## The machine -/

/-- The calls of a client, and the deserialisation of a message with the given body. -/
inductive Op
  | call (op : Leaks.Op)
  | createReply (original : ObjId)
  | deserialise (body : List (Val CString))

/-- The heap, and the objects that came from the wire. -/
structure State where
  heap : Heap (List ObjId)
  received : List ObjId

def execHeap (h : Heap (List ObjId)) : Op → Except Fault (Heap (List ObjId))
  | .call op => Leaks.execHeap h op
  | .createReply original => (xpcDictionaryCreateReply h original).map Prod.fst
  | .deserialise body => (deserialiseMessage h body).map Prod.fst

/-- All objects that the decoder creates come from the wire, the nested ones too. -/
def receivedAfter (s : State) (h' : Heap (List ObjId)) : Op → List ObjId
  | .deserialise _ => s.received ++ List.range' s.heap.size (h'.size - s.heap.size)
  | _ => s.received

def exec (s : State) (op : Op) : Except Fault State := do
  let heap ← execHeap s.heap op
  .ok { heap, received := receivedAfter s heap op }

def machine : Machine State Op Fault := ⟨fun _ _ => True, exec⟩

/-- Without an object. -/
def Initial (s : State) : Prop := (∀ x, s.heap.get x = none) ∧ s.received = []

/-! ## The promise -/

def FromWire (o : XpcObject (List ObjId)) : Prop := o.xoFlags &&& xpcFromWire ≠ 0

/-- A received dictionary has a reply, which is new and empty; a local one has none. -/
def Replies (s : State) (d : ObjId) : Prop :=
  if d ∈ s.received then
    ∃ h' y, xpcDictionaryCreateReply s.heap d = .ok (h', some y) ∧ s.heap.Keeps h' ∧
      TreeFrom h' s.heap.size y (.dictionary [])
  else
    xpcDictionaryCreateReply s.heap d = .ok (s.heap, none)

/-- The objects that came from the wire, and no others, have the flag set. -/
structure FlaggedExactly (s : State) : Prop where
  flag : ∀ x o, s.heap.get x = some o → (FromWire o ↔ x ∈ s.received)
  reply : ∀ d, IsDictionary s.heap d → Replies s d

/-- The message deserialised has no first argument that the decoder makes an object of. -/
def NothingReceived (_ : State) : Op → Prop
  | .deserialise body => ∀ v, body.head? = some v → ¬ (Supported v ∧ Safe v)
  | _ => True

variable {h h' : Heap (List ObjId)} {s : State} {x d : ObjId} {o : XpcObject (List ObjId)}

theorem xpcDictionaryCreateReply_fromWire (hd : h.get d = some o) (ho : FromWire o) :
    ∃ h' y, xpcDictionaryCreateReply h d = .ok (h', some y) ∧ h.Keeps h' ∧
      TreeFrom h' h.size y (.dictionary []) := by
  obtain ⟨h', hcreate, hfill⟩ := fillsDictionary_create h
  refine ⟨h', h.size, ?_, hfill.keeps, hfill.treeFrom⟩
  rw [xpcDictionaryCreateReply, Heap.deref_of_get hd, ok_bind, if_neg ho, hcreate, ok_bind]

theorem xpcDictionaryCreateReply_local (hd : h.get d = some o) (ho : ¬ FromWire o) :
    xpcDictionaryCreateReply h d = .ok (h, none) := by
  rw [xpcDictionaryCreateReply, Heap.deref_of_get hd, ok_bind, if_pos (not_not.mp ho)]

/-- The replies follow from the flags. -/
theorem flaggedExactly_of_flag (hflag : ∀ x o, s.heap.get x = some o → (FromWire o ↔ x ∈ s.received)) :
    FlaggedExactly s := by
  refine ⟨hflag, fun d hd => ?_⟩
  obtain ⟨o, ps, ho, -⟩ := hd
  rw [Replies]
  split_ifs with hmem
  · exact xpcDictionaryCreateReply_fromWire ho ((hflag d o ho).mpr hmem)
  · exact xpcDictionaryCreateReply_local ho (fun hwire => hmem ((hflag d o ho).mp hwire))

/-! ## No operation sets the flag -/

def Unflagged (h : Heap (List ObjId)) : Prop := h.Forall (fun o => ¬ FromWire o)

/-- What the constructors pass on to `_xpc_prim_create_flags`. -/
theorem not_fromWire_zero {size : ℕ} {count : UInt32} {u : Payload (List ObjId)}
    {hsize : u.SizeOk size} : ¬ FromWire ⟨0, count, size, u, hsize⟩ := by
  simp [FromWire]

theorem unflagged_alloc {u : Payload (List ObjId)} {size : ℕ} (hsize : u.SizeOk size)
    (hh : Unflagged h) : Unflagged (xpcPrimCreate h u size hsize).1 :=
  Heap.Forall.alloc hh not_fromWire_zero

/-- A write that leaves the flags of an object alone. -/
theorem unflagged_set {o' : XpcObject (List ObjId)} (hh : Unflagged h) (hx : h.get x = some o)
    (hflags : o'.xoFlags = o.xoFlags) : Unflagged (h.set x o') := by
  apply Heap.Forall.set hh hx
  rw [FromWire, hflags]
  exact hh x o hx

theorem unflagged_retain (hh : Unflagged h) (he : xpcRetain h x = .ok h') : Unflagged h' :=
  Heap.Forall.retain hh (fun _ ho => ho) he

theorem unflagged_dictionarySet {v : ObjId} {k : CString} (hh : Unflagged h)
    (he : xpcDictionarySetValue h d k v = .ok h') : Unflagged h' := by
  obtain ⟨o, ps, hd, -, hcase⟩ := xpcDictionarySetValue_cases he
  rcases hcase with ⟨qs, -, rfl⟩ | ⟨-, he⟩
  · exact unflagged_set hh hd rfl
  · refine unflagged_retain (unflagged_set hh hd ?_) he
    rfl

theorem unflagged_arrayAppend {a v : ObjId} (hh : Unflagged h)
    (he : Arrays.xpcArrayAppendValue h a v = .ok h') : Unflagged h' := by
  obtain ⟨o, es, ha, -, he⟩ := Arrays.xpcArrayAppendValue_cases he
  refine unflagged_retain (unflagged_set hh ha ?_) he
  rfl

theorem unflagged_arraySet {a i v : ℕ} (hh : Unflagged h)
    (he : Arrays.xpcArraySetValue h a i v = .ok h') : Unflagged h' := by
  rcases Arrays.xpcArraySetValue_cases he with he | rfl | ⟨o, es, old, h₁, ha, -, hretain, rfl⟩
  · exact unflagged_arrayAppend hh he
  · exact hh
  · refine Heap.Forall.free (unflagged_retain (unflagged_set hh ha ?_) hretain)
    rfl

theorem unflagged_dictionaryCreate {entries : Pairs} (hh : Unflagged h)
    (he : xpcDictionaryCreate h entries = .ok (h', d)) : Unflagged h' := by
  obtain ⟨h₁, hfill, he⟩ := bind_eq_ok.mp he
  cases he
  have hempty : Unflagged (xpcPrimCreate h (.dictionary []) entries.length trivial).1 :=
    unflagged_alloc _ hh
  exact foldlM_preserves (fun _ _ _ hs hset => unflagged_dictionarySet hs hset) hempty hfill

theorem unflagged_arrayCreate {objects : List ObjId} {a : ObjId} (hh : Unflagged h)
    (he : Arrays.xpcArrayCreate h objects = .ok (h', a)) : Unflagged h' := by
  obtain ⟨h₁, hfill, he⟩ := bind_eq_ok.mp he
  cases he
  have hempty : Unflagged (xpcPrimCreate h (.array []) 0 trivial).1 := unflagged_alloc _ hh
  exact foldlM_preserves (fun _ _ _ hs happend => unflagged_arrayAppend hs happend) hempty hfill

theorem closed_unflagged : DictionaryCounts.Closed Unflagged where
  leafCreate := fun _ v hh => unflagged_alloc v.sizeOk hh
  dictionaryCreate := fun _ _ _ hh he => unflagged_dictionaryCreate hh he
  dictionarySet := fun _ _ _ _ _ hh he => unflagged_dictionarySet hh he
  arrayCreate := fun _ _ _ hh he => unflagged_arrayCreate hh he
  arraySet := fun _ _ _ _ _ hh he => unflagged_arraySet hh he

/-- Unlinking a slot leaves the flags of the container alone. -/
theorem unflagged_destroyEach {β : Type}
    {unlink : XpcObject (List ObjId) → List β → XpcObject (List ObjId)} {target : β → ObjId}
    {destroy : Heap (List ObjId) → ObjId → Except Fault (Heap (List ObjId))}
    (hunlink : ∀ o cs, (unlink o cs).xoFlags = o.xoFlags)
    (hdestroy : ∀ h h' y, Unflagged h → destroy h y = .ok h' → Unflagged h') {cs : List β}
    (hh : Unflagged h) (he : destroyEach unlink target destroy x cs h = .ok h') : Unflagged h' := by
  induction cs generalizing h with
  | nil =>
    cases he
    exact hh
  | cons c cs ih =>
    obtain ⟨o, hx, he⟩ := bind_eq_ok.mp he
    obtain ⟨h₁, hd, he⟩ := bind_eq_ok.mp he
    have hset := unflagged_set hh (Heap.get_of_deref hx) (hunlink o cs)
    exact ih (hdestroy _ h₁ _ hset hd) he

theorem unflagged_destroy {n : ℕ} (hh : Unflagged h) (he : xpcObjectDestroy n h x = .ok h') :
    Unflagged h' := by
  induction n generalizing h h' x with
  | zero => cases he
  | succ n ih =>
    obtain ⟨o, hx, he⟩ := bind_eq_ok.mp he
    obtain ⟨h₁, hslots, he⟩ := bind_eq_ok.mp he
    obtain ⟨o₁, -, he⟩ := bind_eq_ok.mp he
    cases he
    apply Heap.Forall.free
    cases hu : o.xoU with
    | leaf v =>
      rw [hu] at hslots
      cases hslots
      exact hh
    | array es =>
      rw [hu] at hslots
      refine unflagged_destroyEach ?_ (fun _ _ _ hh he => ih hh he) hh hslots
      exact fun _ _ => rfl
    | dictionary ps =>
      rw [hu] at hslots
      refine unflagged_destroyEach ?_ (fun _ _ _ hh he => ih hh he) hh hslots
      exact fun _ _ => rfl

theorem unflagged_release (hh : Unflagged h) (he : xpcRelease h x = .ok h') : Unflagged h' := by
  obtain ⟨o, hx, he⟩ := bind_eq_ok.mp he
  have hset : Unflagged (h.set x o.released) := unflagged_set hh (Heap.get_of_deref hx) rfl
  split_ifs at he
  · cases he
    exact hset
  · exact unflagged_destroy hset he

theorem unflagged_call {op : Leaks.Op} (hh : Unflagged h) (he : Leaks.execHeap h op = .ok h') :
    Unflagged h' := by
  have hleaf : ∀ v, Unflagged (leafCreate h v).1 := fun v => unflagged_alloc v.sizeOk hh
  cases op with
  | call op =>
    cases op with
    | createLeaf v =>
      cases he
      exact hleaf v
    | createArray objects =>
      obtain ⟨r, hcreate, rfl⟩ := map_eq_ok.mp he
      exact unflagged_arrayCreate hh hcreate
    | createDictionary entries =>
      obtain ⟨r, hcreate, rfl⟩ := map_eq_ok.mp he
      exact unflagged_dictionaryCreate hh hcreate
    | retain x => exact unflagged_retain hh he
    | release x => exact unflagged_release hh he
    | dictionarySetValue d k v => exact unflagged_dictionarySet hh he
    | arrayAppendValue a v => exact unflagged_arrayAppend hh he
    | arraySetValue a i v => exact unflagged_arraySet hh he
  | dictionarySetLeaf d k v => exact unflagged_dictionarySet (hleaf v) he
  | arraySetLeaf a i v => exact unflagged_arraySet (hleaf v) he
  | copy n x =>
    obtain ⟨r, hcopy, rfl⟩ := map_eq_ok.mp he
    exact closed_unflagged.xpcCopy hh hcopy

theorem unflagged_createReply {r : Option ObjId} (hh : Unflagged h)
    (he : xpcDictionaryCreateReply h d = .ok (h', r)) : h' = h ∧ r = none := by
  obtain ⟨o, hd, -⟩ := bind_eq_ok.mp he
  have hd := Heap.get_of_deref hd
  rw [xpcDictionaryCreateReply_local hd (hh d o hd)] at he
  cases he
  exact ⟨rfl, rfl⟩

theorem unflagged_step {s' : State} {op : Op} (hs : Unflagged s.heap) (he : exec s op = .ok s') :
    Unflagged s'.heap := by
  obtain ⟨h', hexec, hs'⟩ := bind_eq_ok.mp he
  cases hs'
  cases op with
  | call op => exact unflagged_call hs hexec
  | createReply original =>
    obtain ⟨r, hreply, rfl⟩ := map_eq_ok.mp hexec
    rw [(unflagged_createReply hs hreply).1]
    exact hs
  | deserialise body =>
    obtain ⟨r, hmessage, rfl⟩ := map_eq_ok.mp hexec
    exact closed_unflagged.deserialiseMessage hs hmessage

theorem unflagged_initial (hi : Initial s) : Unflagged s.heap := by
  intro x o hx
  rw [hi.1 x] at hx
  cases hx

/-- Whatever is received, copied or built, no dictionary ever has a reply. -/
theorem createReply_null {tr : List (Op × Except Fault State)} (hi : Initial s)
    (hr : Run machine s tr) : ∀ p ∈ tr, ∀ s', p.2 = .ok s' → ∀ d, IsDictionary s'.heap d →
      xpcDictionaryCreateReply s'.heap d = .ok (s'.heap, none) := by
  intro p hp s' hs' d hd
  obtain ⟨o, ps, ho, -⟩ := hd
  have hs : Unflagged s'.heap := hr.reached (I := fun s => Unflagged s.heap)
    (fun _ _ _ hs _ he => unflagged_step hs he) (unflagged_initial hi) p hp s' hs'
  exact xpcDictionaryCreateReply_local ho (hs d o ho)

/-! ## Where the flags are right -/

/-- The reachable states without received objects. -/
structure AllLocal (s : State) : Prop where
  unflagged : Unflagged s.heap
  received : s.received = []

theorem AllLocal.flaggedExactly (hs : AllLocal s) : FlaggedExactly s := by
  apply flaggedExactly_of_flag
  intro x o hx
  simp [hs.received, hs.unflagged x o hx]

/-- The decoder leaves the heap alone when it makes no object. -/
theorem deserialiseMessage_of_nothing {body : List (Val CString)} {r : Option ObjId}
    (hc : ∀ v, body.head? = some v → ¬ (Supported v ∧ Safe v))
    (he : deserialiseMessage h body = .ok (h', r)) : h' = h := by
  cases body with
  | nil =>
    cases he
    rfl
  | cons v rest =>
    change deserialiseObject h v = _ at he
    have hv := hc v rfl
    rcases deserialiseObject_cases v with hcase | hcase | hcase | hcase | hcase
    · obtain ⟨w, -, -, hsup, hsafe⟩ := hcase
      exact absurd ⟨hsup, hsafe⟩ hv
    · obtain ⟨key, value, sub, rfl⟩ := hcase
      have hunsafe : ¬ Safe (.container (.array (.dictEntry key value)) sub : Val CString) :=
        fun hsafe => hv ⟨trivial, hsafe⟩
      obtain ⟨e, hfail⟩ := deserialiseObject_fails hunsafe h
      rw [hfail] at he
      cases he
    · obtain ⟨sub, rfl⟩ := hcase
      have hunsafe : ¬ Safe (.container (.array .variant) sub : Val CString) :=
        fun hsafe => hv ⟨trivial, hsafe⟩
      obtain ⟨e, hfail⟩ := deserialiseObject_fails hunsafe h
      rw [hfail] at he
      cases he
    · obtain ⟨sub, rfl⟩ := hcase
      cases he
    · obtain ⟨hnull, -⟩ := hcase
      rw [hnull h] at he
      cases he
      rfl

theorem allLocal_step {s' : State} {op : Op} (hs : AllLocal s) (hc : NothingReceived s op)
    (he : exec s op = .ok s') : AllLocal s' := by
  refine ⟨unflagged_step hs.unflagged he, ?_⟩
  obtain ⟨h', hexec, hs'⟩ := bind_eq_ok.mp he
  cases hs'
  cases op with
  | call op => exact hs.received
  | createReply original => exact hs.received
  | deserialise body =>
    obtain ⟨r, hmessage, rfl⟩ := map_eq_ok.mp hexec
    simp [receivedAfter, hs.received, deserialiseMessage_of_nothing hc hmessage]

/-- A supported and safe value becomes an object that is not flagged. -/
theorem exists_received {body : List (Val CString)} {v : Val CString} (hv : body.head? = some v)
    (hsup : Supported v) (hsafe : Safe v) (h : Heap (List ObjId)) :
    ∃ h' x o, deserialiseMessage h body = .ok (h', some x) ∧ h.size ≤ x ∧ h'.get x = some o := by
  obtain ⟨rest, rfl⟩ := List.head?_eq_some_iff.mp hv
  obtain ⟨h', r, he, -, hrel⟩ := deserialiseObject_ok hsafe h
  obtain ⟨t, ht⟩ := Option.isSome_iff_exists.mp ((translate_isSome_iff hsafe).mpr hsup)
  rw [ht] at hrel
  cases hrel with
  | @some x _ hx =>
    obtain ⟨o, ho⟩ := hx.live
    exact ⟨h', x, o, he, hx.le, ho⟩

theorem nothingReceived_of_fault {op : Op} {e : Fault} (he : exec s op = .error e) :
    NothingReceived s op := by
  cases op with
  | call op => trivial
  | createReply original => trivial
  | deserialise body =>
    intro v hv hboth
    obtain ⟨h', x, o, hok, -⟩ := exists_received hv hboth.1 hboth.2 s.heap
    simp [exec, execHeap, hok, Except.map] at he

theorem nothingReceived_of_flaggedExactly {s' : State} {op : Op} (hs : AllLocal s)
    (he : exec s op = .ok s') (hg : FlaggedExactly s') : NothingReceived s op := by
  cases op with
  | call op => trivial
  | createReply original => trivial
  | deserialise body =>
    intro v hv hboth
    obtain ⟨h', x, o, hok, hle, ho⟩ := exists_received hv hboth.1 hboth.2 s.heap
    have hunflagged := unflagged_step hs.unflagged he
    obtain rfl : { heap := h', received := receivedAfter s h' (.deserialise body) } = s' := by
      simpa [exec, execHeap, hok, Except.map] using he
    apply hunflagged x o ho
    apply (hg.flag x o ho).mpr
    have hlt : x < h'.size := Heap.lt_size_of_get ho
    apply List.mem_append_right
    rw [List.mem_range'_1, Nat.add_sub_of_le (Nat.le_trans hle (Nat.le_of_lt hlt))]
    exact ⟨hle, hlt⟩

/-- In a run of constructors, setters, counts, copies, replies and messages, the flag is
set on exactly the objects from the wire in all states reached, and so a dictionary has
a reply if it is one of them, if and only if no message brings an object. -/
theorem flaggedExactly_iff {tr : List (Op × Except Fault State)} (hi : Initial s)
    (hr : Run machine s tr) :
    (∀ p ∈ tr, ∀ s', p.2 = .ok s' → FlaggedExactly s') ↔ Meets NothingReceived s tr := by
  apply hr.reached_iff_meets (I := AllLocal)
  · exact fun _ _ _ hs _ hc he => allLocal_step hs hc he
  · exact fun _ hs => hs.flaggedExactly
  · exact fun _ _ _ _ _ he => nothingReceived_of_fault he
  · exact fun _ _ _ hs _ he hg => nothingReceived_of_flaggedExactly hs he hg
  · exact ⟨unflagged_initial hi, hi.2⟩

def empty : State := ⟨⟨[]⟩, []⟩

/-- A local dictionary, its copy, and no reply to the copy. -/
theorem copied_flaggedExactly : ∃ s₁ s₂ s₃,
    Run machine empty [(.call (.call (.createDictionary [])), .ok s₁), (.call (.copy 1 0), .ok s₂),
      (.createReply 1, .ok s₃)] ∧
    ∀ p ∈ [((.call (.call (.createDictionary [])), .ok s₁) : Op × Except Fault State),
      (.call (.copy 1 0), .ok s₂), (.createReply 1, .ok s₃)], ∀ s', p.2 = .ok s' → FlaggedExactly s' := by
  have hr : ∃ s₁ s₂ s₃, Run machine empty [(.call (.call (.createDictionary [])), .ok s₁),
      (.call (.copy 1 0), .ok s₂), (.createReply 1, .ok s₃)] :=
    ⟨_, _, _, .step trivial rfl (.step trivial rfl (.step trivial rfl (.nil _)))⟩
  obtain ⟨s₁, s₂, s₃, hr⟩ := hr
  exact ⟨s₁, s₂, s₃, hr, (flaggedExactly_iff ⟨fun _ => by simp [empty, Heap.get], rfl⟩ hr).mpr
    ⟨trivial, trivial, trivial, trivial⟩⟩

/-- An empty dictionary from the wire: it has no reply. -/
theorem received_not_flagged : ∃ s₁,
    Run machine empty [(.deserialise [.container (.array (.dictEntry .string .variant)) []], .ok s₁)] ∧
      0 ∈ s₁.received ∧ IsDictionary s₁.heap 0 ∧
      xpcDictionaryCreateReply s₁.heap 0 = .ok (s₁.heap, none) ∧ ¬ FlaggedExactly s₁ := by
  refine ⟨_, .step trivial rfl (.nil _), by decide, ⟨_, _, rfl, rfl⟩, rfl, fun hg => ?_⟩
  exact not_fromWire_zero ((hg.flag 0 _ rfl).mpr (by decide))

end OpenXPC.WireFlags
