import OpenXPC.Trees
import OpenXPC.WireValues

/-! # Deserialisation of message values

A reading iterator is the list of the values from its position on: its argument
type is that of the first one, and it is invalid at the end of the list. -/
namespace OpenXPC
open InsertionMap Wire

def created (h : Heap (List ObjId)) (v : Leaf) : Heap (List ObjId) × Option ObjId :=
  let (h, xo) := leafCreate h v
  (h, some xo)

mutual

/-- NULL is `none`. -/
def deserialiseObject (h : Heap (List ObjId)) :
    Val CString → Except Fault (Heap (List ObjId) × Option ObjId)
  | .basic (.boolean val) => .ok (created h (.bool val))
  | .basic (.int64 val) => .ok (created h (.int64 val))
  | .basic (.uint64 val) => .ok (created h (.uint64 val))
  | .basic (.string val) => .ok (created h (.string val))
  | .container (.array (.dictEntry _ _)) sub => do
    let (h, dict) ← xpcDictionaryCreate h []
    let h ← deserialiseDict dict h sub
    .ok (h, some dict)
  | .container (.array .variant) sub => do
    let (h, arr) ← Arrays.xpcArrayCreate h []
    let h ← deserialiseArr arr h sub
    .ok (h, some arr)
  -- the pointer passed to `get_fixed_array` and then read from is uninitialised
  | .container (.array (.basic .byte)) _ => .error .wildRead
  | .basic (.unixFd val) => .ok (created h (.fd val))
  | _ => .ok (h, none)

/-- The object at the position of an iterator. -/
def deserialiseIter (h : Heap (List ObjId)) :
    List (Val CString) → Except Fault (Heap (List ObjId) × Option ObjId)
  | [] => .ok (h, none)
  | v :: _ => deserialiseObject h v

/-- The loop of `deserialise_arr`, whose array has been created. -/
def deserialiseArr (arr : ObjId) (h : Heap (List ObjId)) :
    List (Val CString) → Except Fault (Heap (List ObjId))
  | [] => .ok h
  | .container (.variant _) sub :: iter => do
    let (h, value) ← deserialiseIter h sub
    match value with
    | none => .error .nullValue
    | some value => do
      let h ← Arrays.xpcArrayAppendValue h arr value
      deserialiseArr arr h iter
  | _ :: _ => .error .assertFailed

def deserialiseDict (dict : ObjId) (h : Heap (List ObjId)) :
    List (Val CString) → Except Fault (Heap (List ObjId))
  | [] => .ok h
  | .container _ (.basic (.string key) :: .container (.variant _) sub2 :: _) :: iter => do
    let (h, value) ← deserialiseIter h sub2
    match value with
    | none => .error .nullValue
    | some value => do
      let h ← xpcDictionarySetValue h dict key value
      deserialiseDict dict h iter
  | _ :: _ => .error .assertFailed

end

/-- The body is the list of the arguments of the message. -/
def deserialiseMessage (h : Heap (List ObjId)) (body : List (Val CString)) :
    Except Fault (Heap (List ObjId) × Option ObjId) :=
  match body with
  | [] => .ok (h, none)
  | iter => deserialiseIter h iter

/-! ## What the decoder accepts -/

/-- The types for which an object is created. -/
def Supported : Val CString → Prop
  | .basic (.boolean _) | .basic (.int64 _) | .basic (.uint64 _) | .basic (.string _)
  | .basic (.unixFd _) => True
  | .container (.array (.dictEntry _ _)) _ | .container (.array .variant) _
  | .container (.array (.basic .byte)) _ => True
  | _ => False

mutual

/-- No byte array is reached; every dictionary has string keys and variant
values, and every variant in a container holds a supported value. -/
def Safe : Val CString → Prop
  | .container (.array (.dictEntry _ _)) sub => SafeDict sub
  | .container (.array .variant) sub => SafeArr sub
  | .container (.array (.basic .byte)) _ => False
  | _ => True

def SafeIter : List (Val CString) → Prop
  | [] => False
  | v :: _ => Supported v ∧ Safe v

def SafeArr : List (Val CString) → Prop
  | [] => True
  | .container (.variant _) sub :: iter => SafeIter sub ∧ SafeArr iter
  | _ :: _ => False

def SafeDict : List (Val CString) → Prop
  | [] => True
  | .container _ (.basic (.string _) :: .container (.variant _) sub2 :: _) :: iter =>
    SafeIter sub2 ∧ SafeDict iter
  | _ :: _ => False

end

mutual

/-- The tree of the object created, if one is. -/
def translate : Val CString → Option Tree
  | .basic (.boolean val) => some (.leaf (.bool val))
  | .basic (.int64 val) => some (.leaf (.int64 val))
  | .basic (.uint64 val) => some (.leaf (.uint64 val))
  | .basic (.string val) => some (.leaf (.string val))
  | .basic (.unixFd val) => some (.leaf (.fd val))
  | .container (.array (.dictEntry _ _)) sub => some (.dictionary (build (translateDict sub)))
  | .container (.array .variant) sub => some (.array (translateArr sub))
  | _ => none

def translateIter : List (Val CString) → Option Tree
  | [] => none
  | v :: _ => translate v

def translateArr : List (Val CString) → List Tree
  | [] => []
  | .container (.variant _) sub :: iter => (translateIter sub).toList ++ translateArr iter
  | _ :: _ => []

def translateDict : List (Val CString) → List (CString × Tree)
  | [] => []
  | .container _ (.basic (.string key) :: .container (.variant _) sub2 :: _) :: iter =>
    (translateIter sub2).toList.map (key, ·) ++ translateDict iter
  | _ :: _ => []

end

/-! ## The decoder on safe and on unsafe values -/

variable {h h₀ : Heap (List ObjId)} {a d n : ℕ} {v : Val CString} {sub iter : List (Val CString)}

/-- The call returns NULL or a new object with the tree, and changes no existing object. -/
def Decodes (h : Heap (List ObjId)) (v : Val CString) : Prop :=
  ∃ h' r, deserialiseObject h v = .ok (h', r) ∧ h.Keeps h' ∧
    Option.Rel (TreeFrom h' h.size) r (translate v)

def Fails {α : Type} (r : Except Fault α) : Prop := ∃ e, r = .error e

theorem fails_error {α : Type} (e : Fault) : Fails (Except.error e : Except Fault α) := ⟨e, rfl⟩

theorem fails_bind {α β : Type} {r : Except Fault α} {f : α → Except Fault β}
    (hf : ∀ a, r = .ok a → Fails (f a)) : Fails (r >>= f) := by
  cases r with
  | error e => exact ⟨e, rfl⟩
  | ok a => exact hf a rfl

/-- A branch of `deserialise_object` that creates a value. -/
def CreatesLeaf (v : Val CString) (w : Leaf) : Prop :=
  (∀ h, deserialiseObject h v = .ok (created h w)) ∧ translate v = some (.leaf w) ∧
    Supported v ∧ Safe v

/-- A default branch. -/
def ReturnsNull (v : Val CString) : Prop :=
  (∀ h, deserialiseObject h v = .ok (h, none)) ∧ translate v = none ∧ ¬ Supported v ∧ Safe v

theorem deserialiseObject_cases (v : Val CString) :
    (∃ w, CreatesLeaf v w) ∨ (∃ key value sub, v = .container (.array (.dictEntry key value)) sub) ∨
      (∃ sub, v = .container (.array .variant) sub) ∨
      (∃ sub, v = .container (.array (.basic .byte)) sub) ∨ ReturnsNull v := by
  cases v with
  | basic b =>
    cases b
    case boolean val => exact .inl ⟨.bool val, fun _ => rfl, rfl, trivial, trivial⟩
    case int64 val => exact .inl ⟨.int64 val, fun _ => rfl, rfl, trivial, trivial⟩
    case uint64 val => exact .inl ⟨.uint64 val, fun _ => rfl, rfl, trivial, trivial⟩
    case string val => exact .inl ⟨.string val, fun _ => rfl, rfl, trivial, trivial⟩
    case unixFd val => exact .inl ⟨.fd val, fun _ => rfl, rfl, trivial, trivial⟩
    all_goals exact .inr (.inr (.inr (.inr ⟨fun _ => rfl, rfl, id, trivial⟩)))
  | container c sub =>
    cases c
    case array elem =>
      cases elem
      case dictEntry key value => exact .inr (.inl ⟨key, value, sub, rfl⟩)
      case variant => exact .inr (.inr (.inl ⟨sub, rfl⟩))
      case basic b =>
        cases b
        case byte => exact .inr (.inr (.inr (.inl ⟨sub, rfl⟩)))
        all_goals exact .inr (.inr (.inr (.inr ⟨fun _ => rfl, rfl, id, trivial⟩)))
      all_goals exact .inr (.inr (.inr (.inr ⟨fun _ => rfl, rfl, id, trivial⟩)))
    all_goals exact .inr (.inr (.inr (.inr ⟨fun _ => rfl, rfl, id, trivial⟩)))

theorem translate_isSome_iff (hs : Safe v) : (translate v).isSome ↔ Supported v := by
  rcases deserialiseObject_cases v with h | h | h | h | h
  · obtain ⟨w, -, ht, hsup, -⟩ := h
    simp [ht, hsup]
  · obtain ⟨key, value, sub, rfl⟩ := h
    exact iff_of_true rfl trivial
  · obtain ⟨sub, rfl⟩ := h
    exact iff_of_true rfl trivial
  · obtain ⟨sub, rfl⟩ := h
    exact hs.elim
  · obtain ⟨-, ht, hsup, -⟩ := h
    simp [ht, hsup]

theorem deserialiseArr_cases (w : Val CString) : (∃ sig sub, w = .container (.variant sig) sub) ∨
    ∀ a h iter, deserialiseArr a h (w :: iter) = .error .assertFailed ∧ ¬ SafeArr (w :: iter) := by
  cases w with
  | basic b => exact .inr (fun a h iter => ⟨by simp [deserialiseArr], by simp [SafeArr]⟩)
  | container c sub =>
    cases c
    case variant sig => exact .inl ⟨sig, sub, rfl⟩
    all_goals exact .inr (fun a h iter => ⟨by simp [deserialiseArr], by simp [SafeArr]⟩)

/-- The shape of a dictionary entry. -/
def Entry (key : CString) (sub2 : List (Val CString)) (w : Val CString) : Prop :=
  ∃ c sig rest, w = .container c (.basic (.string key) :: .container (.variant sig) sub2 :: rest)

theorem deserialiseDict_cases (w : Val CString) : (∃ key sub2, Entry key sub2 w) ∨
    ∀ d h iter, deserialiseDict d h (w :: iter) = .error .assertFailed ∧ ¬ SafeDict (w :: iter) := by
  by_cases hw : ∃ key sub2, Entry key sub2 w
  · exact .inl hw
  · refine .inr (fun d h iter => ?_)
    have hnot : ∀ c key sig sub2 rest iter', w :: iter =
        .container c (.basic (.string key) :: .container (.variant sig) sub2 :: rest) :: iter' →
        False := by
      intro c key sig sub2 rest iter' he
      exact hw ⟨key, sub2, c, sig, rest, (List.cons.inj he).1⟩
    constructor
    · rw [deserialiseDict]
      intro c key sig sub2 rest he
      exact hnot c key sig sub2 rest iter (by rw [he])
    · rw [SafeDict]
      · exact id
      · intro c key sig sub2 rest he
        exact hnot c key sig sub2 rest iter (by rw [he])

/-- What is known of the values of smaller depth. -/
structure SpecBelow (n : ℕ) : Prop where
  safe : ∀ v : Val CString, v.depth < n → Safe v → ∀ h, Decodes h v
  unsafeFails : ∀ v : Val CString, v.depth < n → ¬ Safe v → ∀ h, Fails (deserialiseObject h v)

theorem deserialiseIter_ok (hspec : SpecBelow n) (hdepth : ∀ u ∈ sub, u.depth < n)
    (hs : SafeIter sub) (h : Heap (List ObjId)) :
    ∃ h₁ y t, deserialiseIter h sub = .ok (h₁, some y) ∧ translateIter sub = some t ∧
      h.Keeps h₁ ∧ TreeFrom h₁ h.size y t := by
  cases sub with
  | nil => exact hs.elim
  | cons u rest =>
    obtain ⟨h₁, r, he, hk, hrel⟩ := hspec.safe u (hdepth u List.mem_cons_self) hs.2 h
    obtain ⟨t, ht⟩ := Option.isSome_iff_exists.mp ((translate_isSome_iff hs.2).mpr hs.1)
    rw [ht] at hrel
    cases hrel with
    | @some y _ hy => exact ⟨h₁, y, t, he, ht, hk, hy⟩

/-- Without a supported and safe value the iterator yields a fault or NULL. -/
theorem deserialiseIter_not_safe (hspec : SpecBelow n) (hdepth : ∀ u ∈ sub, u.depth < n)
    (hs : ¬ SafeIter sub) {h₁ : Heap (List ObjId)} {r : Option ObjId}
    (he : deserialiseIter h sub = .ok (h₁, r)) : r = none := by
  cases sub with
  | nil =>
    cases he
    rfl
  | cons u rest =>
    have hu := hdepth u List.mem_cons_self
    by_cases hsafe : Safe u
    · have hnot : ¬ Supported u := fun h => hs ⟨h, hsafe⟩
      obtain ⟨h₂, r₂, he₂, -, hrel⟩ := hspec.safe u hu hsafe h
      have hnone : translate u = none := by
        by_contra hne
        exact hnot ((translate_isSome_iff hsafe).mp (Option.ne_none_iff_isSome.mp hne))
      rw [hnone] at hrel
      cases hrel
      obtain ⟨-, rfl⟩ := Prod.mk.inj (Except.ok.inj (he₂.symm.trans he))
      rfl
    · obtain ⟨e, hfail⟩ := hspec.unsafeFails u hu hsafe h
      rw [deserialiseIter, hfail] at he
      cases he

theorem deserialiseArr_ok (hspec : SpecBelow n) (hdepth : ∀ w ∈ iter, w.depth < n)
    (hs : SafeArr iter) {acc : List Tree} (hf : FillsArray h₀ h a acc) :
    ∃ h', deserialiseArr a h iter = .ok h' ∧ FillsArray h₀ h' a (acc ++ translateArr iter) := by
  induction iter generalizing h acc with
  | nil => exact ⟨h, rfl, by rwa [translateArr, List.append_nil]⟩
  | cons w iter ih =>
    rcases deserialiseArr_cases w with hw | hw
    · obtain ⟨sig, sub, rfl⟩ := hw
      have hlt := hdepth _ List.mem_cons_self
      obtain ⟨h₁, y, t, he, ht, hk, hy⟩ := deserialiseIter_ok hspec
        (Val.depth_lt_of_container_le (Nat.le_of_lt hlt)) hs.1 h
      obtain ⟨h₂, happend, hf₂⟩ := hf.append hk hy
      obtain ⟨h', hloop, hf'⟩ := ih (fun u hu => hdepth u (List.mem_cons_of_mem _ hu)) hs.2 hf₂
      refine ⟨h', by simp [deserialiseArr, he, happend, hloop], ?_⟩
      rw [translateArr, ht]
      rwa [List.append_assoc] at hf'
    · exact absurd hs (hw a h iter).2

theorem deserialiseArr_fails (hspec : SpecBelow n) (hdepth : ∀ w ∈ iter, w.depth < n)
    (hs : ¬ SafeArr iter) (h : Heap (List ObjId)) : Fails (deserialiseArr a h iter) := by
  induction iter generalizing h with
  | nil => exact absurd trivial hs
  | cons w iter ih =>
    rcases deserialiseArr_cases w with hw | hw
    · obtain ⟨sig, sub, rfl⟩ := hw
      have hlt := hdepth _ List.mem_cons_self
      rw [deserialiseArr]
      apply fails_bind
      intro p hp
      obtain ⟨h₁, value⟩ := p
      cases value with
      | none => exact fails_error _
      | some y =>
        apply fails_bind
        intro h₂ _
        apply ih (fun u hu => hdepth u (List.mem_cons_of_mem _ hu))
        intro hrest
        by_cases hsub : SafeIter sub
        · exact hs ⟨hsub, hrest⟩
        · have hnone := deserialiseIter_not_safe hspec
            (Val.depth_lt_of_container_le (Nat.le_of_lt hlt)) hsub hp
          cases hnone
    · exact ⟨_, (hw a h iter).1⟩

theorem Entry.depth_lt {key : CString} {w u : Val CString} (hw : Entry key sub w) (hu : u ∈ sub) :
    u.depth < w.depth := by
  obtain ⟨c, sig, rest, rfl⟩ := hw
  have hvariant : .container (.variant sig) sub ∈
      .basic (.string key) :: .container (.variant sig) sub :: rest :=
    List.mem_cons_of_mem _ List.mem_cons_self
  exact Nat.lt_trans (Val.depth_lt_of_mem hu) (Val.depth_lt_of_mem hvariant)

theorem deserialiseDict_ok (hspec : SpecBelow n) (hdepth : ∀ w ∈ iter, w.depth < n)
    (hs : SafeDict iter) {acc : List (CString × Tree)} (hf : FillsDictionary h₀ h d acc) :
    ∃ h', deserialiseDict d h iter = .ok h' ∧
      FillsDictionary h₀ h' d ((translateDict iter).foldl (fun ps p => upsert p.1 p.2 ps) acc) := by
  induction iter generalizing h acc with
  | nil => exact ⟨h, rfl, hf⟩
  | cons w iter ih =>
    rcases deserialiseDict_cases w with hw | hw
    · obtain ⟨key, sub2, hentry⟩ := hw
      have hlt := hdepth w List.mem_cons_self
      have hbelow : ∀ u ∈ sub2, u.depth < n := fun u hu => Nat.lt_trans (hentry.depth_lt hu) hlt
      obtain ⟨c, sig, rest, rfl⟩ := hentry
      obtain ⟨h₁, y, t, he, ht, hk, hy⟩ := deserialiseIter_ok hspec hbelow hs.1 h
      obtain ⟨h₂, hset, hf₂⟩ := hf.insert hk hy key
      obtain ⟨h', hloop, hf'⟩ := ih (fun u hu => hdepth u (List.mem_cons_of_mem _ hu)) hs.2 hf₂
      refine ⟨h', by simp [deserialiseDict, he, hset, hloop], ?_⟩
      rw [translateDict, ht]
      exact hf'
    · exact absurd hs (hw d h iter).2

theorem deserialiseDict_fails (hspec : SpecBelow n) (hdepth : ∀ w ∈ iter, w.depth < n)
    (hs : ¬ SafeDict iter) (h : Heap (List ObjId)) : Fails (deserialiseDict d h iter) := by
  induction iter generalizing h with
  | nil => exact absurd trivial hs
  | cons w iter ih =>
    rcases deserialiseDict_cases w with hw | hw
    · obtain ⟨key, sub2, hentry⟩ := hw
      have hlt := hdepth w List.mem_cons_self
      have hbelow : ∀ u ∈ sub2, u.depth < n := fun u hu => Nat.lt_trans (hentry.depth_lt hu) hlt
      obtain ⟨c, sig, rest, rfl⟩ := hentry
      rw [deserialiseDict]
      apply fails_bind
      intro p hp
      obtain ⟨h₁, value⟩ := p
      cases value with
      | none => exact fails_error _
      | some y =>
        apply fails_bind
        intro h₂ _
        apply ih (fun u hu => hdepth u (List.mem_cons_of_mem _ hu))
        intro hrest
        by_cases hsub : SafeIter sub2
        · exact hs ⟨hsub, hrest⟩
        · have hnone := deserialiseIter_not_safe hspec hbelow hsub hp
          cases hnone
    · exact ⟨_, (hw d h iter).1⟩

/-- The decoder on values of any depth: the induction step and the induction. -/
theorem specBelow (n : ℕ) : SpecBelow n := by
  induction n with
  | zero => exact ⟨fun v hv => absurd hv (Nat.not_lt_zero _), fun v hv => absurd hv (Nat.not_lt_zero _)⟩
  | succ n ih =>
    have hboth : ∀ v : Val CString, v.depth < n + 1 → ∀ h, (Safe v → Decodes h v) ∧
        (¬ Safe v → Fails (deserialiseObject h v)) := by
      intro v hv h
      rcases deserialiseObject_cases v with hcase | hcase | hcase | hcase | hcase
      · obtain ⟨w, hw, ht, -, hs⟩ := hcase
        refine ⟨fun _ => ⟨_, _, hw h, h.keeps_alloc _, ?_⟩, fun hn => absurd hs hn⟩
        rw [ht]
        exact .some (treeFrom_leafCreate h w)
      · obtain ⟨key, value, sub, rfl⟩ := hcase
        have hdepth := Val.depth_lt_of_container_le (Nat.le_of_lt_succ hv)
        obtain ⟨h₁, hcreate, hf⟩ := fillsDictionary_create h
        constructor
        · intro hs
          obtain ⟨h', hloop, hf'⟩ := deserialiseDict_ok ih hdepth hs hf
          refine ⟨h', some h.size, by simp [deserialiseObject, hcreate, hloop], hf'.keeps, ?_⟩
          exact .some hf'.treeFrom
        · intro hs
          obtain ⟨e, hloop⟩ := deserialiseDict_fails (d := h.size) ih hdepth hs h₁
          exact ⟨e, by simp [deserialiseObject, hcreate, hloop]⟩
      · obtain ⟨sub, rfl⟩ := hcase
        have hdepth := Val.depth_lt_of_container_le (Nat.le_of_lt_succ hv)
        obtain ⟨h₁, hcreate, hf⟩ := fillsArray_create h
        constructor
        · intro hs
          obtain ⟨h', hloop, hf'⟩ := deserialiseArr_ok ih hdepth hs hf
          refine ⟨h', some h.size, by simp [deserialiseObject, hcreate, hloop], hf'.keeps, ?_⟩
          exact .some hf'.treeFrom
        · intro hs
          obtain ⟨e, hloop⟩ := deserialiseArr_fails (a := h.size) ih hdepth hs h₁
          exact ⟨e, by simp [deserialiseObject, hcreate, hloop]⟩
      · obtain ⟨sub, rfl⟩ := hcase
        exact ⟨fun hs => hs.elim, fun _ => ⟨_, rfl⟩⟩
      · obtain ⟨hnull, ht, -, hs⟩ := hcase
        refine ⟨fun _ => ⟨h, none, hnull h, Heap.Keeps.refl h, ?_⟩, fun hn => absurd hs hn⟩
        rw [ht]
        exact .none
    exact ⟨fun v hv hs h => (hboth v hv h).1 hs, fun v hv hs h => (hboth v hv h).2 hs⟩

theorem deserialiseObject_ok (hs : Safe v) (h : Heap (List ObjId)) : Decodes h v :=
  (specBelow (v.depth + 1)).safe v (Nat.lt_succ_self _) hs h

theorem deserialiseObject_fails (hs : ¬ Safe v) (h : Heap (List ObjId)) :
    Fails (deserialiseObject h v) :=
  (specBelow (v.depth + 1)).unsafeFails v (Nat.lt_succ_self _) hs h

/-- Deserialising a message returns an object or NULL, without a failed
assertion, a NULL value inserted or a wild read, if and only if its first
argument is safe. -/
theorem deserialiseMessage_ok_iff (h : Heap (List ObjId)) (body : List (Val CString)) :
    (∃ r, deserialiseMessage h body = .ok r) ↔ ∀ v, body.head? = some v → Safe v := by
  cases body with
  | nil => simp [deserialiseMessage]
  | cons v rest =>
    simp only [deserialiseMessage, deserialiseIter, List.head?_cons, Option.some.injEq, forall_eq']
    constructor
    · intro hr
      obtain ⟨r, hr⟩ := hr
      by_contra hs
      obtain ⟨e, he⟩ := deserialiseObject_fails hs h
      rw [hr] at he
      cases he
    · intro hs
      obtain ⟨h', r, he, -⟩ := deserialiseObject_ok hs h
      exact ⟨_, he⟩

/-- A byte in a variant in an array is inserted as NULL, and a dictionary with
values that are no variants fails its assertion. -/
theorem peer_can_fault :
    ((Val.container (.array .variant) [.container (.variant (.basic .byte)) [.basic (.byte 1)]] :
        Val CString).HasTy (.array .variant) ∧
      deserialiseMessage ⟨[]⟩
        [.container (.array .variant) [.container (.variant (.basic .byte)) [.basic (.byte 1)]]] =
        .error .nullValue) ∧
    (Val.container (.array (.dictEntry .string (.basic .string)))
        [.container .dictEntry [.basic (.string keyK), .basic (.string keyK)]]).HasTy
        (.array (.dictEntry .string (.basic .string))) ∧
      deserialiseMessage ⟨[]⟩ [.container (.array (.dictEntry .string (.basic .string)))
        [.container .dictEntry [.basic (.string keyK), .basic (.string keyK)]]] =
        .error .assertFailed := by
  refine ⟨⟨by simp [BasicVal.ty], rfl⟩, Val.hasTy_array.mpr ⟨rfl, fun v hv => ?_⟩, rfl⟩
  rw [List.mem_singleton.mp hv]
  exact Val.hasTy_dictEntry (k := .string keyK) (Val.hasTy_basic.mpr rfl)

end OpenXPC
