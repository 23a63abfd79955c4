import Mathlib.Data.List.Basic
import Mathlib.Tactic.Common

/-! # Objects, the heap and reference counts

An object is a header and a typed payload; the payload stands for the type
pointer and the union together, so no object can be read through a member it was
not built with. Object identities are never reused, so a freed object stays
distinguishable from every later one. Allocation succeeds. -/
namespace OpenXPC

/-- The bytes of a C string up to its terminator. -/
structure CString where
  bytes : List UInt8
  noNul : 0 ∉ bytes
  deriving DecidableEq

/-- The strings `k` and `j`, the keys of the small examples. -/
def keyK : CString := ⟨[107], by decide⟩

def keyJ : CString := ⟨[106], by decide⟩

abbrev ObjId := ℕ

/-- The values without children. A double is its bit pattern, a descriptor the open
file it refers to, so that `dup` is the identity, and a connection the name of its peer. -/
inductive Leaf
  | null
  | bool (value : Bool)
  | int64 (value : Int64)
  | uint64 (value : UInt64)
  | double (bits : UInt64)
  | date (interval : Int64)
  | data (bytes : List UInt8)
  | string (str : CString)
  | fd (file : ℕ)
  | endpoint (port : UInt64)
  | uuid (bytes : BitVec 128)
  | connection (busname : CString)
  deriving DecidableEq

/-- The `xo_size` the constructors give a value. -/
def Leaf.size : Leaf → ℕ
  | .null | .connection _ => 0
  | .data bytes => bytes.length
  | .string str => str.bytes.length
  | _ => 1

/-- The payload of an object whose arrays are stored as `A`. -/
inductive Payload (A : Type)
  | leaf (v : Leaf)
  | array (arr : A)
  | dictionary (pairs : List (CString × ObjId))
  deriving DecidableEq

/-- The size of a data or string object is the length of its buffer. -/
def Payload.SizeOk {A : Type} : Payload A → ℕ → Prop
  | .leaf (.data bytes), n => n = bytes.length
  | .leaf (.string str), n => n = str.bytes.length
  | _, _ => True

structure XpcObject (A : Type) where
  xoFlags : UInt16
  xoRefcnt : UInt32
  xoSize : ℕ
  xoU : Payload A
  sized : xoU.SizeOk xoSize
  deriving DecidableEq

/-- Where an execution leaves the modelled behaviour. -/
inductive Fault
  | dangling      -- a freed or never allocated object is dereferenced
  | wrongType     -- the union is read as a container of another type
  | nullValue     -- a setter is called with a NULL value
  | assertFailed
  | wildRead      -- an uninitialised pointer is dereferenced
  | outOfFuel
  deriving DecidableEq

section Outcomes

variable {ε α β : Type}

@[simp] theorem ok_bind (a : α) (f : α → Except ε β) : (Except.ok a >>= f) = f a := rfl

@[simp] theorem error_bind (e : ε) (f : α → Except ε β) :
    (Except.error e >>= f) = .error e := rfl

theorem bind_eq_ok {x : Except ε α} {f : α → Except ε β} {b : β} :
    (x >>= f) = .ok b ↔ ∃ a, x = .ok a ∧ f a = .ok b := by
  cases x <;> simp

theorem map_eq_ok {x : Except ε α} {f : α → β} {b : β} :
    x.map f = .ok b ↔ ∃ a, x = .ok a ∧ f a = b := by
  cases x <;> simp [Except.map]

/-- What each step keeps, a fold keeps. -/
theorem foldlM_preserves {I : α → Prop} {f : α → β → Except ε α}
    (hstep : ∀ a b a', I a → f a b = .ok a' → I a') {bs : List β} {a a' : α} (ha : I a)
    (he : bs.foldlM f a = .ok a') : I a' := by
  induction bs generalizing a with
  | nil =>
    cases he
    exact ha
  | cons b bs ih =>
    rw [List.foldlM_cons] at he
    obtain ⟨a₁, h₁, he⟩ := bind_eq_ok.mp he
    exact ih (hstep a b a₁ ha h₁) he

end Outcomes

/-- The cell of an object holds `none` once it is freed. -/
structure Heap (A : Type) where
  objs : List (Option (XpcObject A))
  deriving DecidableEq

variable {A : Type}

namespace Heap

def size (h : Heap A) : ℕ := h.objs.length

def get (h : Heap A) (x : ObjId) : Option (XpcObject A) := (h.objs[x]?).join

def set (h : Heap A) (x : ObjId) (o : XpcObject A) : Heap A := ⟨h.objs.set x (some o)⟩

def free (h : Heap A) (x : ObjId) : Heap A := ⟨h.objs.set x none⟩

def alloc (h : Heap A) (o : XpcObject A) : Heap A × ObjId := (⟨h.objs ++ [some o]⟩, h.size)

def deref (h : Heap A) (x : ObjId) : Except Fault (XpcObject A) :=
  match h.get x with
  | some o => .ok o
  | none => .error .dangling

theorem lt_size_of_get {h : Heap A} {x : ObjId} {o : XpcObject A} (hx : h.get x = some o) :
    x < h.size := by
  by_contra hn
  have habsent : h.objs[x]? = none := List.getElem?_eq_none (Nat.le_of_not_gt hn)
  simp [get, habsent] at hx

theorem mem_of_get {h : Heap A} {x : ObjId} {o : XpcObject A} (hx : h.get x = some o) :
    some o ∈ h.objs := List.mem_of_getElem? (Option.join_eq_some_iff.mp hx)

theorem get_of_size_le {h : Heap A} {x : ObjId} (hx : h.size ≤ x) : h.get x = none := by
  have habsent : h.objs[x]? = none := List.getElem?_eq_none hx
  simp [get, habsent]

theorem deref_of_get {h : Heap A} {x : ObjId} {o : XpcObject A} (hx : h.get x = some o) :
    h.deref x = .ok o := by simp [deref, hx]

theorem get_of_deref {h : Heap A} {x : ObjId} {o : XpcObject A} (hx : h.deref x = .ok o) :
    h.get x = some o := by
  unfold deref at hx
  split at hx
  · rename_i o' ho
    cases hx
    exact ho
  · cases hx

@[simp] theorem size_set (h : Heap A) (x : ObjId) (o : XpcObject A) : (h.set x o).size = h.size := by
  simp [size, set]

@[simp] theorem size_free (h : Heap A) (x : ObjId) : (h.free x).size = h.size := by
  simp [size, free]

@[simp] theorem size_alloc (h : Heap A) (o : XpcObject A) : (h.alloc o).1.size = h.size + 1 := by
  simp [size, alloc]

theorem get_set {h : Heap A} {x : ObjId} {old : XpcObject A} (hx : h.get x = some old)
    (o : XpcObject A) (y : ObjId) : (h.set x o).get y = if y = x then some o else h.get y := by
  have hlt : x < h.objs.length := lt_size_of_get hx
  by_cases hy : y = x
  · subst hy
    simp [get, set, hlt]
  · simp [get, set, hy, List.getElem?_set_ne (Ne.symm hy)]

theorem get_free (h : Heap A) (x y : ObjId) :
    (h.free x).get y = if y = x then none else h.get y := by
  by_cases hy : y = x
  · subst hy
    by_cases hlt : y < h.objs.length <;> simp [get, free, hlt]
  · simp [get, free, hy, List.getElem?_set_ne (Ne.symm hy)]

theorem get_alloc (h : Heap A) (o : XpcObject A) (y : ObjId) :
    (h.alloc o).1.get y = if y = h.size then some o else h.get y := by
  rcases Nat.lt_trichotomy y h.objs.length with hy | hy | hy
  · have hne : y ≠ h.size := Nat.ne_of_lt hy
    simp [get, alloc, List.getElem?_append_left hy, hne]
  · simp [get, alloc, hy, size]
  · have hne : y ≠ h.size := Nat.ne_of_gt hy
    rw [if_neg hne, get_of_size_le (Nat.le_of_lt hy)]
    apply get_of_size_le
    rw [size_alloc]
    exact hy

theorem get_alloc_of_get {h : Heap A} {x : ObjId} {o : XpcObject A} (hx : h.get x = some o)
    (p : XpcObject A) : (h.alloc p).1.get x = some o := by
  rw [get_alloc, if_neg (Nat.ne_of_lt (lt_size_of_get hx)), hx]

end Heap

/-! ## Constructors -/

def xpcPrimCreateFlags (h : Heap A) (value : Payload A) (size : ℕ) (hsize : value.SizeOk size)
    (flags : UInt16) : Heap A × ObjId :=
  h.alloc { xoSize := size, xoFlags := flags, xoU := value, xoRefcnt := 1, sized := hsize }

def xpcPrimCreate (h : Heap A) (value : Payload A) (size : ℕ) (hsize : value.SizeOk size) :
    Heap A × ObjId := xpcPrimCreateFlags h value size hsize 0

theorem Leaf.sizeOk (v : Leaf) : (Payload.leaf v : Payload A).SizeOk v.size := by
  cases v <;> trivial

/-- The constructors of values without children. -/
def leafCreate (h : Heap A) (v : Leaf) : Heap A × ObjId := xpcPrimCreate h (.leaf v) v.size v.sizeOk

def xpcNullCreate (h : Heap A) : Heap A × ObjId := leafCreate h .null

def xpcBoolCreate (h : Heap A) (value : Bool) : Heap A × ObjId := leafCreate h (.bool value)

def xpcInt64Create (h : Heap A) (value : Int64) : Heap A × ObjId := leafCreate h (.int64 value)

def xpcUint64Create (h : Heap A) (value : UInt64) : Heap A × ObjId := leafCreate h (.uint64 value)

def xpcDoubleCreate (h : Heap A) (bits : UInt64) : Heap A × ObjId := leafCreate h (.double bits)

def xpcDateCreate (h : Heap A) (interval : Int64) : Heap A × ObjId := leafCreate h (.date interval)

/-- The buffer is copied; its length becomes the size. -/
def xpcDataCreate (h : Heap A) (bytes : List UInt8) : Heap A × ObjId := leafCreate h (.data bytes)

def xpcStringCreate (h : Heap A) (string : CString) : Heap A × ObjId := leafCreate h (.string string)

/-- The descriptor is dup'ed. -/
def xpcFdCreate (h : Heap A) (file : ℕ) : Heap A × ObjId := leafCreate h (.fd file)

def xpcUuidCreate (h : Heap A) (uuid : BitVec 128) : Heap A × ObjId := leafCreate h (.uuid uuid)

/-- The header of a connection is that of a value of size 0; the name is copied. -/
def connectionHeader (h : Heap A) (name : CString) : Heap A × ObjId := leafCreate h (.connection name)

/-! ## Reading values -/

/-- A getter returns its default for NULL and for an object of another type. -/
def getLeaf {β : Type} (h : Heap A) (x : Option ObjId) (read : Leaf → Option β) (dflt : β) :
    Except Fault β :=
  match x with
  | none => .ok dflt
  | some x => do
    let xo ← h.deref x
    match xo.xoU with
    | .leaf v => .ok ((read v).getD dflt)
    | _ => .ok dflt

def xpcBoolGetValue (h : Heap A) (xbool : Option ObjId) : Except Fault Bool :=
  getLeaf h xbool (fun | .bool b => some b | _ => none) false

def xpcInt64GetValue (h : Heap A) (xint : Option ObjId) : Except Fault Int64 :=
  getLeaf h xint (fun | .int64 i => some i | _ => none) 0

def xpcUint64GetValue (h : Heap A) (xuint : Option ObjId) : Except Fault UInt64 :=
  getLeaf h xuint (fun | .uint64 u => some u | _ => none) 0

/-- NULL is `none`. -/
def xpcStringGetStringPtr (h : Heap A) (xstring : Option ObjId) : Except Fault (Option CString) :=
  getLeaf h xstring (fun | .string s => some (some s) | _ => none) none

theorem getLeaf_of_get {β : Type} {h : Heap A} {x : ObjId} {o : XpcObject A} {v : Leaf}
    (hx : h.get x = some o) (ho : o.xoU = .leaf v) (read : Leaf → Option β) (dflt : β) :
    getLeaf h (some x) read dflt = .ok ((read v).getD dflt) := by
  simp [getLeaf, Heap.deref_of_get hx, ho]

/-! ## Retaining -/

/-- The count is a 32-bit counter and wraps. -/
def XpcObject.retained (o : XpcObject A) : XpcObject A := { o with xoRefcnt := o.xoRefcnt + 1 }

def xpcRetain (h : Heap A) (obj : ObjId) : Except Fault (Heap A) := do
  let xo ← h.deref obj
  .ok (h.set obj xo.retained)

theorem xpcRetain_of_get {h : Heap A} {x : ObjId} {o : XpcObject A} (hx : h.get x = some o) :
    xpcRetain h x = .ok (h.set x o.retained) := by
  simp [xpcRetain, Heap.deref_of_get hx]

/-! ## Frames -/

/-- Every object but one stays where it is, with its payload and size. -/
structure Heap.KeepsBut (d : ObjId) (h h' : Heap A) : Prop where
  size_le : h.size ≤ h'.size
  get_of_get : ∀ {y o}, y ≠ d → h.get y = some o →
    ∃ o', h'.get y = some o' ∧ o'.xoU = o.xoU ∧ o'.xoSize = o.xoSize

/-- Every object stays where it is, with its payload and size. -/
structure Heap.Keeps (h h' : Heap A) : Prop where
  size_le : h.size ≤ h'.size
  get_of_get : ∀ {y o}, h.get y = some o →
    ∃ o', h'.get y = some o' ∧ o'.xoU = o.xoU ∧ o'.xoSize = o.xoSize

theorem Heap.Keeps.keepsBut {h h' : Heap A} (hk : h.Keeps h') (d : ObjId) : h.KeepsBut d h' :=
  ⟨hk.size_le, fun _ hy => hk.get_of_get hy⟩

theorem Heap.KeepsBut.trans {d : ObjId} {h h' h'' : Heap A} (h₁ : h.KeepsBut d h')
    (h₂ : h'.KeepsBut d h'') : h.KeepsBut d h'' := by
  refine ⟨Nat.le_trans h₁.size_le h₂.size_le, fun hyd hy => ?_⟩
  obtain ⟨o₁, hy₁, hu₁, hs₁⟩ := h₁.get_of_get hyd hy
  obtain ⟨o₂, hy₂, hu₂, hs₂⟩ := h₂.get_of_get hyd hy₁
  exact ⟨o₂, hy₂, hu₂.trans hu₁, hs₂.trans hs₁⟩

/-- Changes to an object that was not there before are no changes. -/
theorem Heap.KeepsBut.keeps {d : ObjId} {h h' : Heap A} (hk : h.KeepsBut d h')
    (hd : h.size ≤ d) : h.Keeps h' := by
  refine ⟨hk.size_le, fun {y o} hy => hk.get_of_get ?_ hy⟩
  exact Nat.ne_of_lt (Nat.lt_of_lt_of_le (Heap.lt_size_of_get hy) hd)

theorem Heap.Keeps.refl (h : Heap A) : h.Keeps h :=
  ⟨Nat.le_refl _, fun {_ o} hy => ⟨o, hy, rfl, rfl⟩⟩

theorem Heap.Keeps.trans {h h' h'' : Heap A} (h₁ : h.Keeps h') (h₂ : h'.Keeps h'') : h.Keeps h'' := by
  refine ⟨Nat.le_trans h₁.size_le h₂.size_le, fun hy => ?_⟩
  obtain ⟨o₁, hy₁, hu₁, hs₁⟩ := h₁.get_of_get hy
  obtain ⟨o₂, hy₂, hu₂, hs₂⟩ := h₂.get_of_get hy₁
  exact ⟨o₂, hy₂, hu₂.trans hu₁, hs₂.trans hs₁⟩

theorem Heap.keeps_alloc (h : Heap A) (o : XpcObject A) : h.Keeps (h.alloc o).1 :=
  ⟨by simp, fun {_ p} hy => ⟨p, Heap.get_alloc_of_get hy o, rfl, rfl⟩⟩

theorem Heap.keepsBut_set {h : Heap A} {d : ObjId} {old : XpcObject A} (hd : h.get d = some old)
    (o : XpcObject A) : h.KeepsBut d (h.set d o) := by
  refine ⟨by simp, fun {y p} hyd hy => ⟨p, ?_, rfl, rfl⟩⟩
  rw [Heap.get_set hd, if_neg hyd, hy]

theorem keeps_of_xpcRetain {h h' : Heap A} {x : ObjId} (hr : xpcRetain h x = .ok h') :
    h.Keeps h' := by
  obtain ⟨o, ho, he⟩ := bind_eq_ok.mp hr
  have hx := Heap.get_of_deref ho
  cases he
  refine ⟨by simp, fun {y p} hy => ?_⟩
  rw [Heap.get_set hx]
  by_cases hyx : y = x
  · subst hyx
    obtain rfl : o = p := Option.some.inj (hx.symm.trans hy)
    exact ⟨_, if_pos rfl, rfl, rfl⟩
  · exact ⟨p, by rw [if_neg hyx, hy], rfl, rfl⟩

/-! ## Properties of all live objects -/

def Heap.Forall (p : XpcObject A → Prop) (h : Heap A) : Prop := ∀ x o, h.get x = some o → p o

/-- All live objects from `lo` on. -/
def Heap.ForallFrom (lo : ℕ) (p : XpcObject A → Prop) (h : Heap A) : Prop :=
  ∀ x o, lo ≤ x → h.get x = some o → p o

theorem Heap.forallFrom_zero {p : XpcObject A → Prop} {h : Heap A} :
    h.ForallFrom 0 p ↔ h.Forall p :=
  ⟨fun hh x o => hh x o (Nat.zero_le x), fun hh x o _ => hh x o⟩

namespace Heap.ForallFrom

variable {lo : ℕ} {p : XpcObject A → Prop} {h h' : Heap A} {x : ObjId} {o : XpcObject A}

theorem set (hh : h.ForallFrom lo p) {old : XpcObject A} (hx : h.get x = some old)
    (ho : lo ≤ x → p o) : (h.set x o).ForallFrom lo p := by
  intro y q hy hq
  rw [Heap.get_set hx] at hq
  split_ifs at hq with hyx
  · cases hq
    exact ho (hyx ▸ hy)
  · exact hh y q hy hq

theorem free (hh : h.ForallFrom lo p) : (h.free x).ForallFrom lo p := by
  intro y q hy hq
  rw [Heap.get_free] at hq
  split_ifs at hq
  exact hh y q hy hq

theorem alloc (hh : h.ForallFrom lo p) (ho : p o) : (h.alloc o).1.ForallFrom lo p := by
  intro y q hy hq
  rw [Heap.get_alloc] at hq
  split_ifs at hq
  · cases hq
    exact ho
  · exact hh y q hy hq

theorem retain (hh : h.ForallFrom lo p) (hp : ∀ o, p o → p o.retained)
    (he : xpcRetain h x = .ok h') : h'.ForallFrom lo p := by
  obtain ⟨o, ho, he⟩ := bind_eq_ok.mp he
  cases he
  have hx := Heap.get_of_deref ho
  exact hh.set hx (fun hlo => hp o (hh x o hlo hx))

end Heap.ForallFrom

namespace Heap.Forall

variable {p : XpcObject A → Prop} {h h' : Heap A} {x : ObjId} {o : XpcObject A}

theorem set (hh : h.Forall p) {old : XpcObject A} (hx : h.get x = some old) (ho : p o) :
    (h.set x o).Forall p :=
  forallFrom_zero.mp ((forallFrom_zero.mpr hh).set hx (fun _ => ho))

theorem free (hh : h.Forall p) : (h.free x).Forall p :=
  forallFrom_zero.mp (forallFrom_zero.mpr hh).free

theorem alloc (hh : h.Forall p) (ho : p o) : (h.alloc o).1.Forall p :=
  forallFrom_zero.mp ((forallFrom_zero.mpr hh).alloc ho)

theorem retain (hh : h.Forall p) (hp : ∀ o, p o → p o.retained) (he : xpcRetain h x = .ok h') :
    h'.Forall p :=
  forallFrom_zero.mp ((forallFrom_zero.mpr hh).retain hp he)

end Heap.Forall

end OpenXPC
