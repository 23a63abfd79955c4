import Mathlib.Logic.Relation
import OpenXPC.Blocks

/-! # New blocks

What the constructors, the setters and `xpc_copy` allocate refers to nothing that was
there before, as long as the setters are called on new containers with new values. -/
namespace OpenXPC.Blocks
open Stores TailQueue

inductive Block
  | object (x : ObjId)
  | pair (p : ℕ)
  | string (s : ℕ)
  | data (d : ℕ)

/-- The object in whose block the cell lies. -/
def cellObject : Cell ObjId ObjId → ObjId
  | .first h => h
  | .next e => e

namespace Memory

/-- A traversal from the pointer comes to the object. -/
inductive OnQueue (m : Memory) : Option ObjId → ObjId → Prop
  | here (e : ObjId) : OnQueue m (some e) e
  | next {e z : ObjId} {p : Option ObjId} (he : m.tqeNext e = .ok p) (hz : OnQueue m p z) :
      OnQueue m (some e) z

/-- The blocks that an object refers to as its value. -/
def Contains (m : Memory) : XpcU → Block → Prop
  | .scalar _ _, _ => False
  | .str s, b => b = .string s
  | .data ptr, b => b = .data ptr
  | .array first _, b => ∃ e, m.OnQueue first e ∧ b = .object e
  | .dict head, b => ∃ p ∈ head, b = .pair p

/-- Keys are not followed. -/
def Holds (m : Memory) : Block → Block → Prop
  | .object x, b => ∃ o, m.objects.get x = some o ∧ m.Contains o.xoU b
  | .pair p, b => ∃ pair, m.pairs.get p = some pair ∧ b = .object pair.value
  | _, _ => False

def Reaches (m : Memory) : Block → Block → Prop := Relation.ReflTransGen m.Holds

/-- The block has been allocated, and may have been freed. -/
def Has (m : Memory) : Block → Prop
  | .object x => x < m.objects.size
  | .pair p => p < m.pairs.size
  | .string s => s < m.strings.size
  | .data d => d < m.data.size

/-- The addresses in the union are those of new blocks. -/
def NewU (m₀ : Memory) : XpcU → Prop
  | .scalar _ _ => True
  | .str s => m₀.strings.size ≤ s
  | .data ptr => m₀.data.size ≤ ptr
  | .array first last => (∀ e ∈ first, m₀.objects.size ≤ e) ∧ m₀.objects.size ≤ cellObject last
  | .dict head => ∀ p ∈ head, m₀.pairs.size ≤ p

structure NewLink (m₀ : Memory) (l : Link) : Prop where
  next : ∀ p ∈ l.tqeNext, ∀ e ∈ p, m₀.objects.size ≤ e
  prev : ∀ c ∈ l.tqePrev, m₀.objects.size ≤ cellObject c

structure NewObject (m₀ : Memory) (o : ObjectBlock) : Prop where
  xoU : m₀.NewU o.xoU
  xoLink : m₀.NewLink o.xoLink

/-- The blocks of the first memory are as they were, and the new ones refer to new ones. -/
structure Extends (m₀ m : Memory) : Prop where
  objects : m₀.objects.Extends m.objects
  pairs : m₀.pairs.Extends m.pairs
  strings : m₀.strings.Extends m.strings
  data : m₀.data.Extends m.data
  newObjects : m.objects.ForallFrom m₀.objects.size m₀.NewObject
  newPairs : m.pairs.ForallFrom m₀.pairs.size (fun pair => m₀.objects.size ≤ pair.value)

section Extensions

variable {m₀ m m' m'' : Memory} {b b' : Block} {x e n i : ℕ} {o w : ObjectBlock} {u : XpcU}
  {first p : Option ObjId} {c : Cell ObjId ObjId}

theorem written_eq_ok {α : Type} {a : α} {r : Option α} : written r = .ok a ↔ r = some a := by
  cases r <;> simp [written]

theorem xoU_of_dictHead {head : List ℕ} (hu : u.dictHead = .ok head) : u = .dict head := by
  cases u <;> simp [XpcU.dictHead] at hu
  rw [hu]

theorem xoU_of_arrayHead (hu : u.arrayHead = .ok (first, c)) : u = .array first c := by
  cases u <;> simp [XpcU.arrayHead] at hu
  rw [hu.1, hu.2]

theorem tqeNext_eq_ok : m.tqeNext e = .ok p ↔
    ∃ o, m.objects.get e = some o ∧ o.xoLink.tqeNext = some p := by
  rw [tqeNext, bind_eq_ok]
  constructor
  · rintro ⟨o, ho, hp⟩
    exact ⟨o, get_of_deref ho, written_eq_ok.mp hp⟩
  · rintro ⟨o, ho, hp⟩
    exact ⟨o, deref_of_get ho, written_eq_ok.mpr hp⟩

theorem NewU.mono (h : m₀.NewU u) (hle : m.objects.size ≤ m₀.objects.size)
    (hpairs : m.pairs.size ≤ m₀.pairs.size) (hstrings : m.strings.size ≤ m₀.strings.size)
    (hdata : m.data.size ≤ m₀.data.size) : m.NewU u := by
  cases u with
  | scalar v word => trivial
  | str s => exact Nat.le_trans hstrings h
  | data ptr => exact Nat.le_trans hdata h
  | array first last =>
    exact ⟨fun e he => Nat.le_trans hle (h.1 e he), Nat.le_trans hle h.2⟩
  | dict head => exact fun p hp => Nat.le_trans hpairs (h p hp)

namespace Extends

theorem refl (m : Memory) : Extends m m where
  objects := .refl _
  pairs := .refl _
  strings := .refl _
  data := .refl _
  newObjects _ _ hx ho := absurd (Store.lt_size_of_get ho) (Nat.not_lt.mpr hx)
  newPairs _ _ hp hget := absurd (Store.lt_size_of_get hget) (Nat.not_lt.mpr hp)

/-- What is new in the later memory is new in the earlier one. -/
theorem newObject (he : Extends m m') (ho : m'.NewObject o) : m.NewObject o where
  xoU := ho.xoU.mono he.objects.size_le he.pairs.size_le he.strings.size_le he.data.size_le
  xoLink := ⟨fun p hp e hpe => Nat.le_trans he.objects.size_le (ho.xoLink.next p hp e hpe),
    fun c hc => Nat.le_trans he.objects.size_le (ho.xoLink.prev c hc)⟩

theorem trans (h₁ : Extends m m') (h₂ : Extends m' m'') : Extends m m'' where
  objects := h₁.objects.trans h₂.objects
  pairs := h₁.pairs.trans h₂.pairs
  strings := h₁.strings.trans h₂.strings
  data := h₁.data.trans h₂.data
  newObjects x o hx ho := by
    rcases Nat.lt_or_ge x m'.objects.size with hlt | hge
    · rw [h₂.objects.old x hlt] at ho
      exact h₁.newObjects x o hx ho
    · exact h₁.newObject (h₂.newObjects x o hge ho)
  newPairs p pair hp hget := by
    rcases Nat.lt_or_ge p m'.pairs.size with hlt | hge
    · rw [h₂.pairs.old p hlt] at hget
      exact h₁.newPairs p pair hp hget
    · exact Nat.le_trans h₁.objects.size_le (h₂.newPairs p pair hge hget)

/-! ### What new blocks lead to -/

theorem tqeNext_new (he : Extends m₀ m) (hx : m₀.objects.size ≤ x) (hp : m.tqeNext x = .ok p) :
    ∀ e ∈ p, m₀.objects.size ≤ e := by
  obtain ⟨o, ho, hnext⟩ := tqeNext_eq_ok.mp hp
  exact (he.newObjects x o hx ho).xoLink.next p hnext

theorem tqePrev_new (he : Extends m₀ m) (hx : m₀.objects.size ≤ x) (hc : m.tqePrev x = .ok c) :
    m₀.objects.size ≤ cellObject c := by
  obtain ⟨o, ho, hprev⟩ := bind_eq_ok.mp hc
  exact (he.newObjects x o hx (get_of_deref ho)).xoLink.prev c (written_eq_ok.mp hprev)

theorem onQueue_new (he : Extends m₀ m) (hx : m.OnQueue p e) (hp : ∀ e ∈ p, m₀.objects.size ≤ e) :
    m₀.objects.size ≤ e := by
  induction hx with
  | here e => exact hp e rfl
  | next hnext _ ih => exact ih (he.tqeNext_new (hp _ rfl) hnext)

theorem nth_new (he : Extends m₀ m) (hp : ∀ e ∈ p, m₀.objects.size ≤ e)
    (hn : m.nth i p = .ok (some e)) : m₀.objects.size ≤ e := by
  induction i generalizing p with
  | zero =>
    cases p with
    | none => cases hn
    | some x =>
      cases hn
      exact hp _ rfl
  | succ i ih =>
    cases p with
    | none => cases hn
    | some x =>
      obtain ⟨q, hq, hn⟩ := bind_eq_ok.mp hn
      exact ih (he.tqeNext_new (hp x rfl) hq) hn

theorem closed (he : Extends m m') (hb : ¬ m.Has b) (hbb : m'.Holds b b') : ¬ m.Has b' := by
  cases b with
  | object x =>
    obtain ⟨o, ho, hc⟩ := hbb
    have hnew := (he.newObjects x o (Nat.not_lt.mp hb) ho).xoU
    cases hu : o.xoU with
    | scalar v word =>
      rw [hu] at hc
      exact hc.elim
    | str s =>
      rw [hu] at hc hnew
      rw [show b' = .string s from hc]
      exact Nat.not_lt.mpr hnew
    | data ptr =>
      rw [hu] at hc hnew
      rw [show b' = .data ptr from hc]
      exact Nat.not_lt.mpr hnew
    | array first last =>
      rw [hu] at hc hnew
      obtain ⟨e, hqueue, rfl⟩ := hc
      exact Nat.not_lt.mpr (he.onQueue_new hqueue hnew.1)
    | dict head =>
      rw [hu] at hc hnew
      obtain ⟨p, hp, rfl⟩ := hc
      exact Nat.not_lt.mpr (hnew p hp)
  | pair p =>
    obtain ⟨pair, hp, rfl⟩ := hbb
    exact Nat.not_lt.mpr (he.newPairs p pair (Nat.not_lt.mp hb) hp)
  | string s => exact hbb.elim
  | data d => exact hbb.elim

/-- What is reached from a new block is new. -/
theorem reaches (he : Extends m m') (hb : ¬ m.Has b) (hbb : m'.Reaches b b') : ¬ m.Has b' := by
  induction hbb with
  | refl => exact hb
  | tail _ hcd ih => exact he.closed ih hcd

/-! ### Allocating and writing -/

theorem allocObject (he : Extends m₀ m) (ho : m₀.NewObject o) :
    Extends m₀ { m with objects := m.objects.alloc o } :=
  { he with objects := he.objects.alloc o, newObjects := he.newObjects.alloc ho }

theorem setObject (he : Extends m₀ m) (hx : m.objects.get x = some w) (hnew : m₀.objects.size ≤ x)
    (ho : m₀.NewObject o) : Extends m₀ (m.setObject x o) :=
  { he with objects := he.objects.set hx hnew o, newObjects := he.newObjects.set hx ho }

theorem freeObject (he : Extends m₀ m) (hnew : m₀.objects.size ≤ x) :
    Extends m₀ { m with objects := m.objects.free x } :=
  { he with objects := he.objects.free hnew, newObjects := he.newObjects.free }

theorem allocPair {pair : XpcDictPair} (he : Extends m₀ m) (hv : m₀.objects.size ≤ pair.value) :
    Extends m₀ { m with pairs := m.pairs.alloc pair } :=
  { he with pairs := he.pairs.alloc pair, newPairs := he.newPairs.alloc hv }

theorem setPair {p : ℕ} {old pair : XpcDictPair} (he : Extends m₀ m) (hp : m.pairs.get p = some old)
    (hnew : m₀.pairs.size ≤ p) (hv : m₀.objects.size ≤ pair.value) :
    Extends m₀ { m with pairs := m.pairs.set p pair } :=
  { he with pairs := he.pairs.set hp hnew pair, newPairs := he.newPairs.set hp hv }

theorem allocString (he : Extends m₀ m) (string : CString) :
    Extends m₀ { m with strings := m.strings.alloc string } :=
  { he with strings := he.strings.alloc string }

theorem allocData (he : Extends m₀ m) (bytes : List UInt8) :
    Extends m₀ { m with data := m.data.alloc bytes } :=
  { he with data := he.data.alloc bytes }

end Extends
/-! ## Queues of new objects -/

theorem extends_store (he : Extends m₀ m) (hc : m₀.objects.size ≤ cellObject c)
    (hp : ∀ e ∈ p, m₀.objects.size ≤ e) (hs : m.store c p = .ok m') : Extends m₀ m' := by
  cases c with
  | first h =>
    obtain ⟨o, ho, hs⟩ := bind_eq_ok.mp hs
    obtain ⟨⟨first, last⟩, hhead, hs⟩ := bind_eq_ok.mp hs
    cases hs
    have ho := get_of_deref ho
    have hold := he.newObjects h o hc ho
    have hu := hold.xoU
    rw [xoU_of_arrayHead hhead] at hu
    exact he.setObject ho hc ⟨⟨hp, hu.2⟩, hold.xoLink⟩
  | next e =>
    obtain ⟨o, ho, hs⟩ := bind_eq_ok.mp hs
    cases hs
    have ho := get_of_deref ho
    have hold := he.newObjects e o hc ho
    refine he.setObject ho hc ⟨hold.xoU, fun q hq => ?_, hold.xoLink.prev⟩
    obtain rfl : p = q := Option.some.inj hq
    exact hp

theorem extends_setPrev (he : Extends m₀ m) (hx : m₀.objects.size ≤ x)
    (hc : m₀.objects.size ≤ cellObject c) (hs : m.setPrev x c = .ok m') : Extends m₀ m' := by
  obtain ⟨o, ho, hs⟩ := bind_eq_ok.mp hs
  cases hs
  have ho := get_of_deref ho
  have hold := he.newObjects x o hx ho
  refine he.setObject ho hx ⟨hold.xoU, hold.xoLink.next, fun c' hset => ?_⟩
  obtain rfl : c = c' := Option.some.inj hset
  exact hc

theorem extends_setLast (he : Extends m₀ m) (hx : m₀.objects.size ≤ x)
    (hc : m₀.objects.size ≤ cellObject c) (hs : m.setLast x c = .ok m') : Extends m₀ m' := by
  obtain ⟨o, ho, hs⟩ := bind_eq_ok.mp hs
  obtain ⟨⟨first, last⟩, hhead, hs⟩ := bind_eq_ok.mp hs
  cases hs
  have ho := get_of_deref ho
  have hold := he.newObjects x o hx ho
  have hu := hold.xoU
  rw [xoU_of_arrayHead hhead] at hu
  exact he.setObject ho hx ⟨⟨hu.1, hc⟩, hold.xoLink⟩

theorem tqhLast_new (he : Extends m₀ m) (hx : m₀.objects.size ≤ x) (hc : m.tqhLast x = .ok c) :
    m₀.objects.size ≤ cellObject c := by
  obtain ⟨o, ho, hc⟩ := bind_eq_ok.mp hc
  obtain ⟨⟨first, last⟩, hhead, hc⟩ := bind_eq_ok.mp hc
  cases hc
  have hu := (he.newObjects x o hx (get_of_deref ho)).xoU
  rw [xoU_of_arrayHead hhead] at hu
  exact hu.2

theorem extends_insertTail (he : Extends m₀ m) (hx : m₀.objects.size ≤ x) (hn : m₀.objects.size ≤ e)
    (hi : m.insertTail x e = .ok m') : Extends m₀ m' := by
  obtain ⟨m₁, h₁, hi⟩ := bind_eq_ok.mp hi
  obtain ⟨c, hc, hi⟩ := bind_eq_ok.mp hi
  obtain ⟨m₂, h₂, hi⟩ := bind_eq_ok.mp hi
  obtain ⟨d, hd, hi⟩ := bind_eq_ok.mp hi
  obtain ⟨m₃, h₃, hi⟩ := bind_eq_ok.mp hi
  have he₁ := extends_store (c := .next e) he hn (by simp) h₁
  have he₂ := extends_setPrev he₁ hn (tqhLast_new he₁ hx hc) h₂
  have he₃ := extends_store he₂ (tqhLast_new he₂ hx hd) (by simpa using hn) h₃
  exact extends_setLast (c := .next e) he₃ hx hn hi

theorem extends_setBack (he : Extends m₀ m) (hx : m₀.objects.size ≤ x)
    (hp : ∀ e ∈ p, m₀.objects.size ≤ e) (hc : m₀.objects.size ≤ cellObject c)
    (hs : m.setBack x p c = .ok m') : Extends m₀ m' := by
  cases p with
  | some n => exact extends_setPrev he (hp n rfl) hc hs
  | none => exact extends_setLast he hx hc hs

theorem extends_insertAfter {listelm : ObjId} (he : Extends m₀ m) (hx : m₀.objects.size ≤ x)
    (hl : m₀.objects.size ≤ listelm) (hn : m₀.objects.size ≤ e)
    (hi : m.insertAfter x listelm e = .ok m') : Extends m₀ m' := by
  obtain ⟨q, hq, hi⟩ := bind_eq_ok.mp hi
  obtain ⟨m₁, h₁, hi⟩ := bind_eq_ok.mp hi
  obtain ⟨r, hr, hi⟩ := bind_eq_ok.mp hi
  obtain ⟨m₂, h₂, hi⟩ := bind_eq_ok.mp hi
  obtain ⟨m₃, h₃, hi⟩ := bind_eq_ok.mp hi
  have he₁ := extends_store (c := .next e) he hn (he.tqeNext_new hl hq) h₁
  have he₂ := extends_setBack (c := .next e) he₁ hx (he₁.tqeNext_new hn hr) hn h₂
  have he₃ := extends_store (c := .next listelm) he₂ hl (by simpa using hn) h₃
  exact extends_setPrev (c := .next listelm) he₃ hn hl hi

theorem extends_remove (he : Extends m₀ m) (hx : m₀.objects.size ≤ x) (hn : m₀.objects.size ≤ e)
    (hi : m.remove x e = .ok m') : Extends m₀ m' := by
  obtain ⟨q, hq, hi⟩ := bind_eq_ok.mp hi
  obtain ⟨c, hc, hi⟩ := bind_eq_ok.mp hi
  obtain ⟨m₁, h₁, hi⟩ := bind_eq_ok.mp hi
  obtain ⟨d, hd, hi⟩ := bind_eq_ok.mp hi
  obtain ⟨r, hr, hi⟩ := bind_eq_ok.mp hi
  have he₁ := extends_setBack he hx (he.tqeNext_new hn hq) (he.tqePrev_new hn hc) h₁
  exact extends_store he₁ (he₁.tqePrev_new hn hd) (he₁.tqeNext_new hn hr) hi

end Extensions
end Memory

/-! ## What the operations leave alone -/

section Operations

open Memory

variable {m₀ m m' : Memory} {x d a v : ObjId} {o : ObjectBlock} {k : CString} {n i : ℕ}

theorem extends_xpcPrimCreate (he : Extends m₀ m) {value : XpcU} (size : ℕ) (hv : m₀.NewU value) :
    Extends m₀ (xpcPrimCreate m value size).1 :=
  he.allocObject ⟨hv, by simp, by simp⟩

theorem extends_xpcStringCreate (he : Extends m₀ m) (string : CString) :
    Extends m₀ (xpcStringCreate m string).1 :=
  extends_xpcPrimCreate (he.allocString string) _ he.strings.size_le

theorem extends_xpcDataCreate (he : Extends m₀ m) (bytes : List UInt8) :
    Extends m₀ (xpcDataCreate m bytes).1 :=
  extends_xpcPrimCreate (he.allocData bytes) _ he.data.size_le

theorem extends_leafCreate (he : Extends m₀ m) (word : UInt64) (w : Leaf) :
    Extends m₀ (leafCreate m word w).1 ∧ m₀.objects.size ≤ (leafCreate m word w).2 := by
  cases w with
  | string string => exact ⟨extends_xpcStringCreate he string, he.objects.size_le⟩
  | data bytes => exact ⟨extends_xpcDataCreate he bytes, he.objects.size_le⟩
  | _ => exact ⟨extends_xpcPrimCreate he _ trivial, he.objects.size_le⟩

theorem extends_xpcDictionaryCreate (he : Extends m₀ m) : Extends m₀ (xpcDictionaryCreate m).1 :=
  extends_xpcPrimCreate he 0 (List.forall_mem_nil _)

theorem extends_xpcArrayCreate (he : Extends m₀ m) : Extends m₀ (xpcArrayCreate m).1 :=
  extends_xpcPrimCreate he 0 ⟨by simp, he.objects.size_le⟩

theorem extends_xpcRetain (he : Extends m₀ m) (hx : m₀.objects.size ≤ x)
    (hr : xpcRetain m x = .ok m') : Extends m₀ m' := by
  obtain ⟨o, ho, hr⟩ := bind_eq_ok.mp hr
  cases hr
  have ho := get_of_deref ho
  have hold := he.newObjects x o hx ho
  exact he.setObject ho hx ⟨hold.xoU, hold.xoLink⟩

/-- The pair that is found is one of the dictionary. -/
theorem findPair_mem {ps : List ℕ} {p : ℕ} (hf : findPair m k ps = .ok (some p)) :
    p ∈ ps ∧ ∃ pair, m.pairs.get p = some pair := by
  induction ps with
  | nil => cases hf
  | cons q ps ih =>
    obtain ⟨pair, hq, hf⟩ := bind_eq_ok.mp hf
    split_ifs at hf
    · cases hf
      exact ⟨List.mem_cons_self, pair, get_of_deref hq⟩
    · obtain ⟨hmem, hpair⟩ := ih hf
      exact ⟨List.mem_cons_of_mem q hmem, hpair⟩

theorem extends_xpcDictionarySetValue (he : Extends m₀ m) (hd : m₀.objects.size ≤ d)
    (hv : m₀.objects.size ≤ v) (hset : xpcDictionarySetValue m d k v = .ok m') : Extends m₀ m' := by
  obtain ⟨o, ho, hset⟩ := bind_eq_ok.mp hset
  obtain ⟨head, hhead, hset⟩ := bind_eq_ok.mp hset
  obtain ⟨found, hfind, hset⟩ := bind_eq_ok.mp hset
  have ho := get_of_deref ho
  have hold := he.newObjects d o hd ho
  have hu := hold.xoU
  rw [xoU_of_dictHead hhead] at hu
  cases found with
  | some p =>
    obtain ⟨hmem, -⟩ := findPair_mem hfind
    obtain ⟨pair, hp, hset⟩ := bind_eq_ok.mp hset
    cases hset
    exact he.setPair (get_of_deref hp) (hu p hmem) hv
  | none =>
    have hnew : m₀.NewObject
        { o with xoSize := o.xoSize + 1, xoU := .dict (head ++ [m.pairs.size]) } :=
      ⟨List.forall_mem_append.mpr ⟨hu, List.forall_mem_singleton.mpr he.pairs.size_le⟩, hold.xoLink⟩
    exact extends_xpcRetain (Extends.setObject (he.allocPair hv) ho hd hnew) hv hset

theorem extends_xpcArrayAppendValue (he : Extends m₀ m) (ha : m₀.objects.size ≤ a)
    (hv : m₀.objects.size ≤ v) (hset : xpcArrayAppendValue m a v = .ok m') : Extends m₀ m' := by
  obtain ⟨m₁, hinsert, hset⟩ := bind_eq_ok.mp hset
  exact extends_xpcRetain (extends_insertTail he ha hv hinsert) hv hset

theorem extends_xpcArraySetValue (he : Extends m₀ m) (ha : m₀.objects.size ≤ a)
    (hv : m₀.objects.size ≤ v) (hset : xpcArraySetValue m a i v = .ok m') : Extends m₀ m' := by
  unfold xpcArraySetValue at hset
  split_ifs at hset
  · exact extends_xpcArrayAppendValue he ha hv hset
  · obtain ⟨o, ho, hset⟩ := bind_eq_ok.mp hset
    obtain ⟨⟨first, last⟩, hhead, hset⟩ := bind_eq_ok.mp hset
    have hu := (he.newObjects a o ha (get_of_deref ho)).xoU
    rw [xoU_of_arrayHead hhead] at hu
    split_ifs at hset
    · cases hset
      exact he
    · obtain ⟨found, hnth, hset⟩ := bind_eq_ok.mp hset
      cases found with
      | none =>
        cases hset
        exact he
      | some old =>
        have hold : m₀.objects.size ≤ old := he.nth_new hu.1 hnth
        obtain ⟨m₁, hinsert, hset⟩ := bind_eq_ok.mp hset
        obtain ⟨m₂, hremove, hset⟩ := bind_eq_ok.mp hset
        obtain ⟨m₃, hretain, hset⟩ := bind_eq_ok.mp hset
        obtain ⟨-, -, hset⟩ := bind_eq_ok.mp hset
        cases hset
        have he₁ := extends_insertAfter he ha hv hold hinsert
        have he₂ := extends_remove he₁ ha hold hremove
        exact (extends_xpcRetain he₂ hv hretain).freeObject hold

/-! ## What copying leaves alone -/

section Loops

variable {σ : Type} {mem : σ → Memory} {I : σ → Prop} {s s' : σ} {b : Bool}

theorem applyPairs_preserves {f : CString → ObjId → σ → Except Fault (σ × Bool)}
    (hstep : ∀ k v s s' b, I s → f k v s = .ok (s', b) → I s') {ps : List ℕ} (hs : I s)
    (he : applyPairs mem f ps s = .ok (s', b)) : I s' := by
  induction ps generalizing s with
  | nil =>
    cases he
    exact hs
  | cons p ps ih =>
    obtain ⟨pair, -, he⟩ := bind_eq_ok.mp he
    obtain ⟨⟨s₁, go⟩, h₁, he⟩ := bind_eq_ok.mp he
    have hs₁ := hstep pair.key pair.value s s₁ go hs h₁
    cases go with
    | true => exact ih hs₁ he
    | false =>
      cases he
      exact hs₁

theorem applyElems_preserves {f : ℕ → ObjId → σ → Except Fault (σ × Bool)}
    (hstep : ∀ i v s s' b, I s → f i v s = .ok (s', b) → I s') {first : Option ObjId} (hs : I s)
    (he : applyElems mem f n i first s = .ok (s', b)) : I s' := by
  induction n generalizing i first s with
  | zero =>
    cases first with
    | none =>
      cases he
      exact hs
    | some e => cases he
  | succ n ih =>
    cases first with
    | none =>
      cases he
      exact hs
    | some e =>
      obtain ⟨⟨s₁, go⟩, h₁, he⟩ := bind_eq_ok.mp he
      have hs₁ := hstep i e s s₁ go hs h₁
      cases go with
      | true =>
        obtain ⟨next, -, he⟩ := bind_eq_ok.mp he
        exact ih hs₁ he
      | false =>
        cases he
        exact hs₁

end Loops

/-- What a call allocates is new, and so is its result. -/
def CopiesNew (copy : Memory → ObjId → Except Fault (Memory × Option ObjId)) : Prop :=
  ∀ m x m' r, copy m x = .ok (m', r) → Extends m m' ∧ ∀ y ∈ r, m.objects.size ≤ y

section Callbacks

variable {copy : Memory → ObjId → Except Fault (Memory × Option ObjId)} {b : Bool}

theorem extends_dictCopyCb (hn : CopiesNew copy) (he : Extends m₀ m) (hd : m₀.objects.size ≤ d)
    (hcb : dictCopyCb copy d k v m = .ok (m', b)) : Extends m₀ m' := by
  obtain ⟨⟨m₁, r⟩, hcopy, hcb⟩ := bind_eq_ok.mp hcb
  obtain ⟨he₁, hnew⟩ := hn m v m₁ r hcopy
  cases r with
  | none => cases hcb
  | some y =>
    obtain ⟨m₂, hset, hcb⟩ := bind_eq_ok.mp hcb
    cases hcb
    exact extends_xpcDictionarySetValue (he.trans he₁) hd
      (Nat.le_trans he.objects.size_le (hnew y rfl)) hset

theorem extends_arrayCopyCb (hn : CopiesNew copy) (he : Extends m₀ m) (ha : m₀.objects.size ≤ a)
    (hcb : arrayCopyCb copy a i v m = .ok (m', b)) : Extends m₀ m' := by
  obtain ⟨⟨m₁, r⟩, hcopy, hcb⟩ := bind_eq_ok.mp hcb
  obtain ⟨he₁, hnew⟩ := hn m v m₁ r hcopy
  cases r with
  | none =>
    obtain ⟨o, -, hcb⟩ := bind_eq_ok.mp hcb
    split_ifs at hcb
    cases hcb
    exact he.trans he₁
  | some y =>
    obtain ⟨m₂, hset, hcb⟩ := bind_eq_ok.mp hcb
    cases hcb
    exact extends_xpcArraySetValue (he.trans he₁) ha
      (Nat.le_trans he.objects.size_le (hnew y rfl)) hset

end Callbacks

theorem extends_copyScalar (m : Memory) (v : Scalar) (word : UInt64) :
    Extends m (copyScalar m v word).1 ∧ ∀ y ∈ (copyScalar m v word).2, m.objects.size ≤ y := by
  have hprim : Extends m (xpcPrimCreate m (.scalar v word) 1).1 :=
    extends_xpcPrimCreate (.refl m) 1 trivial
  cases v with
  | null | double _ | fd _ | uuid _ | connection _ => exact ⟨.refl m, by simp [copyScalar]⟩
  | _ => exact ⟨hprim, fun y hy => Nat.le_of_eq (Option.some.inj hy)⟩

/-- What a copy has allocated refers to nothing that was there, the copy included. -/
theorem extends_xpcCopy : CopiesNew (xpcCopy n) := by
  induction n with
  | zero =>
    intro m x m' r he
    cases he
  | succ n ih =>
    intro m x m' r he
    obtain ⟨o, -, he⟩ := bind_eq_ok.mp he
    cases hu : o.xoU with
    | scalar v word =>
      simp only [hu, Except.ok.injEq] at he
      have hcopied := extends_copyScalar m v word
      rwa [he] at hcopied
    | str s =>
      simp only [hu] at he
      obtain ⟨string, -, he⟩ := bind_eq_ok.mp he
      obtain ⟨dup, -, he⟩ := bind_eq_ok.mp he
      cases he
      refine ⟨extends_xpcStringCreate ((Extends.refl m).allocString string) dup, fun y hy => ?_⟩
      exact Nat.le_of_eq (Option.some.inj hy)
    | data ptr =>
      simp only [hu] at he
      obtain ⟨newdata, -, he⟩ := bind_eq_ok.mp he
      cases he
      refine ⟨extends_xpcDataCreate (Extends.refl m) _, fun y hy => ?_⟩
      exact Nat.le_of_eq (Option.some.inj hy)
    | dict head =>
      simp only [hu] at he
      obtain ⟨⟨m₁, b⟩, happly, he⟩ := bind_eq_ok.mp he
      cases he
      refine ⟨?_, fun y hy => Nat.le_of_eq (Option.some.inj hy)⟩
      obtain ⟨o', -, happly⟩ := bind_eq_ok.mp happly
      obtain ⟨head', -, happly⟩ := bind_eq_ok.mp happly
      exact applyPairs_preserves (fun _ _ _ _ _ hs => extends_dictCopyCb ih hs (Nat.le_refl _))
        (extends_xpcDictionaryCreate (Extends.refl m)) happly
    | array first last =>
      simp only [hu] at he
      obtain ⟨⟨m₁, b⟩, happly, he⟩ := bind_eq_ok.mp he
      cases he
      refine ⟨?_, fun y hy => Nat.le_of_eq (Option.some.inj hy)⟩
      obtain ⟨o', -, happly⟩ := bind_eq_ok.mp happly
      obtain ⟨⟨first', last'⟩, -, happly⟩ := bind_eq_ok.mp happly
      exact applyElems_preserves (fun _ _ _ _ _ hs => extends_arrayCopyCb ih hs (Nat.le_refl _))
        (extends_xpcArrayCreate (Extends.refl m)) happly

end Operations

end OpenXPC.Blocks
