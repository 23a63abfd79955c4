import Mathlib.Order.Interval.Finset.Nat
import OpenXPC.Ownership

/-! # What is left allocated

The library allocates the structs of objects, the pairs of dictionaries and the
buffers of strings and data, and dups descriptors. A pair is allocated when it is
added to its dictionary and freed when it is removed, so the pairs allocated are
those of the live dictionaries. Buffers and descriptors are counted. -/
namespace OpenXPC.Leaks
open InsertionMap GuardedRuns Ownership
open Lifetimes (CountsUpTo HasArray Sound Usable)

/-! ## The machine -/

/-- The calls of the lifetime runs, the typed setters and copies. Of the calls on
connections there is only the creation of one, as a leaf: none is resumed, cancelled or
sent over. -/
inductive Op
  | call (op : Lifetimes.Op)
  | dictionarySetLeaf (xdict : ObjId) (key : CString) (v : Leaf)
  | arraySetLeaf (xarray : ObjId) (index : ℕ) (v : Leaf)
  | copy (fuel : ℕ) (obj : ObjId)

/-- Besides, the buffers and descriptors that the library has not given back. -/
structure State extends Lifetimes.State where
  buffers : ℕ
  descriptors : ℕ

def execHeap (h : Heap (List ObjId)) : Op → Except Fault (Heap (List ObjId))
  | .call op => Lifetimes.execHeap h op
  | .dictionarySetLeaf d k v => dictionarySetLeaf h d k v
  | .arraySetLeaf a i v => Arrays.arraySetLeaf h a i v
  | .copy n x => (xpcCopy n h x).map Prod.fst

/-- The client owns a copy; what a typed setter creates it never gets hold of. -/
def ownedAfter (s : State) : Op → ObjId → ℕ
  | .call op => Lifetimes.ownedAfter s.toState op
  | .dictionarySetLeaf _ _ _ => s.owned
  | .arraySetLeaf _ _ _ => s.owned
  | .copy n x =>
    match xpcCopy n s.heap x with
    | .ok (_, some y) => Function.update s.owned y 1
    | _ => s.owned

/-- `strdup` or `malloc` for a string, for data or for the name of a connection, and a
second `strdup` where `xpc_copy` duplicates a string before it creates the copy. -/
def bufferCount (op : Op) (o : XpcObject (List ObjId)) : ℕ :=
  match op, o.xoU with
  | .copy _ _, .leaf (.string _) => 2
  | _, .leaf (.string _) => 1
  | _, .leaf (.data _) => 1
  | _, .leaf (.connection _) => 1
  | _, _ => 0

def descriptorCount (o : XpcObject (List ObjId)) : ℕ :=
  match o.xoU with
  | .leaf (.fd _) => 1
  | _ => 0

/-- Over the objects that are new in the second heap. -/
def madeSince (f : XpcObject (List ObjId) → ℕ) (h h' : Heap (List ObjId)) : ℕ :=
  ∑ x ∈ Finset.Ico h.size h'.size, h'.weight f x

/-- The destructor gives back neither buffers nor descriptors. -/
def exec (s : State) (op : Op) : Except Fault State := do
  let heap ← execHeap s.heap op
  .ok { heap, owned := ownedAfter s op,
        buffers := s.buffers + madeSince (bufferCount op) s.heap heap,
        descriptors := s.descriptors + madeSince descriptorCount s.heap heap }

/-- Objects passed are usable and of the right type; a copy is one that returns. -/
def allowed (s : State) : Op → Prop
  | .call op => Lifetimes.allowed s.toState op
  | .dictionarySetLeaf d _ _ => IsDictionary s.heap d
  | .arraySetLeaf a _ _ => HasArray s.heap a
  | .copy n x => Usable s.toState x ∧ ∃ r, xpcCopy n s.heap x = .ok r

def machine : Machine State Op Fault := ⟨allowed, exec⟩

def Initial (s : State) : Prop :=
  Lifetimes.Initial s.toState ∧ s.buffers = 0 ∧ s.descriptors = 0

/-- When the client owns no reference any more, no object is left, and with them no
pair, and no buffer and no descriptor. A second free of an object is a fault of the run. -/
def LeavesNothing (s : State) : Prop :=
  (∀ x, s.owned x = 0) → (∀ x, s.heap.get x = none) ∧ s.buffers = 0 ∧ s.descriptors = 0

/-! ## The condition -/

/-- No buffer or descriptor is made, no key is set again to another value, no cycle is
made, a typed array setter appends, no array is copied with an element that `xpc_copy`
copies, no counter overflows, and what is below an object whose last reference goes is
held by one slot each. -/
def Frugal (s : State) : Op → Prop
  | .call (.createLeaf v) => Bufferless v
  | .call (.createArray objects) => ∀ v, CountsUpTo s.heap v (objects.count v)
  | .call (.createDictionary entries) =>
    (∀ p ∈ entries, ∀ q ∈ entries, p.1 = q.1 → p.2 = q.2) ∧
      ∀ v, CountsUpTo s.heap v (((build entries).map Prod.snd).count v)
  | .call (.retain x) => CountsUpTo s.heap x 1
  | .call (.release x) => ∀ o, s.heap.get x = some o → o.xoRefcnt = 1 →
    ∀ y, Relation.TransGen s.heap.Slot x y → s.owned y = 0 ∧ s.heap.slotsTo y = 1
  | .call (.dictionarySetValue d k v) => ∀ o ps, s.heap.get d = some o →
    o.xoU = .dictionary ps → ps.lookup k = some v ∨ (ps.lookup k = none ∧ Insertable s.heap d v)
  | .call (.arrayAppendValue a v) => Insertable s.heap a v
  | .call (.arraySetValue a i v) => i = xpcArrayAppend → Insertable s.heap a v
  | .dictionarySetLeaf d k v => Bufferless v ∧ ∀ o ps, s.heap.get d = some o →
    o.xoU = .dictionary ps → ps.lookup k = none
  | .arraySetLeaf _ i v => Bufferless v ∧ i = xpcArrayAppend
  | .copy _ x => ∀ y o, Relation.ReflTransGen s.heap.Slot x y → s.heap.get y = some o →
    CopiedWhole s.heap o

/-! ## What the steps preserve -/

/-- There is an account of all references, and no buffer or descriptor is left. -/
def Balanced (s : State) : Prop :=
  (∃ lib, Kept s.heap s.owned lib) ∧ s.buffers = 0 ∧ s.descriptors = 0

theorem Balanced.leavesNothing {s : State} (hs : Balanced s) : LeavesNothing s := by
  obtain ⟨⟨lib, hk⟩, hb, hd⟩ := hs
  exact fun hzero => ⟨hk.get_eq_none hzero, hb, hd⟩

theorem bufferCount_of_bare {o : XpcObject (List ObjId)} (op : Op) (ho : Bare o) :
    bufferCount op o = 0 := by
  unfold Bare at ho
  unfold bufferCount
  split <;> simp_all [Bufferless]

theorem descriptorCount_of_bare {o : XpcObject (List ObjId)} (ho : Bare o) :
    descriptorCount o = 0 := by
  unfold Bare at ho
  unfold descriptorCount
  split <;> simp_all [Bufferless]

theorem madeSince_eq_zero {h h' : Heap (List ObjId)} {f : XpcObject (List ObjId) → ℕ}
    (hf : ∀ o, Bare o → f o = 0) (hbare : ∀ y o, h.size ≤ y → h'.get y = some o → Bare o) :
    madeSince f h h' = 0 := by
  apply Finset.sum_eq_zero
  intro y hy
  cases ho : h'.get y with
  | none => simp [Heap.weight, ho]
  | some o =>
    rw [Heap.weight_of_get ho]
    exact hf o (hbare y o (Finset.mem_Ico.mp hy).1 ho)

/-- What a call does to the heap decides whether the balance is kept. -/
def KeepsBalance (s : State) (op : Op) : Prop :=
  ∃ h' lib, execHeap s.heap op = .ok h' ∧ Kept h' (ownedAfter s op) lib ∧
    ∀ y o, s.heap.size ≤ y → h'.get y = some o → Bare o

theorem Balanced.exec {s : State} {op : Op} (hs : Balanced s) (hk : KeepsBalance s op) :
    ∃ s', exec s op = .ok s' ∧ Balanced s' := by
  obtain ⟨h', lib, he, hkept, hbare⟩ := hk
  obtain ⟨-, hb, hd⟩ := hs
  have hb' : s.buffers + madeSince (bufferCount op) s.heap h' = 0 := by
    rw [hb, madeSince_eq_zero (fun o => bufferCount_of_bare op) hbare]
  have hd' : s.descriptors + madeSince descriptorCount s.heap h' = 0 := by
    rw [hd, madeSince_eq_zero (fun o => descriptorCount_of_bare) hbare]
  exact ⟨_, by rw [Leaks.exec, he]; rfl, ⟨lib, hkept⟩, hb', hd'⟩

variable {s : State} {lib : ObjId → ℕ}

theorem keepsBalance_call {op : Lifetimes.Op} (hk : Kept s.heap s.owned lib)
    (ha : Lifetimes.allowed s.toState op) (hc : Frugal s (.call op)) : KeepsBalance s (.call op) := by
  cases op with
  | createLeaf v =>
    exact ⟨_, lib, rfl, (hk.fresh_leaf v).kept, (extends_leaf s.heap hc).bare⟩
  | createArray objects =>
    obtain ⟨h', he, hs', hbare⟩ := hk.createArray ha hc
    exact ⟨h', lib, by simp [execHeap, Lifetimes.execHeap, he, Except.map], hs', hbare⟩
  | createDictionary entries =>
    obtain ⟨h', he, hs', hbare⟩ := hk.createDictionary ha hc.1 hc.2
    exact ⟨h', lib, by simp [execHeap, Lifetimes.execHeap, he, Except.map], hs', hbare⟩
  | retain x =>
    obtain ⟨h', he, hs'⟩ := hk.retain ha hc
    exact ⟨h', lib, he, hs', (nothingNew_retain he).bare⟩
  | release x =>
    obtain ⟨h', lib', he, hnew, hs'⟩ := hk.release ha hc
    exact ⟨h', lib', he, hs', hnew.bare⟩
  | dictionarySetValue d k v =>
    obtain ⟨o, ps, hd, ho⟩ := ha.1
    obtain ⟨h', he, hs', -⟩ := hk.dictionarySet hd ho ha.2 (hc o ps hd ho)
    exact ⟨h', lib, he, hs', (nothingNew_dictionarySet he).bare⟩
  | arrayAppendValue a v =>
    obtain ⟨o, es, harr, ho⟩ := ha.1
    obtain ⟨h', he, hs', -⟩ := hk.append harr ho ha.2 hc
    exact ⟨h', lib, he, hs', (nothingNew_append he).bare⟩
  | arraySetValue a i v =>
    obtain ⟨o, es, harr, ho⟩ := ha.1
    by_cases hi : i = xpcArrayAppend
    · obtain ⟨h', he, hs', -⟩ := hk.append harr ho ha.2 (hc hi)
      have hset : execHeap s.heap (.call (.arraySetValue a i v)) = .ok h' := (if_pos hi).trans he
      exact ⟨h', lib, hset, hs', (nothingNew_append he).bare⟩
    · -- no index is in range, so nothing is set
      have hsize := hk.sound.unsized a o harr es ho
      refine ⟨s.heap, lib, ?_, hk, (Extends.refl s.heap).bare⟩
      simp [execHeap, Lifetimes.execHeap, Arrays.xpcArraySetValue, hi, Heap.deref_of_get harr,
        XpcObject.arr_of_xoU ho, hsize]

theorem balanced_step {op : Op} (hs : Balanced s) (ha : allowed s op) (hc : Frugal s op) :
    ∃ s', exec s op = .ok s' ∧ Balanced s' := by
  obtain ⟨⟨lib, hk⟩, -⟩ := id hs
  apply hs.exec
  cases op with
  | call op => exact keepsBalance_call hk ha hc
  | dictionarySetLeaf d k v =>
    obtain ⟨o, ps, hd, ho⟩ := ha
    obtain ⟨h', lib', he, hs', hbare⟩ := hk.dictionarySetLeaf hd ho hc.1 (hc.2 o ps hd ho)
    exact ⟨h', lib', he, hs', hbare⟩
  | arraySetLeaf a i v =>
    obtain ⟨o, es, harr, ho⟩ := ha
    obtain ⟨hv, rfl⟩ := hc
    obtain ⟨h', lib', he, hs', hbare⟩ := hk.arraySetLeaf harr ho hv
    exact ⟨h', lib', he, hs', hbare⟩
  | copy n x =>
    obtain ⟨-, ⟨h', r⟩, he⟩ := ha
    have hcopied := copiesWell n hk hc he
    have hheap : execHeap s.heap (.copy n x) = .ok h' := by simp [execHeap, he, Except.map]
    cases r with
    | none =>
      have howned : ownedAfter s (.copy n x) = s.owned := by simp [ownedAfter, he]
      exact ⟨h', lib, hheap, by rw [howned, show h' = s.heap from hcopied]; exact hk,
        hcopied.grows.bare⟩
    | some y =>
      have howned : ownedAfter s (.copy n x) = Function.update s.owned y 1 := by
        simp [ownedAfter, he]
      obtain ⟨lib', hfresh⟩ := hcopied.2.2
      exact ⟨h', lib', hheap, by rw [howned]; exact hfresh.kept, hcopied.grows.bare⟩

theorem balanced_initial (hs : Initial s) : Balanced s := by
  have hnone : ∀ x, s.heap.get x = none := fun x => Heap.get_of_size_le (hs.1.1 ▸ Nat.zero_le x)
  have hslot : ∀ x y, ¬ s.heap.Slot x y := by
    intro x y hxy
    obtain ⟨o, ho, -⟩ := hxy
    rw [hnone x] at ho
    cases ho
  have hsound : Sound s.heap (allOwned s.owned (fun _ => 0)) := Lifetimes.sound_initial hs.1
  refine ⟨⟨fun _ => 0, hsound, fun x hx => absurd hx (Nat.lt_irrefl 0), fun x o ho => ?_,
    fun x hx => ?_, fun x o ho => ?_⟩, hs.2⟩
  · rw [hnone x] at ho
    cases ho
  · obtain ⟨y, hy, -⟩ := Relation.TransGen.head'_iff.mp hx
    exact hslot x y hy
  · rw [hnone x] at ho
    cases ho

/-- In a run whose steps are all frugal nothing is left in any state where the client
owns no reference. -/
theorem leavesNothing_of_frugal {tr : List (Op × Except Fault State)} (hs : Initial s)
    (hr : Run machine s tr) (hc : Meets Frugal s tr) : ∀ p ∈ tr, Holds LeavesNothing p.2 :=
  hr.holds (fun _ _ hs ha hc => balanced_step hs ha hc) (fun _ hs => hs.leavesNothing)
    (balanced_initial hs) hc

def noObjects : State := ⟨Lifetimes.noObjects, 0, 0⟩

/-- Below the objects of a heap are only those that its slots hold. -/
theorem forall_below {s : State} {P : ObjId → Prop} {x : ObjId}
    (hP : ∀ o, some o ∈ s.heap.objs → ∀ y ∈ o.slots, P y) (y : ObjId)
    (hy : Relation.TransGen s.heap.Slot x y) : P y := by
  obtain ⟨z, -, o, ho, hmem⟩ := Relation.TransGen.tail'_iff.mp hy
  exact hP o (Heap.mem_of_get ho) y hmem

/-- A dictionary with one pair and its copy are released. -/
theorem copied_leavesNothing : ∃ s₁ s₂ s₃ s₄ s₅, Run machine noObjects
      [(.call (.createDictionary []), .ok s₁), (.dictionarySetLeaf 0 keyK (.bool true), .ok s₂),
        (.copy 2 0, .ok s₃), (.call (.release 0), .ok s₄), (.call (.release 2), .ok s₅)] ∧
    s₃.heap.size = 4 ∧ (∀ x, s₅.owned x = 0) ∧ LeavesNothing s₅ := by
  have hr : ∃ s₁ s₂ s₃ s₄ s₅, (Run machine noObjects
        [(.call (.createDictionary []), .ok s₁), (.dictionarySetLeaf 0 keyK (.bool true), .ok s₂),
          (.copy 2 0, .ok s₃), (.call (.release 0), .ok s₄), (.call (.release 2), .ok s₅)] ∧
      s₃.heap.size = 4 ∧ ∀ x, s₅.owned x = 0) ∧
      Frugal noObjects (.call (.createDictionary [])) ∧
      Frugal s₁ (.dictionarySetLeaf 0 keyK (.bool true)) ∧ Frugal s₂ (.copy 2 0) ∧
      Frugal s₃ (.call (.release 0)) ∧ Frugal s₄ (.call (.release 2)) := by
    refine ⟨_, _, _, _, _, ⟨.step (fun p hp => by cases hp) rfl (.step ⟨_, _, rfl, rfl⟩ rfl
      (.step ⟨Nat.one_pos, _, rfl⟩ rfl (.step Nat.one_pos rfl (.step Nat.one_pos rfl (.nil _))))),
      rfl, ?_⟩, ?_, ?_, ?_, ?_, ?_⟩
    · intro x
      change Function.update (Function.update (Function.update (Function.update (fun _ => 0) 0 1)
        2 1) 0 0) 2 0 x = 0
      simp only [Function.update_apply]
      split_ifs <;> rfl
    · exact ⟨fun p hp => absurd hp List.not_mem_nil, fun v o ho => by cases ho⟩
    · refine ⟨trivial, fun o ps ho hu => ?_⟩
      cases ho
      cases hu
      rfl
    · intro y o _ ho
      have hmem : some o ∈ [some (⟨0, 1, 1, .dictionary [(keyK, 1)], trivial⟩ : XpcObject (List ObjId)),
        some ⟨0, 2, 1, .leaf (.bool true), trivial⟩] := Heap.mem_of_get ho
      simp only [List.mem_cons, Option.some.injEq, List.not_mem_nil, or_false] at hmem
      rcases hmem with rfl | rfl <;> trivial
    · intro o _ _
      refine forall_below (fun p hp y hy => ?_)
      have hmem : some p ∈ [some (⟨0, 1, 1, .dictionary [(keyK, 1)], trivial⟩ : XpcObject (List ObjId)),
        some ⟨0, 2, 1, .leaf (.bool true), trivial⟩, some ⟨0, 1, 1, .dictionary [(keyK, 3)], trivial⟩,
        some ⟨0, 2, 1, .leaf (.bool true), trivial⟩] := hp
      simp only [List.mem_cons, Option.some.injEq, List.not_mem_nil, or_false] at hmem
      rcases hmem with rfl | rfl | rfl | rfl
      · cases List.mem_singleton.mp hy
        exact ⟨rfl, rfl⟩
      · cases hy
      · cases List.mem_singleton.mp hy
        exact ⟨rfl, rfl⟩
      · cases hy
    · intro o _ _
      refine forall_below (fun p hp y hy => ?_)
      have hmem : some p ∈ [none, none,
        some (⟨0, 1, 1, .dictionary [(keyK, 3)], trivial⟩ : XpcObject (List ObjId)),
        some ⟨0, 2, 1, .leaf (.bool true), trivial⟩] := hp
      simp only [List.mem_cons, Option.some.injEq, List.not_mem_nil, or_false, reduceCtorEq,
        false_or] at hmem
      rcases hmem with rfl | rfl
      · cases List.mem_singleton.mp hy
        exact ⟨rfl, rfl⟩
      · cases hy
  obtain ⟨s₁, s₂, s₃, s₄, s₅, ⟨hr, hsize, howned⟩, h₁, h₂, h₃, h₄, h₅⟩ := hr
  have hall := leavesNothing_of_frugal ⟨⟨rfl, fun _ => rfl⟩, rfl, rfl⟩ hr
    ⟨h₁, h₂, h₃, h₄, h₅, trivial⟩
  have hlast := hall (.call (.release 2), .ok s₅) (by simp)
  exact ⟨s₁, s₂, s₃, s₄, s₅, hr, hsize, howned, holds_ok.mp hlast⟩

/-- The buffer of a string is left when the string is released, and the boolean that a
typed setter put into a dictionary is left when another takes its place. -/
theorem left_behind :
    (∃ s₁ s₂, Run machine noObjects
        [(.call (.createLeaf (.string keyK)), .ok s₁), (.call (.release 0), .ok s₂)] ∧
      (∀ x, s₂.owned x = 0) ∧ s₂.buffers = 1 ∧ ¬ LeavesNothing s₂) ∧
    ∃ s₁ s₂ s₃ s₄, Run machine noObjects
        [(.call (.createDictionary []), .ok s₁), (.dictionarySetLeaf 0 keyK (.bool true), .ok s₂),
          (.dictionarySetLeaf 0 keyK (.bool false), .ok s₃), (.call (.release 0), .ok s₄)] ∧
      (∀ x, s₄.owned x = 0) ∧ (∃ o, s₄.heap.get 1 = some o) ∧ ¬ LeavesNothing s₄ := by
  have howned : ∀ x : ObjId, Function.update (Function.update (fun _ => 0) 0 1) 0 0 x = 0 := by
    intro x
    rw [Function.update_idem]
    exact congrFun (Function.update_eq_self 0 (fun _ : ObjId => 0)) x
  constructor
  · refine ⟨_, _, .step trivial rfl (.step Nat.one_pos rfl (.nil _)), howned, rfl, fun h => ?_⟩
    exact absurd (h howned).2.1 Nat.one_ne_zero
  · refine ⟨_, _, _, _, .step (fun p hp => by cases hp) rfl (.step ⟨_, _, rfl, rfl⟩ rfl
      (.step ⟨_, _, rfl, rfl⟩ rfl (.step Nat.one_pos rfl (.nil _)))), howned, ⟨_, rfl⟩, fun h => ?_⟩
    have hgone := (h howned).1 1
    cases hgone

end OpenXPC.Leaks
