import OpenXPC.Copying
import OpenXPC.Traversals

/-! # NULL in copies

For a leaf it has no case for, `xpc_copy` returns NULL. Here a NULL handed on to a
setter is a fault, also where the array setter would not look at it. -/
namespace OpenXPC
open InsertionMap

def arrayCopyCbStrict (xotmp : ObjId) (idx : ℕ) (h : Heap (List ObjId)) :
    Option ObjId → Except Fault (Heap (List ObjId))
  | none => .error .nullValue
  | some v => Arrays.xpcArraySetValue h xotmp idx v

/-- `xpc_copy`, stopped where it passes NULL to a setter. -/
def xpcCopyStrict : ℕ → Heap (List ObjId) → ObjId →
    Except Fault (Heap (List ObjId) × Option ObjId)
  | 0, _, _ => .error .outOfFuel
  | n + 1, h, obj => do
    let xo ← h.deref obj
    match xo.xoU with
    | .leaf v => .ok (copyLeaf h v)
    | .dictionary _ => do
      let (h, xotmp) ← xpcDictionaryCreate h []
      let (h, _) ← xpcDictionaryApplyFun h obj (fun k v h => do
        let (h, copy) ← xpcCopyStrict n h v
        let h ← dictCopyCb xotmp k h copy
        .ok (h, true)) h
      .ok (h, some xotmp)
    | .array _ => do
      let (h, xotmp) ← Arrays.xpcArrayCreate h []
      let (h, _) ← Arrays.xpcArrayApplyFun h obj (fun idx v h => do
        let (h, copy) ← xpcCopyStrict n h v
        let h ← arrayCopyCbStrict xotmp idx h copy
        .ok (h, true)) h
      .ok (h, some xotmp)

namespace Tree

def RootCopyable : Tree → Prop
  | .leaf v => v.Copyable
  | _ => True

/-- No element and no value in the tree is a leaf that `xpc_copy` has no case for. -/
def ChildrenCopyable (t : Tree) : Prop := t.All (fun
  | .leaf _ => True
  | .array ts => ∀ t ∈ ts, t.RootCopyable
  | .dictionary ps => ∀ p ∈ ps, p.2.RootCopyable)

end Tree

/-! ## The strict copy of a tree -/

variable {h h₀ : Heap (List ObjId)} {x d a n : ℕ} {t : Tree}

theorem arrayCopyCbStrict_agrees (a i : ℕ) (h : Heap (List ObjId)) (copy : Option ObjId) :
    AgreesUpTo .nullValue (arrayCopyCbStrict a i h copy) (arrayCopyCb a i h copy) := by
  cases copy with
  | none => exact .inl rfl
  | some y => exact .refl _

/-- As long as no NULL is passed on, the strict copy is the copy. -/
theorem xpcCopyStrict_agrees (n : ℕ) (h : Heap (List ObjId)) (x : ObjId) :
    AgreesUpTo .nullValue (xpcCopyStrict n h x) (xpcCopy n h x) := by
  induction n generalizing h x with
  | zero => exact .refl _
  | succ n ih =>
    refine (AgreesUpTo.refl _).bind (fun o => ?_)
    cases o.xoU with
    | leaf v => exact .refl _
    | dictionary ps =>
      refine (AgreesUpTo.refl _).bind (fun created => ?_)
      refine AgreesUpTo.bind ?_ (fun _ => .refl _)
      refine (AgreesUpTo.refl _).bind (fun o' => (AgreesUpTo.refl _).bind (fun qs => ?_))
      exact applyPairs_agree (fun k v s => (ih s v).bind (fun _ => .refl _)) qs _
    | array es =>
      refine (AgreesUpTo.refl _).bind (fun created => ?_)
      refine AgreesUpTo.bind ?_ (fun _ => .refl _)
      refine (AgreesUpTo.refl _).bind (fun o' => (AgreesUpTo.refl _).bind (fun xs => ?_))
      exact applyElems_agree (fun i v s => (ih s v).bind (fun r =>
        (arrayCopyCbStrict_agrees created.2 i r.1 r.2).bind (fun _ => .refl _))) xs 0 _

/-- The three outcomes of the strict copy. -/
structure CopiesStrictly (n : ℕ) (t : Tree) : Prop where
  copies : t.ChildrenCopyable → t.RootCopyable → ∀ h x, TreeAt h x t →
    ∃ h' y u, xpcCopyStrict n h x = .ok (h', some y) ∧ h.Keeps h' ∧ TreeFrom h' h.size y u
  null : ¬ t.RootCopyable → ∀ h x, TreeAt h x t → ∃ h', xpcCopyStrict n h x = .ok (h', none)
  stops : ¬ t.ChildrenCopyable → ∀ h x, TreeAt h x t → xpcCopyStrict n h x = .error .nullValue

/-- The step of the dictionary loop, for a value that can be copied. -/
theorem CopiesStrictly.dictStep (ht : CopiesStrictly n t) (hc : t.ChildrenCopyable)
    (hr : t.RootCopyable) (hx : TreeAt h₀ x t) (k : CString)
    (hf : ∃ acc, FillsDictionary h₀ h d acc) :
    ∃ h', (do
        let (h, copy) ← xpcCopyStrict n h x
        let h ← dictCopyCb d k h copy
        Except.ok (h, true)) = .ok (h', true) ∧ ∃ acc, FillsDictionary h₀ h' d acc := by
  obtain ⟨acc, hf⟩ := hf
  obtain ⟨h₁, y, u, he, hk, hy⟩ := ht.copies hc hr h x (hx.keeps (Nat.le_refl 0) hf.keeps)
  obtain ⟨h₂, hset, hf₂⟩ := hf.insert hk hy k
  exact ⟨h₂, by simp [he, dictCopyCb, hset], _, hf₂⟩

theorem CopiesStrictly.dictStep_error (ht : CopiesStrictly n t)
    (hbad : ¬ (t.RootCopyable ∧ t.ChildrenCopyable)) (hx : TreeAt h₀ x t) (k : CString)
    (hf : ∃ acc, FillsDictionary h₀ h d acc) :
    (do
      let (h, copy) ← xpcCopyStrict n h x
      let h ← dictCopyCb d k h copy
      Except.ok (h, true)) = .error .nullValue := by
  obtain ⟨acc, hf⟩ := hf
  have hx' := hx.keeps (Nat.le_refl 0) hf.keeps
  by_cases hc : t.ChildrenCopyable
  · obtain ⟨h', he⟩ := ht.null (fun hr => hbad ⟨hr, hc⟩) h x hx'
    simp [he, dictCopyCb]
  · simp [ht.stops hc h x hx']

theorem CopiesStrictly.arrayStep (ht : CopiesStrictly n t) (hc : t.ChildrenCopyable)
    (hr : t.RootCopyable) (hx : TreeAt h₀ x t) (i : ℕ) (hf : ∃ acc, FillsArray h₀ h a acc) :
    ∃ h', (do
        let (h, copy) ← xpcCopyStrict n h x
        let h ← arrayCopyCbStrict a i h copy
        Except.ok (h, true)) = .ok (h', true) ∧ ∃ acc, FillsArray h₀ h' a acc := by
  obtain ⟨acc, hf⟩ := hf
  obtain ⟨h₁, y, u, he, hk, hy⟩ := ht.copies hc hr h x (hx.keeps (Nat.le_refl 0) hf.keeps)
  obtain ⟨h₂, hset, hf₂⟩ := hf.setValue hk hy i
  exact ⟨h₂, by simp [he, arrayCopyCbStrict, hset], _, hf₂⟩

theorem CopiesStrictly.arrayStep_error (ht : CopiesStrictly n t)
    (hbad : ¬ (t.RootCopyable ∧ t.ChildrenCopyable)) (hx : TreeAt h₀ x t) (i : ℕ)
    (hf : ∃ acc, FillsArray h₀ h a acc) :
    (do
      let (h, copy) ← xpcCopyStrict n h x
      let h ← arrayCopyCbStrict a i h copy
      Except.ok (h, true)) = .error .nullValue := by
  obtain ⟨acc, hf⟩ := hf
  have hx' := hx.keeps (Nat.le_refl 0) hf.keeps
  by_cases hc : t.ChildrenCopyable
  · obtain ⟨h', he⟩ := ht.null (fun hr => hbad ⟨hr, hc⟩) h x hx'
    simp [he, arrayCopyCbStrict]
  · simp [ht.stops hc h x hx']

theorem copiesStrictly_leaf (n : ℕ) (v : Leaf) : CopiesStrictly (n + 1) (.leaf v) := by
  have hcopy : ∀ h x, TreeAt h x (.leaf v) → xpcCopyStrict (n + 1) h x = .ok (copyLeaf h v) := by
    intro h x hx
    obtain ⟨-, o, ho, hu⟩ := treeFrom_leaf.mp hx
    simp [xpcCopyStrict, Heap.deref_of_get ho, hu]
  constructor
  · intro _ hr h x hx
    refine ⟨_, h.size, .leaf v, ?_, h.keeps_alloc _, treeFrom_leafCreate h v⟩
    rw [hcopy h x hx, copyLeaf_ok hr]
    rfl
  · intro hr h x hx
    refine ⟨h, ?_⟩
    rw [hcopy h x hx]
    cases v <;> first | rfl | exact absurd trivial hr
  · exact fun hc => absurd trivial hc

theorem childrenCopyable_array {ts : List Tree} : (Tree.array ts).ChildrenCopyable ↔
    ∀ t ∈ ts, t.RootCopyable ∧ t.ChildrenCopyable := by
  simp only [Tree.ChildrenCopyable, Tree.all_array]
  exact ⟨fun h t ht => ⟨h.1 t ht, h.2 t ht⟩, fun h => ⟨fun t ht => (h t ht).1, fun t ht => (h t ht).2⟩⟩

theorem childrenCopyable_dictionary {ps : List (CString × Tree)} :
    (Tree.dictionary ps).ChildrenCopyable ↔
      ∀ p ∈ ps, p.2.RootCopyable ∧ p.2.ChildrenCopyable := by
  simp only [Tree.ChildrenCopyable, Tree.all_dictionary]
  exact ⟨fun h p hp => ⟨h.1 p hp, h.2 p hp⟩, fun h => ⟨fun p hp => (h p hp).1, fun p hp => (h p hp).2⟩⟩

theorem copyElemsStrict_ok {es : List ObjId} {ts : List Tree} (ih : ∀ t ∈ ts, CopiesStrictly n t)
    (hes : List.Forall₂ (TreeAt h₀) es ts)
    (hc : ∀ t ∈ ts, t.RootCopyable ∧ t.ChildrenCopyable) (hf : FillsArray h₀ h a []) :
    ∃ h', Arrays.applyElems (fun i x h => do
        let (h, copy) ← xpcCopyStrict n h x
        let h ← arrayCopyCbStrict a i h copy
        Except.ok (h, true)) 0 es h = .ok (h', true) ∧ ∃ acc, FillsArray h₀ h' a acc := by
  apply applyElems_ok (I := fun h => ∃ acc, FillsArray h₀ h a acc) ⟨[], hf⟩
  intro y hy i s hs
  obtain ⟨t, ht, hyt⟩ := exists_right_of_forall₂ hes hy
  obtain ⟨hr, hchildren⟩ := hc t ht
  exact (ih t ht).arrayStep hchildren hr hyt i hs

theorem copyElemsStrict_error {es : List ObjId} {ts : List Tree}
    (ih : ∀ t ∈ ts, CopiesStrictly n t) (hes : List.Forall₂ (TreeAt h₀) es ts)
    (hc : ¬ ∀ t ∈ ts, t.RootCopyable ∧ t.ChildrenCopyable) (hf : FillsArray h₀ h a []) :
    Arrays.applyElems (fun i x h => do
        let (h, copy) ← xpcCopyStrict n h x
        let h ← arrayCopyCbStrict a i h copy
        Except.ok (h, true)) 0 es h = .error .nullValue := by
  apply applyElems_error (I := fun h => ∃ acc, FillsArray h₀ h a acc) ⟨[], hf⟩
  · intro y hy
    obtain ⟨t, ht, hyt⟩ := exists_right_of_forall₂ hes hy
    by_cases hgood : t.RootCopyable ∧ t.ChildrenCopyable
    · exact .inl (fun i s hs => (ih t ht).arrayStep hgood.2 hgood.1 hyt i hs)
    · exact .inr (fun i s hs => (ih t ht).arrayStep_error hgood hyt i hs)
  · push Not at hc
    obtain ⟨t, ht, hbad⟩ := hc
    obtain ⟨y, hy, hyt⟩ := exists_left_of_forall₂ hes ht
    have hbad' : ¬ (t.RootCopyable ∧ t.ChildrenCopyable) := fun hgood => hbad hgood.1 hgood.2
    exact ⟨y, hy, fun i s hs => (ih t ht).arrayStep_error hbad' hyt i hs⟩

theorem copiesStrictly_array {ts : List Tree} (ih : ∀ t ∈ ts, CopiesStrictly n t) :
    CopiesStrictly (n + 1) (.array ts) := by
  constructor
  · intro hc _ h x hx
    obtain ⟨-, o, es, ho, hu, hes⟩ := treeFrom_array.mp hx
    obtain ⟨h₁, hcreate, hf⟩ := fillsArray_create h
    obtain ⟨o₁, ho₁, hu₁, -⟩ := hf.keeps.get_of_get ho
    obtain ⟨h', happly, acc, hf'⟩ :=
      copyElemsStrict_ok ih hes (childrenCopyable_array.mp hc) hf
    refine ⟨h', h.size, .array acc, ?_, hf'.keeps, hf'.treeFrom⟩
    simp [xpcCopyStrict, Heap.deref_of_get ho, hu, hcreate,
      Arrays.xpcArrayApplyFun_of_get ho₁ (hu₁.trans hu), happly]
  · exact fun hr => absurd trivial hr
  · intro hc h x hx
    obtain ⟨-, o, es, ho, hu, hes⟩ := treeFrom_array.mp hx
    obtain ⟨h₁, hcreate, hf⟩ := fillsArray_create h
    obtain ⟨o₁, ho₁, hu₁, -⟩ := hf.keeps.get_of_get ho
    rw [childrenCopyable_array] at hc
    have hfail := copyElemsStrict_error ih hes hc hf
    simp [xpcCopyStrict, Heap.deref_of_get ho, hu, hcreate,
      Arrays.xpcArrayApplyFun_of_get ho₁ (hu₁.trans hu), hfail]

theorem copyPairsStrict_ok {qs : Pairs} {ps : List (CString × Tree)}
    (ih : ∀ p ∈ ps, CopiesStrictly n p.2) (hqs : Related (TreeAt h₀) qs ps)
    (hc : ∀ p ∈ ps, p.2.RootCopyable ∧ p.2.ChildrenCopyable) (hf : FillsDictionary h₀ h d []) :
    ∃ h', applyPairs (fun k x h => do
        let (h, copy) ← xpcCopyStrict n h x
        let h ← dictCopyCb d k h copy
        Except.ok (h, true)) qs h = .ok (h', true) ∧ ∃ acc, FillsDictionary h₀ h' d acc := by
  refine applyPairs_ok (f := fun k x h => do
      let (h, copy) ← xpcCopyStrict n h x
      let h ← dictCopyCb d k h copy
      Except.ok (h, true)) (I := fun h => ∃ acc, FillsDictionary h₀ h d acc) ⟨[], hf⟩ ?_
  intro q hq s hs
  obtain ⟨p, hp, -, hqp⟩ := exists_right_of_forall₂ hqs hq
  obtain ⟨hr, hchildren⟩ := hc p hp
  exact (ih p hp).dictStep hchildren hr hqp q.1 hs

theorem copyPairsStrict_error {qs : Pairs} {ps : List (CString × Tree)}
    (ih : ∀ p ∈ ps, CopiesStrictly n p.2) (hqs : Related (TreeAt h₀) qs ps)
    (hc : ¬ ∀ p ∈ ps, p.2.RootCopyable ∧ p.2.ChildrenCopyable) (hf : FillsDictionary h₀ h d []) :
    applyPairs (fun k x h => do
        let (h, copy) ← xpcCopyStrict n h x
        let h ← dictCopyCb d k h copy
        Except.ok (h, true)) qs h = .error .nullValue := by
  refine applyPairs_error (f := fun k x h => do
      let (h, copy) ← xpcCopyStrict n h x
      let h ← dictCopyCb d k h copy
      Except.ok (h, true)) (I := fun h => ∃ acc, FillsDictionary h₀ h d acc) ⟨[], hf⟩ ?_ ?_
  · intro q hq
    obtain ⟨p, hp, -, hqp⟩ := exists_right_of_forall₂ hqs hq
    by_cases hgood : p.2.RootCopyable ∧ p.2.ChildrenCopyable
    · exact .inl (fun s hs => (ih p hp).dictStep hgood.2 hgood.1 hqp q.1 hs)
    · exact .inr (fun s hs => (ih p hp).dictStep_error hgood hqp q.1 hs)
  · push Not at hc
    obtain ⟨p, hp, hbad⟩ := hc
    obtain ⟨q, hq, -, hqp⟩ := exists_left_of_forall₂ hqs hp
    have hbad' : ¬ (p.2.RootCopyable ∧ p.2.ChildrenCopyable) := fun hgood => hbad hgood.1 hgood.2
    exact ⟨q, hq, fun s hs => (ih p hp).dictStep_error hbad' hqp q.1 hs⟩

theorem copiesStrictly_dictionary {ps : List (CString × Tree)}
    (ih : ∀ p ∈ ps, CopiesStrictly n p.2) : CopiesStrictly (n + 1) (.dictionary ps) := by
  constructor
  · intro hc _ h x hx
    obtain ⟨-, o, qs, ho, hu, hqs⟩ := treeFrom_dictionary.mp hx
    obtain ⟨h₁, hcreate, hf⟩ := fillsDictionary_create h
    obtain ⟨o₁, ho₁, hu₁, -⟩ := hf.keeps.get_of_get ho
    obtain ⟨h', happly, acc, hf'⟩ :=
      copyPairsStrict_ok ih hqs (childrenCopyable_dictionary.mp hc) hf
    refine ⟨h', h.size, .dictionary acc, ?_, hf'.keeps, hf'.treeFrom⟩
    simp [xpcCopyStrict, Heap.deref_of_get ho, hu, hcreate,
      xpcDictionaryApplyFun_of_get ho₁ (hu₁.trans hu), happly]
  · exact fun hr => absurd trivial hr
  · intro hc h x hx
    obtain ⟨-, o, qs, ho, hu, hqs⟩ := treeFrom_dictionary.mp hx
    obtain ⟨h₁, hcreate, hf⟩ := fillsDictionary_create h
    obtain ⟨o₁, ho₁, hu₁, -⟩ := hf.keeps.get_of_get ho
    rw [childrenCopyable_dictionary] at hc
    have hfail := copyPairsStrict_error ih hqs hc hf
    simp [xpcCopyStrict, Heap.deref_of_get ho, hu, hcreate,
      xpcDictionaryApplyFun_of_get ho₁ (hu₁.trans hu), hfail]

theorem copiesStrictly (hn : t.height < n) : CopiesStrictly n t := by
  induction t generalizing n with
  | leaf v =>
    obtain ⟨n, rfl⟩ := Nat.exists_eq_succ_of_ne_zero (Nat.ne_of_gt hn)
    exact copiesStrictly_leaf n v
  | array ts ih =>
    obtain ⟨n, rfl⟩ := Nat.exists_eq_succ_of_ne_zero (Nat.ne_of_gt (Nat.zero_lt_of_lt hn))
    refine copiesStrictly_array (fun t ht => ih t ht ?_)
    have hlt := Tree.height_lt_of_mem ht
    omega
  | dictionary ps ih =>
    obtain ⟨n, rfl⟩ := Nat.exists_eq_succ_of_ne_zero (Nat.ne_of_gt (Nat.zero_lt_of_lt hn))
    refine copiesStrictly_dictionary (fun p hp => ih p hp ?_)
    have hlt := Tree.height_lt_of_mem_pairs hp
    omega

/-- Copying a tree passes NULL to no setter if and only if no element and no value
in it is a leaf that cannot be copied. -/
theorem xpcCopyStrict_ok_iff (ht : TreeAt h x t) (hn : t.height < n) :
    (∃ r, xpcCopyStrict n h x = .ok r) ↔ t.ChildrenCopyable := by
  have hcopy := copiesStrictly hn
  constructor
  · intro hr
    obtain ⟨r, hr⟩ := hr
    by_contra hc
    rw [hcopy.stops hc h x ht] at hr
    cases hr
  · intro hc
    by_cases hroot : t.RootCopyable
    · obtain ⟨h', y, u, he, -⟩ := hcopy.copies hc hroot h x ht
      exact ⟨_, he⟩
    · obtain ⟨h', he⟩ := hcopy.null hroot h x ht
      exact ⟨_, he⟩

/-- `{k: [true], j: int64}` -/
def nestedHeap : Heap (List ObjId) :=
  ⟨[some ⟨0, 1, 1, .leaf (.bool true), trivial⟩, some ⟨0, 1, 0, .array [0], trivial⟩,
    some ⟨0, 1, 1, .leaf (.int64 5), trivial⟩,
    some ⟨0, 1, 2, .dictionary [(keyK, 1), (keyJ, 2)], trivial⟩]⟩

theorem copy_nested : ∃ r, xpcCopyStrict 3 nestedHeap 3 = .ok r := by
  have hbool : TreeAt nestedHeap 0 (.leaf (.bool true)) := ⟨Nat.zero_le _, _, rfl, rfl⟩
  have hint : TreeAt nestedHeap 2 (.leaf (.int64 5)) := ⟨Nat.zero_le _, _, rfl, rfl⟩
  have harray : TreeAt nestedHeap 1 (.array [.leaf (.bool true)]) :=
    ⟨Nat.zero_le _, _, _, rfl, rfl, hbool, trivial⟩
  have ht : TreeAt nestedHeap 3
      (.dictionary [(keyK, .array [.leaf (.bool true)]), (keyJ, .leaf (.int64 5))]) :=
    ⟨Nat.zero_le _, _, _, rfl, rfl, ⟨rfl, harray⟩, ⟨rfl, hint⟩, trivial⟩
  have hc : (Tree.array [.leaf (.bool true)]).ChildrenCopyable :=
    childrenCopyable_array.mpr (List.forall_mem_singleton.mpr ⟨trivial, trivial⟩)
  refine (xpcCopyStrict_ok_iff ht (by decide)).mpr (childrenCopyable_dictionary.mpr ?_)
  exact List.forall_mem_cons.mpr ⟨⟨trivial, hc⟩, List.forall_mem_singleton.mpr ⟨trivial, trivial⟩⟩

/-- Copying a null or a connection in a dictionary dereferences NULL, and a null in an
array is passed to the setter as NULL. -/
theorem null_passed_to_setter :
    xpcCopy 2 ⟨[some ⟨0, 2, 0, .leaf .null, trivial⟩,
        some ⟨0, 1, 1, .dictionary [(keyK, 0)], trivial⟩]⟩ 1 = .error .nullValue ∧
      xpcCopy 2 ⟨[some ⟨0, 2, 0, .leaf (.connection keyJ), trivial⟩,
        some ⟨0, 1, 1, .dictionary [(keyK, 0)], trivial⟩]⟩ 1 = .error .nullValue ∧
      xpcCopyStrict 2 ⟨[some ⟨0, 2, 0, .leaf .null, trivial⟩,
        some ⟨0, 1, 0, .array [0], trivial⟩]⟩ 1 = .error .nullValue := ⟨rfl, rfl, rfl⟩

end OpenXPC
