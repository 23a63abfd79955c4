import OpenXPC.Trees

/-! # Copying

`xpc_copy` rebuilds a container through the public setters. Setting an index of
an array that is still empty changes nothing, so no array is ever refilled. -/
namespace OpenXPC
open InsertionMap

/-- The leaf types that `xpc_copy` handles. -/
def Leaf.Copyable : Leaf → Prop
  | .bool _ | .int64 _ | .uint64 _ | .date _ | .endpoint _ | .string _ | .data _ => True
  | .null | .double _ | .fd _ | .uuid _ | .connection _ => False

/-- The size passed on is 1 for a scalar and the length for a string or data. -/
def copyLeaf (h : Heap (List ObjId)) (v : Leaf) : Heap (List ObjId) × Option ObjId :=
  match v with
  | .bool _ | .int64 _ | .uint64 _ | .date _ | .endpoint _ =>
    let (h, xo) := xpcPrimCreate h (.leaf v) v.size v.sizeOk
    (h, some xo)
  | .string str =>
    let (h, xo) := xpcStringCreate h str
    (h, some xo)
  | .data bytes =>
    let (h, xo) := xpcDataCreate h bytes
    (h, some xo)
  | .null | .double _ | .fd _ | .uuid _ | .connection _ => (h, none)

/-- The copy of a value, or NULL, is inserted. -/
def dictCopyCb (xotmp : ObjId) (k : CString) (h : Heap (List ObjId)) :
    Option ObjId → Except Fault (Heap (List ObjId))
  | none => .error .nullValue
  | some v => xpcDictionarySetValue h xotmp k v

/-- Setting an element to NULL is only harmful where the index is in range. -/
def arrayCopyCb (xotmp : ObjId) (idx : ℕ) (h : Heap (List ObjId)) :
    Option ObjId → Except Fault (Heap (List ObjId))
  | none => do
    let xo ← h.deref xotmp
    if idx ≠ xpcArrayAppend ∧ idx ≥ xo.xoSize then .ok h else .error .nullValue
  | some v => Arrays.xpcArraySetValue h xotmp idx v

/-- The fuel bounds the depth of the recursion. -/
def xpcCopy : ℕ → Heap (List ObjId) → ObjId → Except Fault (Heap (List ObjId) × Option ObjId)
  | 0, _, _ => .error .outOfFuel
  | n + 1, h, obj => do
    let xo ← h.deref obj
    match xo.xoU with
    | .leaf v => .ok (copyLeaf h v)
    | .dictionary _ => do
      let (h, xotmp) ← xpcDictionaryCreate h []
      let (h, _) ← xpcDictionaryApplyFun h obj (fun k v h => do
        let (h, copy) ← xpcCopy n h v
        let h ← dictCopyCb xotmp k h copy
        .ok (h, true)) h
      .ok (h, some xotmp)
    | .array _ => do
      let (h, xotmp) ← Arrays.xpcArrayCreate h []
      let (h, _) ← Arrays.xpcArrayApplyFun h obj (fun idx v h => do
        let (h, copy) ← xpcCopy n h v
        let h ← arrayCopyCb xotmp idx h copy
        .ok (h, true)) h
      .ok (h, some xotmp)

namespace Tree

def Copyable (t : Tree) : Prop := t.All (fun | .leaf v => v.Copyable | _ => True)

def ArraysEmpty (t : Tree) : Prop := t.All (fun | .array ts => ts = [] | _ => True)

mutual

/-- What a copy retains: of an array, the elements whose index is the one that
means appending. -/
def pruned : Tree → Tree
  | .leaf v => .leaf v
  | .array ts => .array (prunedElems 0 ts)
  | .dictionary ps => .dictionary (prunedPairs ps)

def prunedElems : ℕ → List Tree → List Tree
  | _, [] => []
  | i, t :: ts => if i = xpcArrayAppend then pruned t :: prunedElems (i + 1) ts
      else prunedElems (i + 1) ts

def prunedPairs : List (CString × Tree) → List (CString × Tree)
  | [] => []
  | (k, t) :: ps => (k, pruned t) :: prunedPairs ps

end

theorem prunedPairs_eq_map (ps : List (CString × Tree)) :
    prunedPairs ps = ps.map (fun p => (p.1, p.2.pruned)) := by
  induction ps with
  | nil => rfl
  | cons p ps ih => rw [prunedPairs, ih, List.map_cons]

theorem prunedPairs_keys (ps : List (CString × Tree)) :
    (prunedPairs ps).map Prod.fst = ps.map Prod.fst := by
  simp [prunedPairs_eq_map, Function.comp_def]

theorem length_prunedElems_le (i : ℕ) (ts : List Tree) :
    (prunedElems i ts).length ≤ if i ≤ xpcArrayAppend then 1 else 0 := by
  induction ts generalizing i with
  | nil => simp [prunedElems]
  | cons t ts ih =>
    have hrest := ih (i + 1)
    rw [prunedElems]
    rcases Nat.lt_trichotomy i xpcArrayAppend with hlt | rfl | hgt
    · rw [if_pos (by omega)] at hrest
      rwa [if_neg (Nat.ne_of_lt hlt), if_pos (Nat.le_of_lt hlt)]
    · rw [if_neg (by omega)] at hrest
      rw [if_pos rfl, if_pos (Nat.le_refl _), List.length_cons]
      omega
    · rw [if_neg (by omega)] at hrest
      rwa [if_neg (Nat.ne_of_gt hgt), if_neg (by omega)]

/-- Nothing is retained of a nonempty array as it was. -/
theorem prunedElems_eq_self_iff (ts : List Tree) : prunedElems 0 ts = ts ↔ ts = [] := by
  constructor
  · intro h
    have hle := length_prunedElems_le 0 ts
    rw [h, if_pos (Nat.zero_le _)] at hle
    match ts, hle with
    | [], _ => rfl
    | [t], _ => simp [prunedElems, xpcArrayAppend] at h
  · intro h
    rw [h, prunedElems]

theorem pruned_eq_self_iff (t : Tree) : t.pruned = t ↔ t.ArraysEmpty := by
  induction t with
  | leaf v => simp [pruned, ArraysEmpty]
  | array ts ih =>
    simp only [pruned, array.injEq, prunedElems_eq_self_iff, ArraysEmpty, all_array]
    constructor
    · intro h
      subst h
      simp
    · exact fun h => h.1
  | dictionary ps ih =>
    simp only [pruned, dictionary.injEq, prunedPairs_eq_map, ArraysEmpty, all_dictionary, true_and]
    have hmap : ps.map (fun p => (p.1, p.2.pruned)) = ps ↔ ∀ p ∈ ps, (p.1, p.2.pruned) = id p := by
      rw [← List.map_inj_left, List.map_id]
    rw [hmap]
    constructor
    · exact fun h p hp => (ih p hp).mp (congrArg Prod.snd (h p hp))
    · exact fun h p hp => Prod.ext rfl ((ih p hp).mpr (h p hp))

end Tree

/-! ## What a copy is -/

variable {h h₀ : Heap (List ObjId)} {x y d a n : ℕ} {t : Tree}

/-- The copy succeeds, changes no existing object, and returns a new tree. -/
def CopyOk (n : ℕ) (h : Heap (List ObjId)) (x : ObjId) (t : Tree) : Prop :=
  ∃ h' y, xpcCopy n h x = .ok (h', some y) ∧ h.Keeps h' ∧ TreeFrom h' h.size y t.pruned

theorem copyLeaf_ok {v : Leaf} (hv : v.Copyable) :
    copyLeaf h v = ((leafCreate h v).1, some h.size) := by
  cases v <;> first | rfl | exact hv.elim

/-- The callback of the dictionary loop inserts one copy. -/
theorem fillsDictionary_copy {acc : List (CString × Tree)} (hf : FillsDictionary h₀ h d acc)
    (hc : CopyOk n h x t) (k : CString) :
    ∃ h₁ y h₂, xpcCopy n h x = .ok (h₁, some y) ∧ dictCopyCb d k h₁ (some y) = .ok h₂ ∧
      FillsDictionary h₀ h₂ d (upsert k t.pruned acc) := by
  obtain ⟨h₁, y, he, hk, hy⟩ := hc
  obtain ⟨h₂, hset, hf₂⟩ := hf.insert hk hy k
  exact ⟨h₁, y, h₂, he, hset, hf₂⟩

theorem copyPairs_ok {qs : Pairs} {ps acc : List (CString × Tree)}
    (hrel : Related (TreeAt h₀) qs ps) (hf : FillsDictionary h₀ h d acc)
    (hcopy : ∀ p ∈ ps, ∀ h x, TreeAt h x p.2 → CopyOk n h x p.2) :
    ∃ h', applyPairs (fun k v h => do
        let (h, copy) ← xpcCopy n h v
        let h ← dictCopyCb d k h copy
        .ok (h, true)) qs h = .ok (h', true) ∧
      FillsDictionary h₀ h' d ((Tree.prunedPairs ps).foldl (fun ps p => upsert p.1 p.2 ps) acc) := by
  induction hrel generalizing h acc with
  | nil => exact ⟨h, rfl, hf⟩
  | @cons q p qs ps hqp _ ih =>
    obtain ⟨k, x⟩ := q
    obtain ⟨j, t⟩ := p
    obtain ⟨rfl, hx⟩ := hqp
    have hcopied := hcopy (k, t) List.mem_cons_self h x (hx.keeps (Nat.le_refl 0) hf.keeps)
    obtain ⟨h₁, y, h₂, he, hset, hf₂⟩ := fillsDictionary_copy hf hcopied k
    obtain ⟨h', happly, hf'⟩ := ih hf₂ (fun p hp => hcopy p (List.mem_cons_of_mem _ hp))
    refine ⟨h', ?_, hf'⟩
    simp [applyPairs, he, hset, happly]

/-- The size of the array is zero, so an index is out of range unless it means
appending. -/
theorem FillsArray.setValue {acc : List Tree} {h₁ : Heap (List ObjId)} (hf : FillsArray h₀ h a acc)
    (hk : h.Keeps h₁) (hy : TreeFrom h₁ h.size y t) (i : ℕ) :
    ∃ h₂, Arrays.xpcArraySetValue h₁ a i y = .ok h₂ ∧
      FillsArray h₀ h₂ a (if i = xpcArrayAppend then acc ++ [t] else acc) := by
  by_cases hi : i = xpcArrayAppend
  · obtain ⟨h₂, happend, hf₂⟩ := hf.append hk hy
    exact ⟨h₂, by rw [Arrays.xpcArraySetValue, if_pos hi, happend], by rwa [if_pos hi]⟩
  · have hf₁ := hf.keepsHeap hk
    obtain ⟨o, rs, ho, hu, hsize, -⟩ := hf₁.elems
    refine ⟨h₁, ?_, by rwa [if_neg hi]⟩
    simp [Arrays.xpcArraySetValue, hi, Heap.deref_of_get ho, XpcObject.arr_of_xoU hu, hsize]

/-- The callback of the array loop. -/
theorem fillsArray_copy {acc : List Tree} (hf : FillsArray h₀ h a acc) (hc : CopyOk n h x t)
    (i : ℕ) :
    ∃ h₁ y h₂, xpcCopy n h x = .ok (h₁, some y) ∧ arrayCopyCb a i h₁ (some y) = .ok h₂ ∧
      FillsArray h₀ h₂ a (if i = xpcArrayAppend then acc ++ [t.pruned] else acc) := by
  obtain ⟨h₁, y, he, hk, hy⟩ := hc
  obtain ⟨h₂, hset, hf₂⟩ := hf.setValue hk hy i
  exact ⟨h₁, y, h₂, he, hset, hf₂⟩

theorem copyElems_ok {es : List ObjId} {ts acc : List Tree} {i : ℕ}
    (hrel : List.Forall₂ (TreeAt h₀) es ts) (hf : FillsArray h₀ h a acc)
    (hcopy : ∀ t ∈ ts, ∀ h x, TreeAt h x t → CopyOk n h x t) :
    ∃ h', Arrays.applyElems (fun idx v h => do
        let (h, copy) ← xpcCopy n h v
        let h ← arrayCopyCb a idx h copy
        .ok (h, true)) i es h = .ok (h', true) ∧
      FillsArray h₀ h' a (acc ++ Tree.prunedElems i ts) := by
  induction hrel generalizing h acc i with
  | nil => exact ⟨h, rfl, by rwa [Tree.prunedElems, List.append_nil]⟩
  | @cons x t es ts hx _ ih =>
    have hcopied := hcopy t List.mem_cons_self h x (hx.keeps (Nat.le_refl 0) hf.keeps)
    obtain ⟨h₁, y, h₂, he, hset, hf₂⟩ := fillsArray_copy hf hcopied i
    obtain ⟨h', happly, hf'⟩ := ih (i := i + 1) hf₂ (fun t ht => hcopy t (List.mem_cons_of_mem _ ht))
    refine ⟨h', by simp [Arrays.applyElems, he, hset, happly], ?_⟩
    rw [Tree.prunedElems]
    split_ifs at hf' ⊢ with hi
    · rwa [List.append_assoc] at hf'
    · exact hf'

theorem xpcCopy_ok (ht : TreeAt h x t) (hc : t.Copyable) (hk : t.WellKeyed) (hn : t.height < n) :
    CopyOk n h x t := by
  induction t generalizing n h x with
  | leaf v =>
    obtain ⟨n, rfl⟩ := Nat.exists_eq_succ_of_ne_zero (Nat.ne_of_gt hn)
    obtain ⟨-, o, ho, hu⟩ := treeFrom_leaf.mp ht
    refine ⟨(leafCreate h v).1, h.size, ?_, h.keeps_alloc _, treeFrom_leafCreate h v⟩
    simp [xpcCopy, Heap.deref_of_get ho, hu, copyLeaf_ok hc]
  | array ts ih =>
    obtain ⟨n, rfl⟩ := Nat.exists_eq_succ_of_ne_zero (Nat.ne_of_gt (Nat.zero_lt_of_lt hn))
    obtain ⟨-, o, es, ho, hu, hrel⟩ := treeFrom_array.mp ht
    obtain ⟨h₁, hcreate, hf⟩ := fillsArray_create h
    have hcopy : ∀ t ∈ ts, ∀ h x, TreeAt h x t → CopyOk n h x t := by
      intro t hmem h x hx
      have hlt := Tree.height_lt_of_mem hmem
      exact ih t hmem hx ((Tree.all_array.mp hc).2 t hmem) ((Tree.all_array.mp hk).2 t hmem) (by omega)
    obtain ⟨h', happly, hf'⟩ := copyElems_ok (i := 0) hrel hf hcopy
    obtain ⟨o₁, ho₁, hu₁, -⟩ := hf.keeps.get_of_get ho
    refine ⟨h', h.size, ?_, hf'.keeps, hf'.treeFrom⟩
    simp [xpcCopy, Heap.deref_of_get ho, hu, hcreate,
      Arrays.xpcArrayApplyFun_of_get ho₁ (hu₁.trans hu), happly]
  | dictionary ps ih =>
    obtain ⟨n, rfl⟩ := Nat.exists_eq_succ_of_ne_zero (Nat.ne_of_gt (Nat.zero_lt_of_lt hn))
    obtain ⟨-, o, qs, ho, hu, hrel⟩ := treeFrom_dictionary.mp ht
    obtain ⟨h₁, hcreate, hf⟩ := fillsDictionary_create h
    have hcopy : ∀ p ∈ ps, ∀ h x, TreeAt h x p.2 → CopyOk n h x p.2 := by
      intro p hmem h x hx
      have hlt := Tree.height_lt_of_mem_pairs hmem
      exact ih p hmem hx ((Tree.all_dictionary.mp hc).2 p hmem)
        ((Tree.all_dictionary.mp hk).2 p hmem) (by omega)
    obtain ⟨h', happly, hf'⟩ := copyPairs_ok hrel hf hcopy
    -- the keys are distinct, so every copy is a new pair
    have hbuild : (Tree.prunedPairs ps).foldl (fun ps p => upsert p.1 p.2 ps) [] =
        Tree.prunedPairs ps :=
      build_eq_self ((Tree.prunedPairs_keys ps).symm ▸ (Tree.all_dictionary.mp hk).1)
    rw [hbuild] at hf'
    obtain ⟨o₁, ho₁, hu₁, -⟩ := hf.keeps.get_of_get ho
    refine ⟨h', h.size, ?_, hf'.keeps, hf'.treeFrom⟩
    simp [xpcCopy, Heap.deref_of_get ho, hu, hcreate,
      xpcDictionaryApplyFun_of_get ho₁ (hu₁.trans hu), happly]

/-- The copy of a tree is structurally equal to it if and only if every array in
the tree is empty. -/
theorem xpcCopy_equal_iff (ht : TreeAt h x t) (hc : t.Copyable) (hk : t.WellKeyed)
    (hn : t.height < n) :
    (∃ h' y, xpcCopy n h x = .ok (h', some y) ∧ h.Keeps h' ∧ TreeAt h' y t) ↔ t.ArraysEmpty := by
  obtain ⟨h', y, he, hkeep, hy⟩ := xpcCopy_ok ht hc hk hn
  have hcopied : TreeAt h' y t.pruned := hy.keeps (Nat.zero_le _) (Heap.Keeps.refl h')
  rw [← Tree.pruned_eq_self_iff]
  constructor
  · intro h
    obtain ⟨h'', y', he', -, hy'⟩ := h
    obtain ⟨rfl, rfl⟩ : h' = h'' ∧ y = y' := by
      rw [he] at he'
      cases he'
      exact ⟨rfl, rfl⟩
    exact hcopied.unique hy'
  · intro heq
    rw [heq] at hcopied
    exact ⟨h', y, he, hkeep, hcopied⟩

/-- A dictionary whose one value is an array without elements. -/
def emptyInDictionary : Heap (List ObjId) :=
  ⟨[some ⟨0, 2, 0, .array [], trivial⟩, some ⟨0, 1, 1, .dictionary [(keyK, 0)], trivial⟩]⟩

theorem copy_emptyInDictionary :
    ∃ h' y, xpcCopy 3 emptyInDictionary 1 = .ok (h', some y) ∧ emptyInDictionary.Keeps h' ∧
      TreeAt h' y (.dictionary [(keyK, .array [])]) := by
  have ht : TreeAt emptyInDictionary 1 (.dictionary [(keyK, .array [])]) :=
    ⟨Nat.zero_le 1, _, _, rfl, rfl, ⟨rfl, Nat.zero_le 0, _, _, rfl, rfl, trivial⟩, trivial⟩
  refine (xpcCopy_equal_iff ht ?_ ?_ (by decide)).mpr ?_
  · simp [Tree.Copyable]
  · simp [Tree.WellKeyed]
  · simp [Tree.ArraysEmpty]

/-- An array of one boolean. -/
def boolInArray : Heap (List ObjId) :=
  ⟨[some ⟨0, 2, 1, .leaf (.bool true), trivial⟩, some ⟨0, 1, 0, .array [0], trivial⟩]⟩

theorem copy_boolInArray_not_equal :
    TreeAt boolInArray 1 (.array [.leaf (.bool true)]) ∧
      ∃ h', xpcCopy 2 boolInArray 1 = .ok (h', some 2) ∧ TreeAt h' 2 (.array []) ∧
        ¬ TreeAt h' 2 (.array [.leaf (.bool true)]) := by
  have hcopy : ∃ h', xpcCopy 2 boolInArray 1 = .ok (h', some 2) ∧
      h'.get 2 = some ⟨0, 1, 0, .array [], trivial⟩ := ⟨_, rfl, rfl⟩
  obtain ⟨h', he, hget⟩ := hcopy
  have hempty : TreeAt h' 2 (.array []) := ⟨Nat.zero_le 2, _, [], hget, rfl, trivial⟩
  refine ⟨⟨Nat.zero_le 1, _, _, rfl, rfl, ⟨Nat.zero_le 0, _, rfl, rfl⟩, trivial⟩, h', he, hempty, ?_⟩
  intro h
  have heq := hempty.unique h
  simp at heq

end OpenXPC
