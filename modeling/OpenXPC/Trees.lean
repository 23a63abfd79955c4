import OpenXPC.Slots

/-! # Object trees

What a client sees of an object when it follows the elements and pairs down to
the leaves. An object that is shared appears in the tree once per occurrence. -/
namespace OpenXPC
open InsertionMap

inductive Tree
  | leaf (v : Leaf)
  | array (elems : List Tree)
  | dictionary (pairs : List (CString × Tree))

namespace Tree

/-- Induction with a hypothesis for every element and every value. -/
@[elab_as_elim, induction_eliminator]
theorem induction {P : Tree → Prop} (leaf : ∀ v, P (leaf v))
    (array : ∀ elems, (∀ t ∈ elems, P t) → P (array elems))
    (dictionary : ∀ pairs, (∀ p ∈ pairs, P p.2) → P (dictionary pairs)) (t : Tree) : P t := by
  refine @Tree.rec P (fun elems => ∀ t ∈ elems, P t) (fun pairs => ∀ p ∈ pairs, P p.2)
    (fun p => P p.2) leaf array dictionary ?_ ?_ ?_ ?_ (fun _ _ h => h) t
  · exact fun t ht => absurd ht List.not_mem_nil
  · intro t ts ht hts u hu
    rcases List.mem_cons.mp hu with rfl | hu
    · exact ht
    · exact hts u hu
  · exact fun p hp => absurd hp List.not_mem_nil
  · intro p ps hp hps q hq
    rcases List.mem_cons.mp hq with rfl | hq
    · exact hp
    · exact hps q hq

mutual

/-- Every node of the tree has the property. -/
def All (p : Tree → Prop) : Tree → Prop
  | .leaf v => p (.leaf v)
  | .array elems => p (.array elems) ∧ AllElems p elems
  | .dictionary pairs => p (.dictionary pairs) ∧ AllPairs p pairs

def AllElems (p : Tree → Prop) : List Tree → Prop
  | [] => True
  | t :: ts => All p t ∧ AllElems p ts

def AllPairs (p : Tree → Prop) : List (CString × Tree) → Prop
  | [] => True
  | (_, t) :: ps => All p t ∧ AllPairs p ps

end

mutual

def height : Tree → ℕ
  | .leaf _ => 0
  | .array elems => heightElems elems + 1
  | .dictionary pairs => heightPairs pairs + 1

def heightElems : List Tree → ℕ
  | [] => 0
  | t :: ts => max (height t) (heightElems ts)

def heightPairs : List (CString × Tree) → ℕ
  | [] => 0
  | (_, t) :: ps => max (height t) (heightPairs ps)

end

mutual

/-- The number of nodes, leaves and containers together. -/
def nodes : Tree → ℕ
  | .leaf _ => 1
  | .array elems => nodesElems elems + 1
  | .dictionary pairs => nodesPairs pairs + 1

def nodesElems : List Tree → ℕ
  | [] => 0
  | t :: ts => nodes t + nodesElems ts

def nodesPairs : List (CString × Tree) → ℕ
  | [] => 0
  | (_, t) :: ps => nodes t + nodesPairs ps

end

theorem nodesElems_append (ts us : List Tree) :
    nodesElems (ts ++ us) = nodesElems ts + nodesElems us := by
  induction ts with
  | nil => simp [nodesElems]
  | cons t ts ih => simp only [List.cons_append, nodesElems, ih, Nat.add_assoc]

theorem nodesPairs_append (ps qs : List (CString × Tree)) :
    nodesPairs (ps ++ qs) = nodesPairs ps + nodesPairs qs := by
  induction ps with
  | nil => simp [nodesPairs]
  | cons p ps ih => simp only [List.cons_append, nodesPairs, ih, Nat.add_assoc]

theorem allElems_iff {p : Tree → Prop} {ts : List Tree} : AllElems p ts ↔ ∀ t ∈ ts, t.All p := by
  induction ts with
  | nil => simp [AllElems]
  | cons t ts ih => simp [AllElems, ih]

theorem allPairs_iff {p : Tree → Prop} {ps : List (CString × Tree)} :
    AllPairs p ps ↔ ∀ q ∈ ps, q.2.All p := by
  induction ps with
  | nil => simp [AllPairs]
  | cons q ps ih =>
    obtain ⟨k, t⟩ := q
    simp [AllPairs, ih]

@[simp] theorem all_leaf {p : Tree → Prop} {v : Leaf} : (leaf v).All p ↔ p (.leaf v) := Iff.rfl

@[simp] theorem all_array {p : Tree → Prop} {ts : List Tree} :
    (array ts).All p ↔ p (.array ts) ∧ ∀ t ∈ ts, t.All p := by
  rw [All, allElems_iff]

@[simp] theorem all_dictionary {p : Tree → Prop} {ps : List (CString × Tree)} :
    (dictionary ps).All p ↔ p (.dictionary ps) ∧ ∀ q ∈ ps, q.2.All p := by
  rw [All, allPairs_iff]

theorem height_lt_of_mem {t : Tree} {ts : List Tree} (ht : t ∈ ts) :
    t.height < (array ts).height := by
  rw [height, Nat.lt_succ_iff]
  induction ts with
  | nil => cases ht
  | cons u ts ih =>
    rw [heightElems]
    rcases List.mem_cons.mp ht with rfl | ht
    · exact Nat.le_max_left _ _
    · exact Nat.le_trans (ih ht) (Nat.le_max_right _ _)

theorem height_lt_of_mem_pairs {p : CString × Tree} {ps : List (CString × Tree)} (hp : p ∈ ps) :
    p.2.height < (dictionary ps).height := by
  rw [height, Nat.lt_succ_iff]
  induction ps with
  | nil => cases hp
  | cons q ps ih =>
    obtain ⟨k, t⟩ := q
    rw [heightPairs]
    rcases List.mem_cons.mp hp with rfl | hp
    · exact Nat.le_max_left _ _
    · exact Nat.le_trans (ih hp) (Nat.le_max_right _ _)

/-- The keys of every dictionary are distinct, as the setter keeps them. -/
def WellKeyed (t : Tree) : Prop :=
  t.All (fun | .dictionary ps => (ps.map Prod.fst).Nodup | _ => True)

end Tree

/-! ## Trees on the heap -/

mutual

/-- The object is the root of the tree, all of whose objects come after `lo`. -/
def TreeFrom (h : Heap (List ObjId)) (lo : ℕ) : ObjId → Tree → Prop
  | x, .leaf v => lo ≤ x ∧ ∃ o, h.get x = some o ∧ o.xoU = .leaf v
  | x, .array ts => lo ≤ x ∧ ∃ o es, h.get x = some o ∧ o.xoU = .array es ∧ TreesFrom h lo es ts
  | x, .dictionary ps => lo ≤ x ∧ ∃ o qs, h.get x = some o ∧ o.xoU = .dictionary qs ∧
      PairsFrom h lo qs ps

def TreesFrom (h : Heap (List ObjId)) (lo : ℕ) : List ObjId → List Tree → Prop
  | [], [] => True
  | x :: xs, t :: ts => TreeFrom h lo x t ∧ TreesFrom h lo xs ts
  | _, _ => False

def PairsFrom (h : Heap (List ObjId)) (lo : ℕ) : Pairs → List (CString × Tree) → Prop
  | [], [] => True
  | (k, x) :: qs, (j, t) :: ps => (k = j ∧ TreeFrom h lo x t) ∧ PairsFrom h lo qs ps
  | _, _ => False

end

def TreeAt (h : Heap (List ObjId)) (x : ObjId) (t : Tree) : Prop := TreeFrom h 0 x t

section Reading

variable {h h' : Heap (List ObjId)} {lo x d : ℕ}

theorem treesFrom_iff {xs : List ObjId} {ts : List Tree} :
    TreesFrom h lo xs ts ↔ List.Forall₂ (TreeFrom h lo) xs ts := by
  induction ts generalizing xs with
  | nil => cases xs <;> simp [TreesFrom]
  | cons t ts ih => cases xs <;> simp [TreesFrom, ih]

theorem pairsFrom_iff {qs : Pairs} {ps : List (CString × Tree)} :
    PairsFrom h lo qs ps ↔ Related (TreeFrom h lo) qs ps := by
  induction ps generalizing qs with
  | nil => cases qs <;> simp [PairsFrom, Related]
  | cons p ps ih => cases qs <;> simp_all [PairsFrom, Related]

theorem treeFrom_leaf {v : Leaf} :
    TreeFrom h lo x (.leaf v) ↔ lo ≤ x ∧ ∃ o, h.get x = some o ∧ o.xoU = .leaf v := by
  rw [TreeFrom]

theorem treeFrom_array {ts : List Tree} : TreeFrom h lo x (.array ts) ↔
    lo ≤ x ∧ ∃ o es, h.get x = some o ∧ o.xoU = .array es ∧
      List.Forall₂ (TreeFrom h lo) es ts := by
  simp only [TreeFrom, treesFrom_iff]

theorem treeFrom_dictionary {ps : List (CString × Tree)} : TreeFrom h lo x (.dictionary ps) ↔
    lo ≤ x ∧ ∃ o qs, h.get x = some o ∧ o.xoU = .dictionary qs ∧
      Related (TreeFrom h lo) qs ps := by
  simp only [TreeFrom, pairsFrom_iff]

theorem TreeFrom.live {t : Tree} (ht : TreeFrom h lo x t) : ∃ o, h.get x = some o := by
  cases t with
  | leaf v =>
    obtain ⟨-, o, ho, -⟩ := treeFrom_leaf.mp ht
    exact ⟨o, ho⟩
  | array ts =>
    obtain ⟨-, o, es, ho, -⟩ := treeFrom_array.mp ht
    exact ⟨o, ho⟩
  | dictionary ps =>
    obtain ⟨-, o, qs, ho, -⟩ := treeFrom_dictionary.mp ht
    exact ⟨o, ho⟩

/-- A tree whose objects all come later than the changed one is unchanged. -/
theorem TreeFrom.frame {t : Tree} (ht : TreeFrom h lo x t) {lo' : ℕ} (hlo : lo' ≤ lo)
    (hget : ∀ y o, lo ≤ y → h.get y = some o → ∃ o', h'.get y = some o' ∧ o'.xoU = o.xoU) :
    TreeFrom h' lo' x t := by
  induction t generalizing x with
  | leaf v =>
    obtain ⟨hx, o, ho, hu⟩ := treeFrom_leaf.mp ht
    obtain ⟨o', ho', hu'⟩ := hget x o hx ho
    exact treeFrom_leaf.mpr ⟨Nat.le_trans hlo hx, o', ho', hu'.trans hu⟩
  | array ts ih =>
    obtain ⟨hx, o, es, ho, hu, hes⟩ := treeFrom_array.mp ht
    obtain ⟨o', ho', hu'⟩ := hget x o hx ho
    refine treeFrom_array.mpr ⟨Nat.le_trans hlo hx, o', es, ho', hu'.trans hu, ?_⟩
    exact forall₂_imp_of_mem hes (fun y t hmem hy => ih t hmem hy)
  | dictionary ps ih =>
    obtain ⟨hx, o, qs, ho, hu, hqs⟩ := treeFrom_dictionary.mp ht
    obtain ⟨o', ho', hu'⟩ := hget x o hx ho
    refine treeFrom_dictionary.mpr ⟨Nat.le_trans hlo hx, o', qs, ho', hu'.trans hu, ?_⟩
    exact hqs.mono (fun p hmem y hy => ih p hmem hy)

theorem TreeFrom.keeps {t : Tree} (ht : TreeFrom h lo x t) {lo' : ℕ} (hlo : lo' ≤ lo)
    (hk : h.Keeps h') : TreeFrom h' lo' x t :=
  ht.frame hlo (fun y o _ hy => by
    obtain ⟨o', ho', hu', -⟩ := hk.get_of_get hy
    exact ⟨o', ho', hu'⟩)

theorem TreeFrom.keepsBut {t : Tree} (ht : TreeFrom h lo x t) (hd : d < lo) (hk : h.KeepsBut d h') :
    TreeFrom h' lo x t :=
  ht.frame (Nat.le_refl lo) (fun y o hly hy => by
    obtain ⟨o', ho', hu', -⟩ := hk.get_of_get (Nat.ne_of_gt (Nat.lt_of_lt_of_le hd hly)) hy
    exact ⟨o', ho', hu'⟩)

/-- The payload of an object says which tree it can have. -/
theorem TreeFrom.payload {t : Tree} (ht : TreeFrom h lo x t) : ∃ o, h.get x = some o ∧
    match o.xoU with
    | .leaf v => t = .leaf v
    | .array es => ∃ ts, t = .array ts ∧ List.Forall₂ (TreeFrom h lo) es ts
    | .dictionary qs => ∃ ps, t = .dictionary ps ∧ Related (TreeFrom h lo) qs ps := by
  cases t with
  | leaf v =>
    obtain ⟨-, o, ho, hv⟩ := treeFrom_leaf.mp ht
    exact ⟨o, ho, by rw [hv]⟩
  | array ts =>
    obtain ⟨-, o, es, ho, hv, hes⟩ := treeFrom_array.mp ht
    exact ⟨o, ho, by rw [hv]; exact ⟨ts, rfl, hes⟩⟩
  | dictionary ps =>
    obtain ⟨-, o, qs, ho, hv, hqs⟩ := treeFrom_dictionary.mp ht
    exact ⟨o, ho, by rw [hv]; exact ⟨ps, rfl, hqs⟩⟩

/-- What an object of a tree holds is a root of a smaller tree. -/
theorem TreeFrom.slot {y : ObjId} {t : Tree}
    (ht : TreeFrom h lo x t) (hxy : h.Slot x y) : ∃ u, TreeFrom h lo y u := by
  obtain ⟨o, ho, hy⟩ := hxy
  obtain ⟨o', ho', hshape⟩ := ht.payload
  obtain rfl : o = o' := Option.some.inj (ho.symm.trans ho')
  rw [XpcObject.slots] at hy
  cases hu : o.xoU with
  | leaf v => simp [hu, Payload.slots] at hy
  | array es =>
    rw [hu] at hy hshape
    obtain ⟨ts, -, hes⟩ := hshape
    obtain ⟨u, -, hyu⟩ := exists_right_of_forall₂ hes hy
    exact ⟨u, hyu⟩
  | dictionary qs =>
    rw [hu] at hy hshape
    obtain ⟨ps, -, hqs⟩ := hshape
    obtain ⟨q, hq, rfl⟩ := List.mem_map.mp hy
    obtain ⟨p, -, hqp⟩ := exists_right_of_forall₂ hqs hq
    exact ⟨p.2, hqp.2⟩

theorem TreeFrom.reached {y : ObjId} {t : Tree}
    (ht : TreeFrom h lo x t) (hxy : Relation.ReflTransGen h.Slot x y) : ∃ u, TreeFrom h lo y u := by
  induction hxy with
  | refl => exact ⟨t, ht⟩
  | tail _ hyz ih =>
    obtain ⟨u, hu⟩ := ih
    exact hu.slot hyz

theorem TreeFrom.le {t : Tree} (ht : TreeFrom h lo x t) : lo ≤ x := by
  cases t with
  | leaf v => exact (treeFrom_leaf.mp ht).1
  | array ts => exact (treeFrom_array.mp ht).1
  | dictionary ps => exact (treeFrom_dictionary.mp ht).1

/-- The tree of an object is determined. -/
theorem TreeFrom.unique {t u : Tree} (ht : TreeFrom h lo x t) (hu : TreeFrom h lo x u) : t = u := by
  induction t generalizing x u with
  | leaf v =>
    obtain ⟨-, o, ho, hv⟩ := treeFrom_leaf.mp ht
    obtain ⟨o', ho', hshape⟩ := hu.payload
    obtain rfl : o = o' := Option.some.inj (ho.symm.trans ho')
    rw [hv] at hshape
    exact hshape.symm
  | array ts ih =>
    obtain ⟨-, o, es, ho, hv, hes⟩ := treeFrom_array.mp ht
    obtain ⟨o', ho', hshape⟩ := hu.payload
    obtain rfl : o = o' := Option.some.inj (ho.symm.trans ho')
    rw [hv] at hshape
    obtain ⟨us, rfl, hes'⟩ := hshape
    rw [eq_of_forall₂_of_mem hes hes' (fun y t hmem u hy hu => ih t hmem hy hu)]
  | dictionary ps ih =>
    obtain ⟨-, o, qs, ho, hv, hqs⟩ := treeFrom_dictionary.mp ht
    obtain ⟨o', ho', hshape⟩ := hu.payload
    obtain rfl : o = o' := Option.some.inj (ho.symm.trans ho')
    rw [hv] at hshape
    obtain ⟨us, rfl, hqs'⟩ := hshape
    rw [eq_of_forall₂_of_mem hqs hqs' (fun q p hmem u hq hu =>
      Prod.ext (hq.1.symm.trans hu.1) (ih p hmem hq.2 hu.2))]

end Reading

/-! ## Building trees

A container is created empty and filled with trees made later than it, while the
objects of the heap `h₀` it was created in stay as they are. -/

section Building

variable {h₀ h h₁ : Heap (List ObjId)} {d a y : ObjId} {t : Tree}

theorem treeFrom_leafCreate (h : Heap (List ObjId)) (v : Leaf) :
    TreeFrom (leafCreate h v).1 h.size h.size (.leaf v) := by
  refine treeFrom_leaf.mpr ⟨Nat.le_refl _, ⟨0, 1, v.size, .leaf v, v.sizeOk⟩, ?_, rfl⟩
  rw [leafCreate, xpcPrimCreate, xpcPrimCreateFlags, Heap.get_alloc, if_pos rfl]

structure FillsDictionary (h₀ h : Heap (List ObjId)) (d : ObjId) (acc : List (CString × Tree)) :
    Prop where
  keeps : h₀.Keeps h
  fresh : h₀.size ≤ d
  pairs : ∃ o rs, h.get d = some o ∧ o.xoU = .dictionary rs ∧ Related (TreeFrom h (d + 1)) rs acc

theorem fillsDictionary_create (h : Heap (List ObjId)) :
    ∃ h', xpcDictionaryCreate h [] = .ok (h', h.size) ∧ FillsDictionary h h' h.size [] := by
  refine ⟨_, rfl, h.keeps_alloc _, Nat.le_refl _, ⟨0, 1, 0, .dictionary [], trivial⟩, [], ?_, rfl, .nil⟩
  exact (Heap.get_alloc h _ _).trans (if_pos rfl)

/-- A tree made since is inserted. -/
theorem FillsDictionary.insert {acc : List (CString × Tree)} (hf : FillsDictionary h₀ h d acc)
    (hk : h.Keeps h₁) (hy : TreeFrom h₁ h.size y t) (k : CString) :
    ∃ h₂, xpcDictionarySetValue h₁ d k y = .ok h₂ ∧ FillsDictionary h₀ h₂ d (upsert k t acc) := by
  obtain ⟨o, rs, ho, hu, hrel⟩ := hf.pairs
  have hlt : d + 1 ≤ h.size := Heap.lt_size_of_get ho
  obtain ⟨o₁, ho₁, hu₁, -⟩ := hk.get_of_get ho
  obtain ⟨p, hp⟩ := hy.live
  obtain ⟨h₂, hset, hk₂, o₂, ho₂, hu₂, -⟩ := xpcDictionarySetValue_ok ho₁ (hu₁.trans hu) hp k
  refine ⟨h₂, hset, ?_, hf.fresh, o₂, _, ho₂, hu₂, ?_⟩
  · exact (((hf.keeps.trans hk).keepsBut d).trans hk₂).keeps hf.fresh
  · have hrel₁ := hrel.mono (fun _ _ _ hw => hw.keeps (Nat.le_refl (d + 1)) hk)
    refine (hrel₁.upsert k (hy.keeps hlt (Heap.Keeps.refl h₁))).mono (fun _ _ _ hw => ?_)
    exact hw.keepsBut (Nat.lt_succ_self d) hk₂

theorem FillsDictionary.treeFrom {acc : List (CString × Tree)}
    (hf : FillsDictionary h₀ h h₀.size acc) : TreeFrom h h₀.size h₀.size (.dictionary acc) := by
  obtain ⟨o, rs, ho, hu, hrs⟩ := hf.pairs
  refine treeFrom_dictionary.mpr ⟨Nat.le_refl _, o, rs, ho, hu, ?_⟩
  exact hrs.mono (fun _ _ _ hw => hw.keeps (Nat.le_succ _) (Heap.Keeps.refl h))

/-- The size of the array is never written. -/
structure FillsArray (h₀ h : Heap (List ObjId)) (a : ObjId) (acc : List Tree) : Prop where
  keeps : h₀.Keeps h
  fresh : h₀.size ≤ a
  elems : ∃ o rs, h.get a = some o ∧ o.xoU = .array rs ∧ o.xoSize = 0 ∧
    List.Forall₂ (TreeFrom h (a + 1)) rs acc

theorem fillsArray_create (h : Heap (List ObjId)) :
    ∃ h', Arrays.xpcArrayCreate h [] = .ok (h', h.size) ∧ FillsArray h h' h.size [] := by
  refine ⟨_, rfl, h.keeps_alloc _, Nat.le_refl _, ⟨0, 1, 0, .array [], trivial⟩, [], ?_, rfl, rfl, .nil⟩
  exact (Heap.get_alloc h _ _).trans (if_pos rfl)

theorem FillsArray.keepsHeap {acc : List Tree} (hf : FillsArray h₀ h a acc) (hk : h.Keeps h₁) :
    FillsArray h₀ h₁ a acc := by
  obtain ⟨o, rs, ho, hu, hsize, hrel⟩ := hf.elems
  obtain ⟨o₁, ho₁, hu₁, hs₁⟩ := hk.get_of_get ho
  refine ⟨hf.keeps.trans hk, hf.fresh, o₁, rs, ho₁, hu₁.trans hu, hs₁.trans hsize, ?_⟩
  exact hrel.imp (fun _ _ hw => hw.keeps (Nat.le_refl (a + 1)) hk)

/-- A tree made since is appended. -/
theorem FillsArray.append {acc : List Tree} (hf : FillsArray h₀ h a acc) (hk : h.Keeps h₁)
    (hy : TreeFrom h₁ h.size y t) :
    ∃ h₂, Arrays.xpcArrayAppendValue h₁ a y = .ok h₂ ∧ FillsArray h₀ h₂ a (acc ++ [t]) := by
  obtain ⟨o, rs, ho, -⟩ := hf.elems
  have hlt : a + 1 ≤ h.size := Heap.lt_size_of_get ho
  have hf₁ := hf.keepsHeap hk
  obtain ⟨o₁, rs₁, ho₁, hu₁, hs₁, hrel₁⟩ := hf₁.elems
  obtain ⟨p, hp⟩ := hy.live
  obtain ⟨h₂, happend, hk₂, o₂, ho₂, hu₂, hs₂⟩ := Arrays.xpcArrayAppendValue_ok ho₁ hu₁ hp
  refine ⟨h₂, happend, ((hf₁.keeps.keepsBut a).trans hk₂).keeps hf.fresh, hf.fresh, o₂, _, ho₂,
    hu₂, hs₂.trans hs₁, ?_⟩
  have hnew := List.rel_append hrel₁ (.cons (hy.keeps hlt (Heap.Keeps.refl h₁)) .nil)
  exact hnew.imp (fun _ _ hw => hw.keepsBut (Nat.lt_succ_self a) hk₂)

theorem FillsArray.treeFrom {acc : List Tree} (hf : FillsArray h₀ h h₀.size acc) :
    TreeFrom h h₀.size h₀.size (.array acc) := by
  obtain ⟨o, rs, ho, hu, -, hrs⟩ := hf.elems
  refine treeFrom_array.mpr ⟨Nat.le_refl _, o, rs, ho, hu, ?_⟩
  exact hrs.imp (fun _ _ hw => hw.keeps (Nat.le_succ _) (Heap.Keeps.refl h))

end Building
end OpenXPC
