import Mathlib.Data.List.Nodup
import Mathlib.Logic.Relation
import Mathlib.Tactic.Common

/-! # Walks

A walk visits a node and then walks over its children, one after another. Its depth is
bounded by fuel. It ends exactly where the children are well-founded, and then it visits
what is reached in a fixed order. -/
namespace OpenXPC.Walks

universe u

variable {α : Type u} {σ ε : Type} {children : α → List α}

/-- Why a walk has no result. -/
inductive Halt (ε : Type)
  | error (e : ε)
  | outOfFuel

def walk (children : α → List α) (visit : α → σ → Except ε σ) : ℕ → α → σ → Except (Halt ε) σ
  | 0, _, _ => .error .outOfFuel
  | n + 1, a, s => do
    let s ← (visit a s).mapError .error
    (children a).foldlM (fun s c => walk children visit n c s) s

/-- The nodes in the order of the visits. -/
def preorder (children : α → List α) : ℕ → α → Option (List α)
  | 0, _ => none
  | n + 1, a => do
    let below ← (children a).mapM (preorder children n)
    some (a :: below.flatten)

def Child (children : α → List α) (a b : α) : Prop := b ∈ children a

/-- What is reached from a node, the node itself included. -/
abbrev Reaches (children : α → List α) : α → α → Prop := Relation.ReflTransGen (Child children)

/-! ## The walk as a fold over the nodes -/

section Order

variable {n m : ℕ} {a b : α} {l : List α}

theorem preorder_succ : preorder children (n + 1) a = some l ↔
    ∃ below, (children a).mapM (preorder children n) = some below ∧ l = a :: below.flatten := by
  rw [preorder]
  cases (children a).mapM (preorder children n) with
  | none => simp
  | some below => simp [eq_comm]

theorem mapM_cons_some {f : α → Option (List α)} {as : List α} {lss : List (List α)} :
    (a :: as).mapM f = some lss ↔ ∃ ls lss', f a = some ls ∧ as.mapM f = some lss' ∧ lss = ls :: lss' := by
  rw [List.mapM_cons]
  cases f a with
  | none => simp
  | some ls =>
    cases as.mapM f with
    | none => simp
    | some lss' => simp [eq_comm]

/-- The lists of a traversal, one for each element. -/
theorem mapM_some_iff {f : α → Option (List α)} {as : List α} {lss : List (List α)} :
    as.mapM f = some lss ↔ List.Forall₂ (fun a ls => f a = some ls) as lss := by
  induction as generalizing lss with
  | nil =>
    rw [List.mapM_nil, List.forall₂_nil_left_iff]
    exact ⟨fun h => (Option.some.inj h).symm, fun h => h ▸ rfl⟩
  | cons a as ih =>
    rw [mapM_cons_some, List.forall₂_cons_left_iff]
    constructor
    · intro h
      obtain ⟨ls, lss', ha, has, rfl⟩ := h
      exact ⟨ls, lss', ha, ih.mp has, rfl⟩
    · intro h
      obtain ⟨ls, lss', ha, has, rfl⟩ := h
      exact ⟨ls, lss', ha, ih.mpr has, rfl⟩

theorem exists_mapM {f : α → Option (List α)} {as : List α} (h : ∀ a ∈ as, ∃ ls, f a = some ls) :
    ∃ lss, as.mapM f = some lss := by
  induction as with
  | nil => exact ⟨[], rfl⟩
  | cons a as ih =>
    rw [List.forall_mem_cons] at h
    obtain ⟨ls, ha⟩ := h.1
    obtain ⟨lss, has⟩ := ih h.2
    exact ⟨ls :: lss, mapM_cons_some.mpr ⟨ls, lss, ha, has, rfl⟩⟩

/-- A walk with fuel enough visits the nodes in their order. -/
theorem walk_eq_foldlM (visit : α → σ → Except ε σ) (h : preorder children n a = some l) (s : σ) :
    walk children visit n a s = (l.foldlM (fun s a => visit a s) s).mapError .error := by
  induction n generalizing a l s with
  | zero => cases h
  | succ n ih =>
    obtain ⟨below, hbelow, rfl⟩ := preorder_succ.mp h
    rw [walk, List.foldlM_cons]
    cases visit a s with
    | error e => rfl
    | ok s₁ =>
      dsimp only [Except.mapError, bind, Except.bind]
      -- the children one after another
      rw [mapM_some_iff] at hbelow
      generalize children a = cs at hbelow
      clear h
      induction hbelow generalizing s₁ with
      | nil => rfl
      | @cons c ls cs below hc _ ihcs =>
        rw [List.foldlM_cons, ih hc, List.flatten_cons, List.foldlM_append]
        cases ls.foldlM (fun s a => visit a s) s₁ with
        | error e => rfl
        | ok s₂ => exact ihcs s₂

theorem exists_foldlM {visit : α → σ → Except ε σ} (hvisit : ∀ a s, ∃ s', visit a s = .ok s')
    (l : List α) (s : σ) : ∃ s', l.foldlM (fun s a => visit a s) s = .ok s' := by
  induction l generalizing s with
  | nil => exact ⟨s, rfl⟩
  | cons a l ih =>
    obtain ⟨s₁, hs₁⟩ := hvisit a s
    obtain ⟨s₂, hs₂⟩ := ih s₁
    refine ⟨s₂, ?_⟩
    rw [List.foldlM_cons, hs₁]
    exact hs₂

/-- Without fuel enough, a walk whose visits do not fail has no result. -/
theorem walk_of_none (visit : α → σ → Except ε σ) (hvisit : ∀ a s, ∃ s', visit a s = .ok s')
    (h : preorder children n a = none) (s : σ) :
    walk children visit n a s = .error .outOfFuel := by
  induction n generalizing a s with
  | zero => rfl
  | succ n ih =>
    obtain ⟨s₁, hs₁⟩ := hvisit a s
    rw [walk, hs₁]
    dsimp only [Except.mapError, bind, Except.bind]
    have hnone : (children a).mapM (preorder children n) = none := by
      cases hbelow : (children a).mapM (preorder children n) with
      | none => rfl
      | some below =>
        rw [preorder, hbelow] at h
        cases h
    clear h hs₁
    generalize children a = cs at hnone
    induction cs generalizing s₁ with
    | nil => cases hnone
    | cons c cs ihcs =>
      rw [List.foldlM_cons]
      cases hc : preorder children n c with
      | none =>
        rw [ih hc]
        rfl
      | some ls =>
        have hrest : cs.mapM (preorder children n) = none := by
          cases hcs : cs.mapM (preorder children n) with
          | none => rfl
          | some below =>
            rw [mapM_cons_some.mpr ⟨ls, below, hc, hcs, rfl⟩] at hnone
            cases hnone
        obtain ⟨s₂, hs₂⟩ := exists_foldlM hvisit ls s₁
        rw [walk_eq_foldlM visit hc, hs₂]
        exact ihcs s₂ hrest

theorem preorder_mono (h : preorder children n a = some l) (hle : n ≤ m) :
    preorder children m a = some l := by
  induction n generalizing a l m with
  | zero => cases h
  | succ n ih =>
    obtain ⟨m, rfl⟩ := Nat.exists_eq_succ_of_ne_zero (Nat.ne_of_gt (Nat.lt_of_lt_of_le (Nat.succ_pos n) hle))
    obtain ⟨below, hbelow, rfl⟩ := preorder_succ.mp h
    refine preorder_succ.mpr ⟨below, mapM_some_iff.mpr ?_, rfl⟩
    exact (mapM_some_iff.mp hbelow).imp fun c ls hc => ih hc (Nat.le_of_succ_le_succ hle)

/-- The walk ends if and only if the children below the node are well-founded. -/
theorem exists_preorder_iff (a : α) :
    (∃ n l, preorder children n a = some l) ↔ Acc (fun b a => Child children a b) a := by
  constructor
  · intro h
    obtain ⟨n, l, h⟩ := h
    induction n generalizing a l with
    | zero => cases h
    | succ n ih =>
      obtain ⟨below, hbelow, -⟩ := preorder_succ.mp h
      refine Acc.intro a fun c hc => ?_
      obtain ⟨i, hi, rfl⟩ := List.mem_iff_getElem.mp hc
      have hforall := mapM_some_iff.mp hbelow
      have hlen := hforall.length_eq
      exact ih _ _ (List.forall₂_iff_get.mp hforall |>.2 i hi (hlen ▸ hi))
  · intro h
    induction h with
    | intro a _ ih =>
      -- fuel for every child
      have hbound : ∀ cs : List α, (∀ c ∈ cs, ∃ n l, preorder children n c = some l) →
          ∃ n, ∀ c ∈ cs, ∃ l, preorder children n c = some l := by
        intro cs hcs
        induction cs with
        | nil => exact ⟨0, fun c hc => absurd hc List.not_mem_nil⟩
        | cons c cs ihcs =>
          rw [List.forall_mem_cons] at hcs
          obtain ⟨n, l, hc⟩ := hcs.1
          obtain ⟨m, hm⟩ := ihcs hcs.2
          refine ⟨max n m, List.forall_mem_cons.mpr ⟨⟨l, preorder_mono hc (Nat.le_max_left n m)⟩, ?_⟩⟩
          intro b hb
          obtain ⟨l', hl'⟩ := hm b hb
          exact ⟨l', preorder_mono hl' (Nat.le_max_right n m)⟩
      obtain ⟨n, hn⟩ := hbound (children a) fun c hc => ih c hc
      obtain ⟨below, hbelow⟩ := exists_mapM hn
      exact ⟨n + 1, _, preorder_succ.mpr ⟨below, hbelow, rfl⟩⟩

/-- The nodes visited are those that are reached. -/
theorem mem_preorder_iff (h : preorder children n a = some l) : b ∈ l ↔ Reaches children a b := by
  induction n generalizing a l with
  | zero => cases h
  | succ n ih =>
    obtain ⟨below, hbelow, rfl⟩ := preorder_succ.mp h
    have hforall := mapM_some_iff.mp hbelow
    rw [List.mem_cons, List.mem_flatten]
    constructor
    · intro hb
      rcases hb with rfl | ⟨ls, hls, hb⟩
      · exact .refl
      · obtain ⟨i, hi, rfl⟩ := List.mem_iff_getElem.mp hls
        have hlen := hforall.length_eq
        have hc := List.forall₂_iff_get.mp hforall |>.2 i (hlen ▸ hi) hi
        exact .head (List.getElem_mem _) ((ih hc).mp hb)
    · intro hb
      rcases Relation.ReflTransGen.cases_head hb with rfl | ⟨c, hc, hb⟩
      · exact .inl rfl
      · obtain ⟨i, hi, rfl⟩ := List.mem_iff_getElem.mp hc
        have hlen := hforall.length_eq
        have hls := List.forall₂_iff_get.mp hforall |>.2 i hi (hlen ▸ hi)
        exact .inr ⟨_, List.getElem_mem (hlen ▸ hi), (ih hls).mpr hb⟩

/-- Below two children of a node there is nothing in common, nor are children listed twice. -/
def Branches (children : α → List α) (a : α) : Prop :=
  (children a).Pairwise (fun c d => ∀ b, Reaches children c b → ¬ Reaches children d b)

theorem irrefl_of_acc {r : α → α → Prop} (h : Acc r a) : ¬ r a a := by
  induction h with
  | intro a _ ih => exact fun haa => ih a haa haa

/-- Below a node where the children are well-founded they are so everywhere. -/
theorem acc_of_reaches (h : Acc (fun b a => Child children a b) a) (hb : Reaches children a b) :
    Acc (fun b a => Child children a b) b := by
  induction hb with
  | refl => exact h
  | tail _ hchild ih => exact ih.inv hchild

/-- Where the ways down stay apart, no node is visited twice. -/
theorem nodup_preorder (h : preorder children n a = some l)
    (hbranch : ∀ b, Reaches children a b → Branches children b) : l.Nodup := by
  induction n generalizing a l with
  | zero => cases h
  | succ n ih =>
    have hacc := (exists_preorder_iff a).mp ⟨n + 1, l, h⟩
    obtain ⟨below, hbelow, rfl⟩ := preorder_succ.mp h
    have hforall := mapM_some_iff.mp hbelow
    have hlen := hforall.length_eq
    have hget := (List.forall₂_iff_get.mp hforall).2
    refine List.nodup_cons.mpr ⟨fun hmem => ?_, List.nodup_flatten.mpr ⟨fun ls hls => ?_, ?_⟩⟩
    · -- the node would be below itself
      obtain ⟨ls, hls, ha⟩ := List.mem_flatten.mp hmem
      obtain ⟨i, hi, rfl⟩ := List.mem_iff_getElem.mp hls
      have hreach := (mem_preorder_iff (hget i (hlen ▸ hi) hi)).mp ha
      have hcycle : Relation.TransGen (Child children) a a := .head' (List.getElem_mem (hlen ▸ hi)) hreach
      exact irrefl_of_acc hacc.transGen (Relation.transGen_swap.mpr hcycle)
    · obtain ⟨i, hi, rfl⟩ := List.mem_iff_getElem.mp hls
      exact ih (hget i (hlen ▸ hi) hi) fun b hb => hbranch b (.head (List.getElem_mem (hlen ▸ hi)) hb)
    · rw [List.pairwise_iff_getElem]
      intro i j hi hj hij b hb hb'
      have hbi := (mem_preorder_iff (hget i (hlen ▸ hi) hi)).mp hb
      have hbj := (mem_preorder_iff (hget j (hlen ▸ hj) hj)).mp hb'
      exact List.pairwise_iff_getElem.mp (hbranch a .refl) i j (hlen ▸ hi) (hlen ▸ hj) hij b hbi hbj

end Order

/-! ## Nodes that are picked -/

/-- What is picked from a list keeps its order and its labels. -/
theorem sublist_map_filterMap {β γ δ : Type*} {f : β → Option γ} {g : γ → δ} {g' : β → δ}
    (hf : ∀ a b, f a = some b → g b = g' a) (l : List β) :
    ((l.filterMap f).map g).Sublist (l.map g') := by
  induction l with
  | nil => exact List.Sublist.refl _
  | cons a l ih =>
    rw [List.map_cons]
    cases ha : f a with
    | none =>
      rw [List.filterMap_cons_none ha]
      exact ih.cons (g' a)
    | some b =>
      rw [List.filterMap_cons_some ha, List.map_cons, hf a b ha]
      exact ih.cons_cons (g' a)

end OpenXPC.Walks
