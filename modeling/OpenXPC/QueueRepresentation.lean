import Mathlib.Data.List.Forall2
import Mathlib.Data.List.Range
import OpenXPC.LinkedPairs

/-! # Queues of pairs as lists

The pairs of each live dictionary stand in its queue in the order of its list, no pair is
in two queues, and every pair that is not freed is in one. The operations keep this. -/
namespace OpenXPC.LinkedPairs
open InsertionMap TailQueue LinkedStore

theorem heap_set_self {h : Heap (List ObjId)} {x : ObjId} {o : XpcObject (List ObjId)} (hx : h.get x = some o) :
    h.set x o = h := by
  obtain ⟨hlt, hval⟩ := List.getElem?_eq_some_iff.mp (Option.join_eq_some_iff.mp hx)
  rw [Heap.set, ← hval, List.set_getElem_self]

/-! ## The relation -/

/-- The store represents the heap. The pairs of a dictionary have the names `ids`; the loose
ones have been taken out of a queue and are about to be freed. -/
structure Represents (m : LinkedStore) (h : Heap (List ObjId)) (ids : ObjId → List ℕ) (loose : List ℕ) :
    Prop where
  heap : m.heap = emptiedHeap h
  queue : ∀ {x ps}, Holds h x ps → m.links.WellFormed x (ids x)
  content : ∀ {x ps}, Holds h x ps → List.Forall₂ (fun p kv => m.pair p = some kv) (ids x) ps
  apart : ∀ {x y ps qs}, Holds h x ps → Holds h y qs → x ≠ y → ∀ p ∈ ids x, p ∉ ids y
  live : ∀ p, (∃ kv, m.pair p = some kv) ↔ p ∈ loose ∨ ∃ x ps, Holds h x ps ∧ p ∈ ids x
  once : loose.Nodup
  unlinked : ∀ {x ps}, Holds h x ps → ∀ p ∈ loose, p ∉ ids x

/-- Nothing is stored yet; the links are what `malloc` left there. -/
def emptyStore (links : Links ObjId ℕ) : LinkedStore := ⟨⟨[]⟩, links, []⟩

theorem represents_empty (links : Links ObjId ℕ) : Represents (emptyStore links) ⟨[]⟩ (fun _ => []) [] where
  heap := rfl
  queue := fun ⟨_, ho, _⟩ => by cases ho
  content := fun ⟨_, ho, _⟩ => by cases ho
  apart := fun ⟨_, ho, _⟩ => by cases ho
  live p := by simp [pair, emptyStore]
  once := List.nodup_nil
  unlinked := fun _ _ hp => absurd hp List.not_mem_nil

section Pairs

variable {m : LinkedStore} {p q : ℕ} {kv : CString × ObjId} {c : Option (CString × ObjId)}

theorem lt_of_pair (hp : m.pair p = some kv) : p < m.pairs.length := by
  by_contra hn
  rw [pair, List.getElem?_eq_none (Nat.le_of_not_lt hn)] at hp
  cases hp

theorem derefPair_of_pair (hp : m.pair p = some kv) : m.derefPair p = .ok kv := by
  rw [derefPair, hp]

theorem pair_set (hp : p < m.pairs.length) (heap : Heap (List ObjId)) (links : Links ObjId ℕ) :
    pair ⟨heap, links, m.pairs.set p c⟩ q = if q = p then c else m.pair q := by
  rw [pair, pair, List.getElem?_set]
  split_ifs with hpq hqp hqp
  · rfl
  · exact absurd hpq.symm hqp
  · exact absurd hqp.symm hpq
  · rfl

theorem pair_append (heap : Heap (List ObjId)) (links : Links ObjId ℕ) :
    pair ⟨heap, links, m.pairs ++ [c]⟩ q = if q = m.pairs.length then c else m.pair q := by
  rw [pair, pair]
  rcases Nat.lt_trichotomy q m.pairs.length with hlt | heq | hgt
  · rw [List.getElem?_append_left hlt, if_neg (Nat.ne_of_lt hlt)]
  · simp [heq]
  · rw [List.getElem?_eq_none (by simp; omega), List.getElem?_eq_none (Nat.le_of_lt hgt),
      if_neg (Nat.ne_of_gt hgt)]

/-- The content of a queue depends on its own pairs alone. -/
theorem content_congr {m' : LinkedStore} {es : List ℕ} {ps : Pairs}
    (hcontent : List.Forall₂ (fun p kv => m.pair p = some kv) es ps) (hpair : ∀ p ∈ es, m'.pair p = m.pair p) :
    List.Forall₂ (fun p kv => m'.pair p = some kv) es ps := by
  rw [List.forall₂_iff_zip] at hcontent ⊢
  refine ⟨hcontent.1, fun {p kv} hmem => ?_⟩
  rw [hpair p (List.of_mem_zip hmem).1]
  exact hcontent.2 hmem

end Pairs

namespace Represents

variable {m : LinkedStore} {h h' : Heap (List ObjId)} {ids : ObjId → List ℕ} {loose : List ℕ}
  {x y v : ObjId} {o : XpcObject (List ObjId)} {ps : Pairs} {p : ℕ}

theorem get (hr : Represents m h ids loose) (hx : h.get x = some o) : m.heap.get x = some (emptied o) := by
  rw [hr.heap, get_emptiedHeap_of_get hx]

theorem deref (hr : Represents m h ids loose) (hx : h.get x = some o) : m.heap.deref x = .ok (emptied o) :=
  Heap.deref_of_get (hr.get hx)

theorem derefDict (hr : Represents m h ids loose) (hx : h.get x = some o) (hu : o.xoU = .dictionary ps) :
    m.derefDict x = .ok (o.withPairs [] o.xoSize) := by
  rw [LinkedStore.derefDict, hr.deref hx, emptied_of_dictionary hu]
  rfl

theorem pair_of_mem (hr : Represents m h ids loose) (hx : Holds h x ps) (hp : p ∈ ids x) :
    ∃ kv, m.pair p = some kv := (hr.live p).mpr (.inr ⟨x, ps, hx, hp⟩)

theorem fresh (hr : Represents m h ids loose) (hx : Holds h x ps) : m.pairs.length ∉ ids x := by
  intro hmem
  obtain ⟨kv, hkv⟩ := hr.pair_of_mem hx hmem
  exact Nat.lt_irrefl _ (lt_of_pair hkv)

theorem length_ids_le (hr : Represents m h ids loose) (hx : Holds h x ps) :
    (ids x).length ≤ m.pairs.length := by
  have hsub : ids x ⊆ List.range m.pairs.length := by
    intro p hp
    obtain ⟨kv, hkv⟩ := hr.pair_of_mem hx hp
    exact List.mem_range.mpr (lt_of_pair hkv)
  have hle := (List.subperm_of_subset (hr.queue hx).chain.nodup hsub).length_le
  rwa [List.length_range] at hle

theorem tqhFirst (hr : Represents m h ids loose) (hx : Holds h x ps) : m.links.tqhFirst x = (ids x).head? :=
  (hr.queue hx).chain.load_eq_head

/-- The cells of a queue are in live blocks. -/
theorem derefCell (hr : Represents m h ids loose) (hx : Holds h x ps) {c : Cell ObjId ℕ}
    (hc : c ∈ (.first x :: (ids x).map .next : List (Cell ObjId ℕ))) : m.derefCell c = .ok () := by
  rcases List.mem_cons.mp hc with rfl | hc
  · obtain ⟨o, ho, -⟩ := hx
    rw [LinkedStore.derefCell, hr.deref ho]
    rfl
  · obtain ⟨p, hp, rfl⟩ := List.mem_map.mp hc
    obtain ⟨kv, hkv⟩ := hr.pair_of_mem hx hp
    rw [LinkedStore.derefCell, derefPair_of_pair hkv]
    rfl

/-! ## What the steps do to it -/

/-- The heap changes, but no dictionary does. -/
theorem of_holds (hr : Represents m h ids loose) (hh : ∀ y qs, Holds h' y qs ↔ Holds h y qs) :
    Represents { m with heap := emptiedHeap h' } h' ids loose where
  heap := rfl
  queue hx := hr.queue ((hh _ _).mp hx)
  content hx := hr.content ((hh _ _).mp hx)
  apart hx hy := hr.apart ((hh _ _).mp hx) ((hh _ _).mp hy)
  live p := by
    simp only [hh]
    exact hr.live p
  once := hr.once
  unlinked hx := hr.unlinked ((hh _ _).mp hx)

/-- An object without pairs is freed. -/
theorem free (hr : Represents m h ids loose) (hx : ∀ ps, Holds h x ps → ids x = []) :
    Represents { m with heap := m.heap.free x } (h.free x) ids loose where
  heap := by rw [hr.heap, emptiedHeap_free]
  queue hy := hr.queue (holds_free.mp hy).2
  content hy := hr.content (holds_free.mp hy).2
  apart hy hz := hr.apart (holds_free.mp hy).2 (holds_free.mp hz).2
  live p := by
    refine (hr.live p).trans (or_congr_right ⟨?_, ?_⟩)
    · rintro ⟨y, qs, hy, hp⟩
      refine ⟨y, qs, holds_free.mpr ⟨?_, hy⟩, hp⟩
      rintro rfl
      rw [hx qs hy] at hp
      cases hp
    · rintro ⟨y, qs, hy, hp⟩
      exact ⟨y, qs, (holds_free.mp hy).2, hp⟩
  once := hr.once
  unlinked hy := hr.unlinked (holds_free.mp hy).2

/-- One dictionary gets other pairs, and the rest stays as it is. -/
theorem update {m' : LinkedStore} {es loose' : List ℕ} (hr : Represents m h ids loose) (ps : Pairs)
    (hheap : m'.heap = emptiedHeap h')
    (hholds : ∀ y qs, Holds h' y qs ↔ if y = x then qs = ps else Holds h y qs)
    (hself : m'.links.WellFormed x es)
    (hcontent : List.Forall₂ (fun p kv => m'.pair p = some kv) es ps)
    (hqueue : ∀ y qs, y ≠ x → Holds h y qs → m'.links.WellFormed y (ids y))
    (hpair : ∀ y qs, y ≠ x → Holds h y qs → ∀ p ∈ ids y, m'.pair p = m.pair p)
    (hapart : ∀ y qs, y ≠ x → Holds h y qs → ∀ p ∈ es, p ∉ ids y)
    (hlive : ∀ p, (∃ kv, m'.pair p = some kv) ↔
      p ∈ loose' ∨ p ∈ es ∨ ∃ y qs, y ≠ x ∧ Holds h y qs ∧ p ∈ ids y)
    (honce : loose'.Nodup) (hloose : ∀ p ∈ loose', p ∉ es)
    (hunlinked : ∀ y qs, y ≠ x → Holds h y qs → ∀ p ∈ loose', p ∉ ids y) :
    Represents m' h' (Function.update ids x es) loose' := by
  have hself' : ∀ {qs}, Holds h' x qs → qs = ps := fun hx => by simpa using (hholds x _).mp hx
  have hother : ∀ {y qs}, y ≠ x → Holds h' y qs → Holds h y qs :=
    fun hy hq => by simpa [hy] using (hholds _ _).mp hq
  refine ⟨hheap, fun {y qs} hy => ?_, fun {y qs} hy => ?_, fun {y z qs rs} hy hz hyz => ?_, fun p => ?_, honce,
    fun {y qs} hy => ?_⟩
  · by_cases hyx : y = x
    · subst hyx
      rwa [Function.update_self]
    · rw [Function.update_of_ne hyx]
      exact hqueue y qs hyx (hother hyx hy)
  · by_cases hyx : y = x
    · subst hyx
      rw [Function.update_self, hself' hy]
      exact hcontent
    · rw [Function.update_of_ne hyx]
      exact content_congr (hr.content (hother hyx hy)) (hpair y qs hyx (hother hyx hy))
  · by_cases hyx : y = x
    · subst hyx
      rw [Function.update_self, Function.update_of_ne hyz.symm]
      exact hapart z rs hyz.symm (hother hyz.symm hz)
    · rw [Function.update_of_ne hyx]
      by_cases hzx : z = x
      · subst hzx
        rw [Function.update_self]
        exact fun p hp hmem => hapart y qs hyx (hother hyx hy) p hmem hp
      · rw [Function.update_of_ne hzx]
        exact hr.apart (hother hyx hy) (hother hzx hz) hyz
  · refine (hlive p).trans (or_congr_right ⟨?_, ?_⟩)
    · rintro (hp | ⟨y, qs, hyx, hy, hp⟩)
      · exact ⟨x, ps, (hholds x ps).mpr (by simp), by rwa [Function.update_self]⟩
      · exact ⟨y, qs, (hholds y qs).mpr (by simpa [hyx] using hy), by rwa [Function.update_of_ne hyx]⟩
    · rintro ⟨y, qs, hy, hp⟩
      by_cases hyx : y = x
      · subst hyx
        rw [Function.update_self] at hp
        exact .inl hp
      · rw [Function.update_of_ne hyx] at hp
        exact .inr ⟨y, qs, hyx, hother hyx hy, hp⟩
  · by_cases hyx : y = x
    · subst hyx
      rw [Function.update_self]
      exact hloose
    · rw [Function.update_of_ne hyx]
      exact hunlinked y qs hyx (hother hyx hy)

/-- What is live beside the pairs of one dictionary. -/
theorem live_split (hr : Represents m h ids loose) (hx : Holds h x ps) (p : ℕ) :
    (∃ kv, m.pair p = some kv) ↔ p ∈ loose ∨ p ∈ ids x ∨ ∃ y qs, y ≠ x ∧ Holds h y qs ∧ p ∈ ids y := by
  refine (hr.live p).trans (or_congr_right ⟨?_, ?_⟩)
  · rintro ⟨y, qs, hy, hp⟩
    by_cases hyx : y = x
    · exact .inl (hyx ▸ hp)
    · exact .inr ⟨y, qs, hyx, hy, hp⟩
  · rintro (hp | ⟨y, qs, -, hy, hp⟩)
    · exact ⟨x, ps, hx, hp⟩
    · exact ⟨y, qs, hy, hp⟩

theorem create (hr : Represents m h ids loose) (hu : o.xoU = .dictionary []) :
    Represents ⟨(m.heap.alloc (o.withPairs [] o.xoSize)).1, m.links.init h.size, m.pairs⟩ (h.alloc o).1
      (Function.update ids h.size []) loose := by
  have hne : ∀ {y qs}, Holds h y qs → y ≠ h.size := fun ⟨_, ho, _⟩ => Nat.ne_of_lt (Heap.lt_size_of_get ho)
  refine hr.update [] ?_ (fun y qs => ?_) (Links.wellFormed_init _ _) .nil (fun y qs hy hq => ?_)
    (fun _ _ _ _ _ _ => rfl) (fun _ _ _ _ p hp => absurd hp List.not_mem_nil) (fun p => ?_) hr.once
    (fun _ _ hp => absurd hp List.not_mem_nil) fun y qs _ hq => hr.unlinked hq
  · rw [hr.heap, emptiedHeap_alloc, emptied_of_dictionary hu]
  · rw [holds_alloc, hu]
    split_ifs
    · exact ⟨fun heq => (Payload.dictionary.inj heq).symm, fun heq => by rw [heq]⟩
    · exact Iff.rfl
  · exact (hr.queue hq).init_other hy
  · refine (hr.live p).trans (or_congr_right ⟨?_, ?_⟩)
    · rintro ⟨y, qs, hy, hp⟩
      exact .inr ⟨y, qs, hne hy, hy, hp⟩
    · rintro (hp | ⟨y, qs, -, hy, hp⟩)
      · cases hp
      · exact ⟨y, qs, hy, hp⟩

/-- The setter has allocated a pair and linked it in. -/
theorem insert (hr : Represents m h ids loose) (hx : h.get x = some o) (hu : o.xoU = .dictionary ps)
    (kv : CString × ObjId) (n : ℕ) :
    Represents ⟨m.heap.set x (o.withPairs [] n), m.links.insertTail x m.pairs.length, m.pairs ++ [some kv]⟩
      (h.set x (o.withPairs (ps ++ [kv]) n)) (Function.update ids x (ids x ++ [m.pairs.length])) loose := by
  have hholds : Holds h x ps := ⟨o, hx, hu⟩
  have hold : ∀ {y qs}, Holds h y qs → ∀ p ∈ ids y,
      pair ⟨m.heap.set x (o.withPairs [] n), m.links.insertTail x m.pairs.length, m.pairs ++ [some kv]⟩ p =
        m.pair p := by
    intro y qs hy p hp
    obtain ⟨kv', hkv⟩ := hr.pair_of_mem hy hp
    rw [pair_append, if_neg (Nat.ne_of_lt (lt_of_pair hkv))]
  refine hr.update (ps ++ [kv]) ?_ (fun y qs => ?_) ((hr.queue hholds).insertTail (hr.fresh hholds)) ?_
    (fun y qs hyx hy => ?_) (fun y qs _ hy => hold hy) (fun y qs hyx hy p hp => ?_) (fun p => ?_) hr.once
    (fun p hp hmem => ?_) fun y qs _ hy => hr.unlinked hy
  · rw [hr.heap, emptiedHeap_set, emptied_withPairs]
  · rw [holds_set hx]
    split_ifs
    · exact ⟨fun heq => (Payload.dictionary.inj heq).symm, fun heq => by rw [heq]; rfl⟩
    · exact Iff.rfl
  · refine List.rel_append ?_ (.cons (by rw [pair_append, if_pos rfl]) .nil)
    exact content_congr (hr.content hholds) (hold hholds)
  · exact (hr.queue hholds).insertTail_other (hr.queue hy) hyx (hr.fresh hy) (hr.apart hy hholds hyx)
  · rcases List.mem_append.mp hp with hp | hp
    · exact hr.apart hholds hy hyx.symm p hp
    · rw [List.mem_singleton.mp hp]
      exact hr.fresh hy
  · rw [pair_append]
    split_ifs with hp
    · simp [hp]
    · rw [hr.live_split hholds, List.mem_append, List.mem_singleton]
      simp [hp]
  · rcases List.mem_append.mp hmem with hmem | hmem
    · exact hr.unlinked hholds p hp hmem
    · obtain ⟨kv', hkv⟩ := (hr.live p).mpr (.inl hp)
      exact Nat.ne_of_lt (lt_of_pair hkv) (List.mem_singleton.mp hmem)

/-- The setter has written a value over the old one of its key. -/
theorem overwrite (hr : Represents m h ids loose) (hx : h.get x = some o) (hu : o.xoU = .dictionary ps)
    (hp : p ∈ ids x) (kv : CString × ObjId) {qs : Pairs}
    (hcontent : List.Forall₂ (fun q c => (if q = p then some kv else m.pair q) = some c) (ids x) qs) :
    Represents { m with pairs := m.pairs.set p (some kv) } (h.set x (o.withPairs qs o.xoSize)) ids loose := by
  have hholds : Holds h x ps := ⟨o, hx, hu⟩
  have hlt : p < m.pairs.length := by
    obtain ⟨kv', hkv⟩ := hr.pair_of_mem hholds hp
    exact lt_of_pair hkv
  have hpair : ∀ q, pair { m with pairs := m.pairs.set p (some kv) } q = if q = p then some kv else m.pair q :=
    fun q => pair_set hlt _ _
  have hsame : m.heap.set x (emptied (o.withPairs qs o.xoSize)) = m.heap := by
    have hget := hr.get hx
    rw [emptied_of_dictionary hu] at hget
    exact heap_set_self hget
  rw [← Function.update_eq_self x ids]
  refine hr.update qs ?_ (fun y rs => ?_) (hr.queue hholds) ?_ (fun y rs _ hy => hr.queue hy)
    (fun y rs hyx hy q hq => ?_) (fun y rs hyx hy => hr.apart hholds hy hyx.symm) (fun q => ?_) hr.once
    (hr.unlinked hholds) fun y rs _ hy => hr.unlinked hy
  · rw [emptiedHeap_set, ← hr.heap, hsame]
  · rw [holds_set hx]
    split_ifs
    · exact ⟨fun heq => (Payload.dictionary.inj heq).symm, fun heq => by rw [heq]; rfl⟩
    · exact Iff.rfl
  · simpa only [hpair] using hcontent
  · have hne : q ≠ p := fun heq => hr.apart hholds hy hyx.symm p hp (heq ▸ hq)
    rw [hpair, if_neg hne]
  · rw [← hr.live_split hholds, hpair]
    split_ifs with hqp
    · rw [hqp]
      exact iff_of_true ⟨kv, rfl⟩ (hr.pair_of_mem hholds hp)
    · exact Iff.rfl

/-- The destructor has taken the first pair out of a queue. -/
theorem unlink {es : List ℕ} {kv : CString × ObjId} (hr : Represents m h ids loose) (hx : h.get x = some o)
    (hu : o.xoU = .dictionary (kv :: ps)) (hids : ids x = p :: es) :
    Represents { m with links := m.links.remove x p } (h.set x (o.withPairs ps o.xoSize))
      (Function.update ids x es) (p :: loose) := by
  have hholds : Holds h x (kv :: ps) := ⟨o, hx, hu⟩
  have hmem : p ∈ ids x := hids ▸ List.mem_cons_self
  have hsub : ∀ q ∈ es, q ∈ ids x := fun q hq => hids ▸ List.mem_cons_of_mem p hq
  have hsame : m.heap.set x (emptied (o.withPairs ps o.xoSize)) = m.heap := by
    have hget := hr.get hx
    rw [emptied_of_dictionary hu] at hget
    exact heap_set_self hget
  have hqueue : m.links.WellFormed x (p :: es) := hids ▸ hr.queue hholds
  have hcontent : List.Forall₂ (fun p kv => m.pair p = some kv) (p :: es) (kv :: ps) :=
    hids ▸ hr.content hholds
  refine hr.update ps ?_ (fun y qs => ?_) hqueue.remove_first (List.forall₂_cons.mp hcontent).2
    (fun y qs hyx hy => ?_) (fun _ _ _ _ _ _ => rfl)
    (fun y qs hyx hy q hq => hr.apart hholds hy hyx.symm q (hsub q hq)) (fun q => ?_) ?_ (fun q hq => ?_)
    fun y qs hyx hy q hq => ?_
  · rw [emptiedHeap_set, ← hr.heap, hsame]
  · rw [holds_set hx]
    split_ifs
    · exact ⟨fun heq => (Payload.dictionary.inj heq).symm, fun heq => by rw [heq]; rfl⟩
    · exact Iff.rfl
  · refine hqueue.remove_first_other (hr.queue hy) hyx fun q hq => ?_
    rw [← hids]
    exact hr.apart hy hholds hyx q hq
  · refine (hr.live_split hholds q).trans ?_
    rw [hids, List.mem_cons, List.mem_cons]
    tauto
  · exact List.nodup_cons.mpr ⟨fun hp => hr.unlinked hholds p hp hmem, hr.once⟩
  · rcases List.mem_cons.mp hq with rfl | hq
    · exact hqueue.first_notMem
    · exact fun hqes => hr.unlinked hholds q hq (hsub q hqes)
  · rcases List.mem_cons.mp hq with rfl | hq
    · exact hr.apart hholds hy hyx.symm q hmem
    · exact hr.unlinked hy q hq

theorem freePair (hr : Represents m h ids (p :: loose)) :
    ∃ m', LinkedPairs.freePair m p = .ok m' ∧ Represents m' h ids loose := by
  obtain ⟨kv, hkv⟩ := (hr.live p).mpr (.inl List.mem_cons_self)
  have hpair : ∀ q, pair { m with pairs := m.pairs.set p none } q = if q = p then none else m.pair q :=
    fun q => pair_set (lt_of_pair hkv) _ _
  have hkeep : ∀ {x ps}, Holds h x ps → ∀ q ∈ ids x,
      pair { m with pairs := m.pairs.set p none } q = m.pair q := by
    intro x ps hx q hq
    have hne : q ≠ p := fun heq => hr.unlinked hx p List.mem_cons_self (heq ▸ hq)
    rw [hpair, if_neg hne]
  have hfree : LinkedPairs.freePair m p = .ok { m with pairs := m.pairs.set p none } := by
    rw [LinkedPairs.freePair, derefPair_of_pair hkv]
    rfl
  refine ⟨{ m with pairs := m.pairs.set p none }, hfree, hr.heap, hr.queue,
    fun hx => content_congr (hr.content hx) (hkeep hx), hr.apart, fun q => ?_, (List.nodup_cons.mp hr.once).2,
    fun hx q hq => hr.unlinked hx q (List.mem_cons_of_mem p hq)⟩
  rw [hpair]
  split_ifs with hqp
  · subst hqp
    refine iff_of_false (by simp) ?_
    rintro (hq | ⟨x, ps, hx, hq⟩)
    · exact (List.nodup_cons.mp hr.once).1 hq
    · exact hr.unlinked hx q List.mem_cons_self hq
  · rw [hr.live q, List.mem_cons]
    simp [hqp]

end Represents

end OpenXPC.LinkedPairs
