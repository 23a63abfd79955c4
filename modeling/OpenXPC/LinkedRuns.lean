import OpenXPC.LinkedDestruction

/-! # Runs over the queues

Every run on the lists is a run on the links, with the same results. It leaves as many pairs
allocated as the dictionaries that are still there have entries. -/
namespace OpenXPC.LinkedPairs
open InsertionMap TailQueue LinkedStore

/-! ## Runs -/

inductive Call
  | leafCreate (v : Leaf)
  | dictionaryCreate (entries : Pairs)
  | dictionarySetValue (xdict : ObjId) (key : CString) (value : ObjId)
  | dictionarySetLeaf (xdict : ObjId) (key : CString) (v : Leaf)
  | dictionaryGetValue (xdict : ObjId) (key : CString)
  | dictionaryGetCount (xdict : ObjId)
  | dictionaryApplyFun (xdict : ObjId) (goesOn : CString → ObjId → Bool)
  | arrayCreate (objects : List ObjId)
  | arrayAppendValue (xarray value : ObjId)
  | retain (obj : ObjId)
  | release (obj : ObjId)

inductive Output
  | nothing
  | created (x : ObjId)
  | value (v : Option ObjId)
  | count (n : ℕ)
  | visited (pairs : Pairs) (all : Bool)
  deriving DecidableEq

/-- The applier that notes each pair, and goes on or not. -/
def record (goesOn : CString → ObjId → Bool) (key : CString) (value : ObjId) (seen : Pairs) :
    Except Fault (Pairs × Bool) := .ok (seen ++ [(key, value)], goesOn key value)

/-- A call over the lists of pairs. -/
def execList (h : Heap (List ObjId)) : Call → Except Fault (Heap (List ObjId) × Output)
  | .leafCreate v => .ok ((leafCreate h v).1, .created h.size)
  | .dictionaryCreate entries => do
    let (h, x) ← OpenXPC.xpcDictionaryCreate h entries
    .ok (h, .created x)
  | .dictionarySetValue d k v => do
    let h ← OpenXPC.xpcDictionarySetValue h d k v
    .ok (h, .nothing)
  | .dictionarySetLeaf d k v => do
    let h ← dictionarySetLeaf h d k v
    .ok (h, .nothing)
  | .dictionaryGetValue d k => do
    let v ← OpenXPC.xpcDictionaryGetValue h d k
    .ok (h, .value v)
  | .dictionaryGetCount d => do
    let n ← OpenXPC.xpcDictionaryGetCount h d
    .ok (h, .count n)
  | .dictionaryApplyFun d goesOn => do
    let (seen, all) ← OpenXPC.xpcDictionaryApplyFun h d (record goesOn) []
    .ok (h, .visited seen all)
  | .arrayCreate objects => do
    let (h, x) ← Arrays.xpcArrayCreate h objects
    .ok (h, .created x)
  | .arrayAppendValue a v => do
    let h ← Arrays.xpcArrayAppendValue h a v
    .ok (h, .nothing)
  | .retain x => do
    let h ← xpcRetain h x
    .ok (h, .nothing)
  | .release x => do
    let h ← OpenXPC.xpcRelease h x
    .ok (h, .nothing)

/-- The same call over the links; the fuel is that of the destructor. -/
def execLinks (n : ℕ) (m : LinkedStore) : Call → Except Fault (LinkedStore × Output)
  | .leafCreate v => .ok ({ m with heap := (leafCreate m.heap v).1 }, .created m.heap.size)
  | .dictionaryCreate entries => do
    let (m, x) ← xpcDictionaryCreate m entries
    .ok (m, .created x)
  | .dictionarySetValue d k v => do
    let m ← xpcDictionarySetValue m d k v
    .ok (m, .nothing)
  | .dictionarySetLeaf d k v => do
    let m ← xpcDictionarySetValue { m with heap := (leafCreate m.heap v).1 } d k m.heap.size
    .ok (m, .nothing)
  | .dictionaryGetValue d k => do
    let v ← xpcDictionaryGetValue m d k
    .ok (m, .value v)
  | .dictionaryGetCount d => do
    let n ← xpcDictionaryGetCount m d
    .ok (m, .count n)
  | .dictionaryApplyFun d goesOn => do
    let (seen, all) ← xpcDictionaryApplyFun m d (record goesOn) []
    .ok (m, .visited seen all)
  | .arrayCreate objects => do
    let (heap, x) ← Arrays.xpcArrayCreate m.heap objects
    .ok ({ m with heap := heap }, .created x)
  | .arrayAppendValue a v => do
    let heap ← Arrays.xpcArrayAppendValue m.heap a v
    .ok ({ m with heap := heap }, .nothing)
  | .retain x => do
    let heap ← xpcRetain m.heap x
    .ok ({ m with heap := heap }, .nothing)
  | .release x => do
    let m ← xpcRelease n m x
    .ok (m, .nothing)

def run {σ : Type} (exec : σ → Call → Except Fault (σ × Output)) :
    List Call → σ → Except Fault (σ × List Output)
  | [], s => .ok (s, [])
  | call :: calls, s => do
    let (s, out) ← exec s call
    let (s, outs) ← run exec calls s
    .ok (s, out :: outs)

variable {m : LinkedStore} {h h' : Heap (List ObjId)} {ids : ObjId → List ℕ}

theorem Represents.exec {call : Call} {out : Output} {n : ℕ} (hr : Represents m h ids [])
    (he : execList h call = .ok (h', out)) (hn : h.slotTotal < n) :
    ∃ m' ids', execLinks n m call = .ok (m', out) ∧ Represents m' h' ids' [] := by
  have hsize : m.heap.size = h.size := by rw [hr.heap, size_emptiedHeap]
  cases call with
  | leafCreate v =>
    cases he
    exact ⟨_, ids, by rw [execLinks, hsize], hr.leafCreate v⟩
  | dictionaryCreate entries =>
    obtain ⟨⟨h₁, x⟩, hcreate, he⟩ := bind_eq_ok.mp he
    cases he
    obtain ⟨m', ids', hcreate', hr'⟩ := hr.dictionaryCreate hcreate
    exact ⟨m', ids', by rw [execLinks, hcreate', ok_bind], hr'⟩
  | dictionarySetValue d k v =>
    obtain ⟨h₁, hset, he⟩ := bind_eq_ok.mp he
    cases he
    obtain ⟨m', ids', hset', hr'⟩ := hr.setValue hset
    exact ⟨m', ids', by rw [execLinks, hset', ok_bind], hr'⟩
  | dictionarySetLeaf d k v =>
    obtain ⟨h₁, hset, he⟩ := bind_eq_ok.mp he
    cases he
    obtain ⟨m', ids', hset', hr'⟩ := (hr.leafCreate v).setValue hset
    have hset'' : xpcDictionarySetValue { m with heap := (OpenXPC.leafCreate m.heap v).1 } d k m.heap.size =
        .ok m' := by
      rw [hsize]
      exact hset'
    exact ⟨m', ids', by rw [execLinks, hset'', ok_bind], hr'⟩
  | dictionaryGetValue d k =>
    obtain ⟨v, hget, he⟩ := bind_eq_ok.mp he
    cases he
    exact ⟨m, ids, by rw [execLinks, hr.getValue hget, ok_bind], hr⟩
  | dictionaryGetCount d =>
    obtain ⟨c, hcount, he⟩ := bind_eq_ok.mp he
    cases he
    exact ⟨m, ids, by rw [execLinks, hr.getCount hcount, ok_bind], hr⟩
  | dictionaryApplyFun d goesOn =>
    obtain ⟨⟨seen, all⟩, happly, he⟩ := bind_eq_ok.mp he
    cases he
    have hholds : ∃ ps, Holds h d ps := by
      obtain ⟨o, ho, happly⟩ := bind_eq_ok.mp happly
      obtain ⟨ps, hps, -⟩ := bind_eq_ok.mp happly
      exact ⟨ps, o, Heap.get_of_deref ho, XpcObject.xoU_of_dict hps⟩
    obtain ⟨ps, hps⟩ := hholds
    exact ⟨m, ids, by rw [execLinks, hr.applyFun hps, happly, ok_bind], hr⟩
  | arrayCreate objects =>
    obtain ⟨⟨h₁, x⟩, hcreate, he⟩ := bind_eq_ok.mp he
    cases he
    obtain ⟨heap, hcreate', hr'⟩ := hr.arrayCreate hcreate
    exact ⟨_, ids, by rw [execLinks, hcreate', ok_bind], hr'⟩
  | arrayAppendValue a v =>
    obtain ⟨h₁, happend, he⟩ := bind_eq_ok.mp he
    cases he
    obtain ⟨heap, happend', hr'⟩ := hr.arrayAppend happend
    exact ⟨_, ids, by rw [execLinks, happend', ok_bind], hr'⟩
  | retain x =>
    obtain ⟨h₁, hretain, he⟩ := bind_eq_ok.mp he
    cases he
    obtain ⟨heap, hretain', hr'⟩ := hr.xpcRetain hretain
    exact ⟨_, ids, by rw [execLinks, hretain', ok_bind], hr'⟩
  | release x =>
    obtain ⟨h₁, hrelease, he⟩ := bind_eq_ok.mp he
    cases he
    obtain ⟨m', ids', hrelease', hr'⟩ := hr.release hrelease hn
    exact ⟨m', ids', by rw [execLinks, hrelease', ok_bind], hr'⟩

theorem Represents.run {calls : List Call} {outs : List Output} (he : run execList calls h = .ok (h', outs)) :
    ∃ n₀, ∀ n ≥ n₀, ∀ m ids, Represents m h ids [] →
      ∃ m' ids', run (execLinks n) calls m = .ok (m', outs) ∧ Represents m' h' ids' [] := by
  induction calls generalizing h outs with
  | nil =>
    cases he
    exact ⟨0, fun n _ m ids hr => ⟨m, ids, rfl, hr⟩⟩
  | cons call calls ih =>
    obtain ⟨⟨h₁, out⟩, hcall, he⟩ := bind_eq_ok.mp he
    obtain ⟨⟨h₂, outs⟩, hcalls, he⟩ := bind_eq_ok.mp he
    cases he
    obtain ⟨n₀, hrest⟩ := ih hcalls
    refine ⟨max n₀ (h.slotTotal + 1), fun n hn m ids hr => ?_⟩
    have hn₀ : n₀ ≤ n := Nat.le_trans (Nat.le_max_left _ _) hn
    have hfuel : h.slotTotal < n := Nat.le_trans (Nat.le_max_right _ _) hn
    obtain ⟨m₁, ids₁, hcall', hr₁⟩ := hr.exec hcall hfuel
    obtain ⟨m', ids', hcalls', hr'⟩ := hrest n hn₀ m₁ ids₁ hr₁
    refine ⟨m', ids', ?_, hr'⟩
    rw [LinkedPairs.run, hcall', ok_bind]
    dsimp only
    rw [hcalls', ok_bind]

/-- Two values under two keys of a dictionary, one of them written over, and all of it
released. -/
def madeAndReleased : List Call :=
  [.leafCreate (.bool true), .leafCreate (.int64 5), .dictionaryCreate [(keyK, 0)], .dictionarySetValue 2 keyJ 1,
    .dictionaryGetValue 2 keyJ, .dictionaryApplyFun 2 fun _ _ => true, .release 2]

/-- The pairs that have been allocated and not freed. -/
def LinkedStore.unfreed (m : LinkedStore) : Finset ℕ :=
  (Finset.range m.pairs.length).filter fun p => (m.pair p).isSome

def entriesOf (o : XpcObject (List ObjId)) : ℕ :=
  match o.xoU with
  | .dictionary ps => ps.length
  | _ => 0

/-- The queue of a live dictionary, and nothing for another object. -/
def queueOf (h : Heap (List ObjId)) (ids : ObjId → List ℕ) (x : ObjId) : Finset ℕ :=
  match (h.get x).map XpcObject.xoU with
  | some (.dictionary _) => (ids x).toFinset
  | _ => ∅

theorem mem_queueOf {x : ObjId} {p : ℕ} : p ∈ queueOf h ids x ↔ ∃ ps, Holds h x ps ∧ p ∈ ids x := by
  rw [queueOf]
  split
  · rename_i ps hps
    obtain ⟨o, ho, hu⟩ := Option.map_eq_some_iff.mp hps
    rw [List.mem_toFinset]
    exact ⟨fun hp => ⟨ps, ⟨o, ho, hu⟩, hp⟩, fun ⟨_, _, hp⟩ => hp⟩
  · rename_i hnot
    refine iff_of_false (Finset.notMem_empty p) fun ⟨ps, hx, _⟩ => ?_
    obtain ⟨o, ho, hu⟩ := hx
    exact hnot ps (by rw [ho, Option.map_some, hu])

theorem Represents.card_queueOf (hr : Represents m h ids []) (x : ObjId) :
    (queueOf h ids x).card = h.weight entriesOf x := by
  rw [queueOf, Heap.weight]
  cases hx : h.get x with
  | none => rfl
  | some o =>
    cases hu : o.xoU with
    | dictionary ps =>
      have hholds : Holds h x ps := ⟨o, hx, hu⟩
      simp only [Option.map_some, Option.getD_some, entriesOf, hu]
      rw [List.toFinset_card_of_nodup (hr.queue hholds).chain.nodup, (hr.content hholds).length_eq]
    | leaf v => simp [entriesOf, hu]
    | array es => simp [entriesOf, hu]

theorem Represents.card_unfreed (hr : Represents m h ids []) : m.unfreed.card = h.total entriesOf := by
  have hunion : m.unfreed = (Finset.range h.size).biUnion (queueOf h ids) := by
    apply Finset.ext
    intro p
    rw [Finset.mem_biUnion, unfreed, Finset.mem_filter, Finset.mem_range, Option.isSome_iff_exists]
    constructor
    · intro hp
      rcases (hr.live p).mp hp.2 with hloose | ⟨x, ps, hx, hmem⟩
      · cases hloose
      · obtain ⟨o, ho, -⟩ := id hx
        exact ⟨x, Finset.mem_range.mpr (Heap.lt_size_of_get ho), mem_queueOf.mpr ⟨ps, hx, hmem⟩⟩
    · rintro ⟨x, -, hmem⟩
      obtain ⟨ps, hx, hp⟩ := mem_queueOf.mp hmem
      obtain ⟨kv, hkv⟩ := hr.pair_of_mem hx hp
      exact ⟨lt_of_pair hkv, kv, hkv⟩
  rw [hunion, Finset.card_biUnion, Heap.total]
  · exact Finset.sum_congr rfl fun x _ => hr.card_queueOf x
  · intro x _ y _ hxy
    rw [Function.onFun, Finset.disjoint_left]
    intro p hp hq
    obtain ⟨ps, hx, hpx⟩ := mem_queueOf.mp hp
    obtain ⟨qs, hy, hpy⟩ := mem_queueOf.mp hq
    exact hr.apart hx hy hxy p hpx hpy

end OpenXPC.LinkedPairs
