import OpenXPC.Slots
import OpenXPC.Traversals
import OpenXPC.Trees

/-! # Hashes

`xpc_hash` reads the scalar types through the first word of the union, strings and
data byte by byte, and folds over containers with exclusive or. The words of the
objects are a parameter: which of their bytes were ever written is not known here. -/
namespace OpenXPC
open InsertionMap

/-- From the last byte to the first. -/
def xpcDataHashLoop (data : List UInt8) : ℕ → UInt64 → UInt64
  | 0, hash => hash
  | length + 1, hash =>
    xpcDataHashLoop data length (((hash <<< 5) + hash) + (data.getD length 0).toUInt64)

def xpcDataHash (data : List UInt8) (length : ℕ) : UInt64 := xpcDataHashLoop data length 5381

/-- The word `ui` of a union in which a constructor has written its member, on a
little-endian machine; the other bytes are those of `garbage`. Strings, data,
descriptors, UUIDs and connections are never read as numbers. -/
def Leaf.unionWord (garbage : UInt64) : Leaf → UInt64
  | .null => 0
  | .bool value => (garbage &&& 0xffffffffffffff00) ||| (if value then 1 else 0)
  | .int64 value => value.toUInt64
  | .uint64 value => value
  | .double bits => bits
  | .date interval => interval.toUInt64
  | .endpoint port => port
  | .string _ | .data _ | .fd _ | .uuid _ | .connection _ => garbage

/-- The callback of `xpc_dictionary_apply_fun`, with the hash of the value. -/
def dictHashCb (k : CString) (hash valueHash : UInt64) : UInt64 :=
  hash ^^^ xpcDataHash k.bytes k.bytes.length ^^^ valueHash

def arrayHashCb (hash valueHash : UInt64) : UInt64 := hash ^^^ valueHash

/-- The fuel bounds the depth of the recursion. -/
def xpcHash (words : ObjId → UInt64) (h : Heap (List ObjId)) : ℕ → ObjId → Except Fault UInt64
  | 0, _ => .error .outOfFuel
  | n + 1, obj => do
    let xo ← h.deref obj
    match xo.xoU with
    | .leaf (.bool _) | .leaf (.int64 _) | .leaf (.uint64 _) | .leaf (.date _)
    | .leaf (.endpoint _) => .ok (words obj)
    | .leaf (.string str) => .ok (xpcDataHash str.bytes xo.xoSize)
    | .leaf (.data bytes) => .ok (xpcDataHash bytes xo.xoSize)
    | .dictionary _ => do
      let (hash, _) ← xpcDictionaryApplyFun h obj (fun k v hash => do
        let valueHash ← xpcHash words h n v
        .ok (dictHashCb k hash valueHash, true)) 0
      .ok hash
    | .array _ => do
      let (hash, _) ← Arrays.xpcArrayApplyFun h obj (fun _ v hash => do
        let valueHash ← xpcHash words h n v
        .ok (arrayHashCb hash valueHash, true)) 0
      .ok hash
    | .leaf _ => .ok 0

/-- The words of the objects, with the bytes that a constructor leaves alone zero. -/
def zeroFilled (h : Heap (List ObjId)) (x : ObjId) : UInt64 :=
  match h.get x with
  | some o => match o.xoU with
    | .leaf v => v.unionWord 0
    | _ => 0
  | none => 0

/-! ## The hash of a tree -/

def Leaf.hash : Leaf → UInt64
  | .bool value => (Leaf.bool value).unionWord 0
  | .int64 value => (Leaf.int64 value).unionWord 0
  | .uint64 value => (Leaf.uint64 value).unionWord 0
  | .date interval => (Leaf.date interval).unionWord 0
  | .endpoint port => (Leaf.endpoint port).unionWord 0
  | .string str => xpcDataHash str.bytes str.bytes.length
  | .data bytes => xpcDataHash bytes bytes.length
  | .null | .double _ | .fd _ | .uuid _ | .connection _ => 0

namespace Tree

mutual

def hash : Tree → UInt64
  | .leaf v => v.hash
  | .array ts => hashElems 0 ts
  | .dictionary ps => hashPairs 0 ps

def hashElems (acc : UInt64) : List Tree → UInt64
  | [] => acc
  | t :: ts => hashElems (arrayHashCb acc (hash t)) ts

def hashPairs (acc : UInt64) : List (CString × Tree) → UInt64
  | [] => acc
  | (k, t) :: ps => hashPairs (dictHashCb k acc (hash t)) ps

end

mutual

/-- Equal as values: arrays are sequences, and dictionaries finite maps. -/
def Same : Tree → Tree → Prop
  | .leaf v, .leaf w => v = w
  | .array ts, .array us => SameElems ts us
  | .dictionary ps, .dictionary qs =>
    (∀ k, k ∈ ps.map Prod.fst ↔ k ∈ qs.map Prod.fst) ∧ SameValues ps qs
  | _, _ => False

def SameElems : List Tree → List Tree → Prop
  | [], [] => True
  | t :: ts, u :: us => Same t u ∧ SameElems ts us
  | _, _ => False

/-- Every value is the same as the value of its key in the other dictionary. -/
def SameValues : List (CString × Tree) → List (CString × Tree) → Prop
  | [], _ => True
  | (k, t) :: ps, qs => (∃ u, qs.lookup k = some u ∧ Same t u) ∧ SameValues ps qs

end

theorem sameElems_iff {ts us : List Tree} : SameElems ts us ↔ List.Forall₂ Same ts us := by
  induction ts generalizing us with
  | nil => cases us <;> simp [SameElems]
  | cons t ts ih => cases us <;> simp [SameElems, ih]

theorem sameValues_iff {ps qs : List (CString × Tree)} :
    SameValues ps qs ↔ ∀ p ∈ ps, ∃ u, qs.lookup p.1 = some u ∧ Same p.2 u := by
  induction ps with
  | nil => simp [SameValues]
  | cons p ps ih =>
    obtain ⟨k, t⟩ := p
    simp only [SameValues, ih, List.forall_mem_cons]

theorem hashElems_eq_foldl (acc : UInt64) (ts : List Tree) :
    hashElems acc ts = (ts.map hash).foldl arrayHashCb acc := by
  induction ts generalizing acc with
  | nil => rfl
  | cons t ts ih => rw [hashElems, ih, List.map_cons, List.foldl_cons]

theorem hashPairs_eq_foldl (acc : UInt64) (ps : List (CString × Tree)) :
    hashPairs acc ps =
      (ps.map (fun p => (p.1, p.2.hash))).foldl (fun acc p => dictHashCb p.1 acc p.2) acc := by
  induction ps generalizing acc with
  | nil => rfl
  | cons p ps ih =>
    obtain ⟨k, t⟩ := p
    rw [hashPairs, ih, List.map_cons, List.foldl_cons]

/-- Between dictionaries with distinct keys, as maps from keys to values. -/
theorem same_dictionary {ps qs : List (CString × Tree)} (hps : (ps.map Prod.fst).Nodup) :
    Same (.dictionary ps) (.dictionary qs) ↔ ∀ k, Option.Rel Same (ps.lookup k) (qs.lookup k) := by
  rw [Same, sameValues_iff]
  constructor
  · rintro ⟨hkeys, hvalues⟩ k
    cases hp : ps.lookup k with
    | some t =>
      obtain ⟨u, hu, htu⟩ := hvalues (k, t) (pair_mem_of_lookup hp)
      rw [hu]
      exact .some htu
    | none =>
      have hk : k ∉ qs.map Prod.fst := fun h => notMem_of_lookup_eq_none hp ((hkeys k).mpr h)
      cases hq : qs.lookup k with
      | none => exact .none
      | some u => exact absurd (mem_of_lookup_eq_some hq) hk
  · intro h
    constructor
    · intro k
      have hk := h k
      cases hp : ps.lookup k with
      | some t =>
        obtain ⟨u, hu⟩ : ∃ u, qs.lookup k = some u := by
          rw [hp] at hk
          generalize qs.lookup k = r at hk
          cases hk with
          | some htu => exact ⟨_, rfl⟩
        exact iff_of_true (mem_of_lookup_eq_some hp) (mem_of_lookup_eq_some hu)
      | none =>
        have hq : qs.lookup k = none := by
          rw [hp] at hk
          generalize qs.lookup k = r at hk
          cases hk with
          | none => rfl
        exact iff_of_false (notMem_of_lookup_eq_none hp) (notMem_of_lookup_eq_none hq)
    · intro p hp
      have hk := h p.1
      rw [lookup_of_mem hps hp] at hk
      generalize qs.lookup p.1 = r at hk
      cases hk with
      | some htu => exact ⟨_, rfl, htu⟩

/-- Mixing in two entries gives the same in either order. -/
theorem dictHashCb_comm (k j : CString) (hash v w : UInt64) :
    dictHashCb j (dictHashCb k hash v) w = dictHashCb k (dictHashCb j hash w) v := by
  simp only [dictHashCb, UInt64.xor_assoc]
  congr 1
  rw [← UInt64.xor_assoc, UInt64.xor_comm, UInt64.xor_assoc]

/-- The hash of the entries, in any order. -/
theorem foldl_dictHashCb_perm {ps qs : List (CString × UInt64)} (h : ps.Perm qs) :
    ps.foldl (fun acc p => dictHashCb p.1 acc p.2) 0 =
      qs.foldl (fun acc p => dictHashCb p.1 acc p.2) 0 :=
  h.foldl_eq' (fun p _ q _ acc => dictHashCb_comm p.1 q.1 acc p.2 q.2) 0

theorem hash_eq_of_same {t u : Tree} (h : t.Same u) (ht : t.WellKeyed) (hu : u.WellKeyed) :
    t.hash = u.hash := by
  induction t generalizing u with
  | leaf v =>
    cases u with
    | leaf w =>
      rw [Same] at h
      rw [h]
    | _ => exact h.elim
  | array ts ih =>
    cases u with
    | array us =>
      rw [Same, sameElems_iff] at h
      have hmap : ts.map hash = us.map hash := by
        have hts := (all_array.mp ht).2
        have hus := (all_array.mp hu).2
        clear ht hu
        induction h with
        | nil => rfl
        | @cons t u ts us htu _ ihs =>
          rw [List.forall_mem_cons] at hts hus
          rw [List.map_cons, List.map_cons, ih t List.mem_cons_self htu hts.1 hus.1,
            ihs (fun t ht => ih t (List.mem_cons_of_mem _ ht)) hts.2 hus.2]
      rw [hash, hash, hashElems_eq_foldl, hashElems_eq_foldl, hmap]
    | _ => exact h.elim
  | dictionary ps ih =>
    cases u with
    | dictionary qs =>
      obtain ⟨hps, hpairs⟩ := all_dictionary.mp ht
      obtain ⟨hqs, hpairs'⟩ := all_dictionary.mp hu
      have hlookup : ∀ k, (ps.map (fun p => (p.1, p.2.hash))).lookup k =
          (qs.map (fun p => (p.1, p.2.hash))).lookup k := by
        intro k
        rw [lookup_map, lookup_map]
        have hk := (same_dictionary hps).mp h k
        cases hp : ps.lookup k with
        | none =>
          cases hq : qs.lookup k with
          | none => rfl
          | some u =>
            rw [hp, hq] at hk
            cases hk
        | some t =>
          cases hq : qs.lookup k with
          | none =>
            rw [hp, hq] at hk
            cases hk
          | some u =>
            rw [hp, hq] at hk
            have hmem := pair_mem_of_lookup hp
            cases hk with
            | some htu =>
              have heq := ih (k, t) hmem htu (hpairs (k, t) hmem)
                (hpairs' (k, u) (pair_mem_of_lookup hq))
              rw [Option.map_some, Option.map_some, heq]
      rw [hash, hash, hashPairs_eq_foldl, hashPairs_eq_foldl]
      refine foldl_dictHashCb_perm (perm_of_lookup_eq ?_ ?_ hlookup)
      · simpa [Function.comp_def] using hps
      · simpa [Function.comp_def] using hqs
    | _ => exact h.elim

end Tree

/-! ## What a hash is -/

variable {h h' : Heap (List ObjId)} {x y n m : ℕ} {t u : Tree}

/-- The types whose hash is the first word of the union. -/
def Leaf.HashedByWord : Leaf → Prop
  | .bool _ | .int64 _ | .uint64 _ | .date _ | .endpoint _ => True
  | .null | .double _ | .fd _ | .string _ | .data _ | .uuid _ | .connection _ => False

/-- A hash depends only on the objects that are reached, and on the words that are read. -/
theorem xpcHash_congr {words words' : ObjId → UInt64} {P : ObjId → Prop}
    (hget : ∀ y, P y → h'.get y = h.get y)
    (hword : ∀ y o v, P y → h.get y = some o → o.xoU = .leaf v → v.HashedByWord → words' y = words y)
    (hslot : ∀ y z, P y → h.Slot y z → P z) (hx : P x) (n : ℕ) :
    xpcHash words' h' n x = xpcHash words h n x := by
  induction n generalizing x with
  | zero => rfl
  | succ n ih =>
    have hderef : h'.deref x = h.deref x := by rw [Heap.deref, Heap.deref, hget x hx]
    rw [xpcHash, xpcHash, hderef]
    cases hd : h.deref x with
    | error e => rfl
    | ok o =>
      have ho := Heap.get_of_deref hd
      have ho' := (hget x hx).trans ho
      have hvalue : ∀ z ∈ o.slots, xpcHash words' h' n z = xpcHash words h n z :=
        fun z hz => ih (hslot x z hx ⟨o, ho, hz⟩)
      simp only [ok_bind]
      cases hu : o.xoU with
      | leaf v =>
        have hread := hword x o v hx ho hu
        cases v with
        | bool | int64 | uint64 | date | endpoint => exact congrArg Except.ok (hread trivial)
        | _ => rfl
      | dictionary ps =>
        have hslots : o.slots = ps.map Prod.snd := by simp [XpcObject.slots, hu, Payload.slots]
        simp only [xpcDictionaryApplyFun_of_get ho hu, xpcDictionaryApplyFun_of_get ho' hu]
        rw [applyPairs_congr (fun p hp => ?_)]
        funext hash
        rw [hvalue p.2 (hslots ▸ List.mem_map_of_mem hp)]
      | array es =>
        have hslots : o.slots = es := by simp [XpcObject.slots, hu, Payload.slots]
        simp only [Arrays.xpcArrayApplyFun_of_get ho hu, Arrays.xpcArrayApplyFun_of_get ho' hu]
        rw [applyElems_congr (fun i z hz => ?_)]
        funext hash
        rw [hvalue z (hslots ▸ hz)]

theorem hashPairs_ok {qs : Pairs} {ps : List (CString × Tree)} (acc : UInt64)
    (hrel : Related (TreeAt h) qs ps)
    (hhash : ∀ p ∈ ps, ∀ x, TreeAt h x p.2 → xpcHash (zeroFilled h) h n x = .ok p.2.hash) :
    applyPairs (fun k v hash => do
        let valueHash ← xpcHash (zeroFilled h) h n v
        .ok (dictHashCb k hash valueHash, true)) qs acc = .ok (Tree.hashPairs acc ps, true) := by
  induction hrel generalizing acc with
  | nil => rfl
  | @cons q p qs ps hqp _ ih =>
    obtain ⟨k, x⟩ := q
    obtain ⟨j, t⟩ := p
    obtain ⟨rfl, hx⟩ := hqp
    rw [List.forall_mem_cons] at hhash
    simp [applyPairs, hhash.1 x hx, ih _ hhash.2, Tree.hashPairs]

theorem hashElems_ok {es : List ObjId} {ts : List Tree} (acc : UInt64) (i : ℕ)
    (hrel : List.Forall₂ (TreeAt h) es ts)
    (hhash : ∀ t ∈ ts, ∀ x, TreeAt h x t → xpcHash (zeroFilled h) h n x = .ok t.hash) :
    Arrays.applyElems (fun _ v hash => do
        let valueHash ← xpcHash (zeroFilled h) h n v
        .ok (arrayHashCb hash valueHash, true)) i es acc = .ok (Tree.hashElems acc ts, true) := by
  induction hrel generalizing acc i with
  | nil => rfl
  | @cons x t es ts hx _ ih =>
    rw [List.forall_mem_cons] at hhash
    simp [Arrays.applyElems, hhash.1 x hx, ih _ _ hhash.2, Tree.hashElems]

theorem xpcHash_tree (ht : TreeAt h x t) (hn : t.height < n) :
    xpcHash (zeroFilled h) h n x = .ok t.hash := by
  induction t generalizing n x with
  | leaf v =>
    obtain ⟨n, rfl⟩ := Nat.exists_eq_succ_of_ne_zero (Nat.ne_of_gt hn)
    obtain ⟨-, o, ho, hu⟩ := treeFrom_leaf.mp ht
    have hsize := o.sized
    rw [hu] at hsize
    have hword : zeroFilled h x = v.unionWord 0 := by simp [zeroFilled, ho, hu]
    cases v <;> simp_all [xpcHash, Heap.deref_of_get ho, Tree.hash, Leaf.hash, Payload.SizeOk]
  | array ts ih =>
    obtain ⟨n, rfl⟩ := Nat.exists_eq_succ_of_ne_zero (Nat.ne_of_gt (Nat.zero_lt_of_lt hn))
    obtain ⟨-, o, es, ho, hu, hrel⟩ := treeFrom_array.mp ht
    have hloop := hashElems_ok (n := n) 0 0 hrel (fun t hmem x hx => by
      have hlt := Tree.height_lt_of_mem hmem
      exact ih t hmem hx (by omega))
    simp [xpcHash, Heap.deref_of_get ho, hu, Arrays.xpcArrayApplyFun_of_get ho hu, hloop, Tree.hash]
  | dictionary ps ih =>
    obtain ⟨n, rfl⟩ := Nat.exists_eq_succ_of_ne_zero (Nat.ne_of_gt (Nat.zero_lt_of_lt hn))
    obtain ⟨-, o, qs, ho, hu, hrel⟩ := treeFrom_dictionary.mp ht
    have hloop := hashPairs_ok (n := n) 0 hrel (fun p hmem x hx => by
      have hlt := Tree.height_lt_of_mem_pairs hmem
      exact ih p hmem hx (by omega))
    simp [xpcHash, Heap.deref_of_get ho, hu, xpcDictionaryApplyFun_of_get ho hu, hloop, Tree.hash]

/-- Equal values have equal hashes, in whatever order the pairs of their
dictionaries came to stand. -/
theorem xpcHash_same (ht : TreeAt h x t) (hu : TreeAt h' y u) (hs : t.Same u) (hkt : t.WellKeyed)
    (hku : u.WellKeyed) (hn : t.height < n) (hm : u.height < m) :
    ∃ hash, xpcHash (zeroFilled h) h n x = .ok hash ∧ xpcHash (zeroFilled h') h' m y = .ok hash := by
  refine ⟨t.hash, xpcHash_tree ht hn, ?_⟩
  rw [xpcHash_tree hu hm, Tree.hash_eq_of_same hs hkt hku]

/-- A boolean under one key and a string under another. -/
def twoEntries (pairs : Pairs) : Heap (List ObjId) :=
  ⟨[some ⟨0, 2, 1, .leaf (.bool true), trivial⟩, some ⟨0, 2, 1, .leaf (.string keyK), rfl⟩,
    some ⟨0, 1, 2, .dictionary pairs, trivial⟩]⟩

theorem hash_twoEntries_reversed : ∃ hash,
    xpcHash (zeroFilled (twoEntries [(keyK, 0), (keyJ, 1)])) (twoEntries [(keyK, 0), (keyJ, 1)]) 2 2 =
      .ok hash ∧
    xpcHash (zeroFilled (twoEntries [(keyJ, 1), (keyK, 0)])) (twoEntries [(keyJ, 1), (keyK, 0)]) 2 2 =
      .ok hash := by
  have hne : keyJ ≠ keyK := by decide
  refine xpcHash_same
    (t := .dictionary [(keyK, .leaf (.bool true)), (keyJ, .leaf (.string keyK))])
    (u := .dictionary [(keyJ, .leaf (.string keyK)), (keyK, .leaf (.bool true))])
    ?_ ?_ ?_ ?_ ?_ (by decide) (by decide)
  · exact ⟨Nat.zero_le 2, _, _, rfl, rfl, ⟨rfl, Nat.zero_le 0, _, rfl, rfl⟩,
      ⟨rfl, Nat.zero_le 1, _, rfl, rfl⟩, trivial⟩
  · exact ⟨Nat.zero_le 2, _, _, rfl, rfl, ⟨rfl, Nat.zero_le 1, _, rfl, rfl⟩,
      ⟨rfl, Nat.zero_le 0, _, rfl, rfl⟩, trivial⟩
  · exact ⟨fun k => by simp [or_comm], ⟨_, rfl, rfl⟩, ⟨_, rfl, rfl⟩, trivial⟩
  · simp [Tree.WellKeyed, hne.symm]
  · simp [Tree.WellKeyed, hne]

end OpenXPC
