import OpenXPC.Hashing
import OpenXPC.RoundTrips
import OpenXPC.XorSums

/-! # What a hash sees

Exclusive or forgets where a leaf stands: in which container, under which key, and
before which other. A key is mixed in as the string object with its text would be. So
the hash of an object is the sum of its leaves, of which only the parity of every
leaf's occurrences is left. -/
namespace OpenXPC
open XorSums

namespace Tree

mutual

/-- The leaves in the order in which they are hashed, with the keys as strings. -/
def leaves : Tree → List Leaf
  | .leaf v => [v]
  | .array ts => leavesElems ts
  | .dictionary ps => leavesPairs ps

def leavesElems : List Tree → List Leaf
  | [] => []
  | t :: ts => leaves t ++ leavesElems ts

def leavesPairs : List (CString × Tree) → List Leaf
  | [] => []
  | (k, t) :: ps => .string k :: leaves t ++ leavesPairs ps

end

/-- The leaves of the tree, each as what the hash of its object adds. -/
def leafSum (f : Leaf → UInt64) (t : Tree) : XorWord :=
  (t.leaves.map (fun v => XorWord.mk (f v))).sum

theorem hashElems_eq_sum {ts : List Tree} (acc : UInt64)
    (h : ∀ t ∈ ts, XorWord.mk t.hash = t.leafSum Leaf.hash) :
    XorWord.mk (hashElems acc ts) =
      ⟨acc⟩ + ((leavesElems ts).map (fun v => XorWord.mk v.hash)).sum := by
  induction ts generalizing acc with
  | nil => rw [hashElems, leavesElems, List.map_nil, List.sum_nil, add_zero]
  | cons t ts ih =>
    rw [List.forall_mem_cons] at h
    rw [hashElems, ih _ h.2, arrayHashCb, XorWord.mk_add, h.1, leafSum, leavesElems,
      List.map_append, List.sum_append, add_assoc]

theorem hashPairs_eq_sum {ps : List (CString × Tree)} (acc : UInt64)
    (h : ∀ p ∈ ps, XorWord.mk p.2.hash = p.2.leafSum Leaf.hash) :
    XorWord.mk (hashPairs acc ps) =
      ⟨acc⟩ + ((leavesPairs ps).map (fun v => XorWord.mk v.hash)).sum := by
  induction ps generalizing acc with
  | nil => rw [hashPairs, leavesPairs, List.map_nil, List.sum_nil, add_zero]
  | cons p ps ih =>
    obtain ⟨k, t⟩ := p
    rw [List.forall_mem_cons] at h
    have hkey : (Leaf.string k).hash = xpcDataHash k.bytes k.bytes.length := rfl
    rw [hashPairs, ih _ h.2, dictHashCb, XorWord.mk_add, XorWord.mk_add, h.1, leafSum, leavesPairs,
      List.map_append, List.sum_append, List.map_cons, List.sum_cons, hkey]
    simp only [add_assoc]

theorem hash_eq_leafSum (t : Tree) : XorWord.mk t.hash = t.leafSum Leaf.hash := by
  induction t with
  | leaf v => rw [leafSum, leaves, List.map_singleton, List.sum_singleton, hash]
  | array ts ih =>
    rw [hash, hashElems_eq_sum 0 ih]
    exact zero_add _
  | dictionary ps ih =>
    rw [hash, hashPairs_eq_sum 0 ih]
    exact zero_add _

theorem hash_eq_of_parity {t u : Tree}
    (h : ∀ v, t.leaves.count v % 2 = u.leaves.count v % 2) : t.hash = u.hash := by
  have hsum : t.leafSum Leaf.hash = u.leafSum Leaf.hash :=
    sum_map_eq_of_parity XorWord.add_self h _
  rw [← hash_eq_leafSum, ← hash_eq_leafSum] at hsum
  exact congrArg XorWord.word hsum

end Tree

variable {h h' : Heap (List ObjId)} {x y n m : ℕ} {t u : Tree}

/-- An array that holds one integer twice. -/
def sameTwice : Heap (List ObjId) :=
  ⟨[some ⟨0, 3, 1, .leaf (.int64 5), trivial⟩, some ⟨0, 1, 2, .array [0, 0], trivial⟩]⟩

/-- What an endpoint loses on the way. -/
def Leaf.port : Leaf → UInt64
  | .endpoint port => port
  | _ => 0

theorem Leaf.hash_receivedLeaf (v : Leaf) :
    XorWord.mk (Tree.receivedLeaf v).hash = ⟨v.hash⟩ + ⟨v.port⟩ := by
  apply XorWord.ext
  cases v with
  | endpoint port => exact UInt64.xor_self.symm
  | _ => exact UInt64.xor_zero.symm

namespace Tree

theorem leavesElems_received {ts : List Tree}
    (h : ∀ t ∈ ts, t.received.leaves = t.leaves.map receivedLeaf) :
    leavesElems (receivedElems ts) = (leavesElems ts).map receivedLeaf := by
  induction ts with
  | nil => rfl
  | cons t ts ih =>
    rw [List.forall_mem_cons] at h
    rw [receivedElems, leavesElems, leavesElems, h.1, ih h.2, List.map_append]

theorem leavesPairs_received {ps : List (CString × Tree)}
    (h : ∀ p ∈ ps, p.2.received.leaves = p.2.leaves.map receivedLeaf) :
    leavesPairs (receivedPairs ps) = (leavesPairs ps).map receivedLeaf := by
  induction ps with
  | nil => rfl
  | cons p ps ih =>
    obtain ⟨k, t⟩ := p
    rw [List.forall_mem_cons] at h
    rw [receivedPairs, leavesPairs, leavesPairs, h.1, ih h.2, List.map_append, List.map_cons]
    rfl

theorem leaves_received (t : Tree) : t.received.leaves = t.leaves.map receivedLeaf := by
  induction t with
  | leaf v => rfl
  | array ts ih => exact leavesElems_received ih
  | dictionary ps ih => exact leavesPairs_received ih

theorem heightElems_received {ts : List Tree} (h : ∀ t ∈ ts, t.received.height = t.height) :
    heightElems (receivedElems ts) = heightElems ts := by
  induction ts with
  | nil => rfl
  | cons t ts ih =>
    rw [List.forall_mem_cons] at h
    rw [receivedElems, heightElems, heightElems, h.1, ih h.2]

theorem heightPairs_received {ps : List (CString × Tree)}
    (h : ∀ p ∈ ps, p.2.received.height = p.2.height) :
    heightPairs (receivedPairs ps) = heightPairs ps := by
  induction ps with
  | nil => rfl
  | cons p ps ih =>
    obtain ⟨k, t⟩ := p
    rw [List.forall_mem_cons] at h
    rw [receivedPairs, heightPairs, heightPairs, h.1, ih h.2]

theorem height_received (t : Tree) : t.received.height = t.height := by
  induction t with
  | leaf v => rfl
  | array ts ih => rw [received, height, height, heightElems_received ih]
  | dictionary ps ih => rw [received, height, height, heightPairs_received ih]

theorem hash_received (t : Tree) :
    XorWord.mk t.received.hash = ⟨t.hash⟩ + t.leafSum Leaf.port := by
  rw [hash_eq_leafSum, hash_eq_leafSum, leafSum, leafSum, leafSum, leaves_received, List.map_map,
    ← List.sum_map_add]
  apply congrArg List.sum
  apply List.map_congr_left
  intro v _
  exact v.hash_receivedLeaf

end Tree

/-- An array of an endpoint and a date. -/
def endpointAndDate : Heap (List ObjId) :=
  ⟨[some ⟨0, 2, 0, .leaf (.endpoint 7), trivial⟩, some ⟨0, 2, 1, .leaf (.date 5), trivial⟩,
    some ⟨0, 1, 2, .array [0, 1], trivial⟩]⟩

end OpenXPC
