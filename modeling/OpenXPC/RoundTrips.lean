import OpenXPC.Decoding
import OpenXPC.Encoding

/-! # Sending and receiving

Some types have no counterpart on the wire: a date is sent as its number, and
null, doubles and endpoints as a boolean. Everything else but data comes back
as it was. -/
namespace OpenXPC
open InsertionMap Wire

namespace Tree

/-- A leaf as the receiver sees it. -/
def receivedLeaf : Leaf → Leaf
  | .date interval => .int64 interval
  | .null | .double _ | .endpoint _ | .uuid _ | .connection _ => .bool false
  | v => v

mutual

def received : Tree → Tree
  | .leaf v => .leaf (receivedLeaf v)
  | .array ts => .array (receivedElems ts)
  | .dictionary ps => .dictionary (receivedPairs ps)

def receivedElems : List Tree → List Tree
  | [] => []
  | t :: ts => received t :: receivedElems ts

def receivedPairs : List (CString × Tree) → List (CString × Tree)
  | [] => []
  | (k, t) :: ps => (k, received t) :: receivedPairs ps

end

theorem receivedPairs_keys (ps : List (CString × Tree)) :
    (receivedPairs ps).map Prod.fst = ps.map Prod.fst := by
  induction ps with
  | nil => rfl
  | cons p ps ih =>
    obtain ⟨k, t⟩ := p
    rw [receivedPairs, List.map_cons, List.map_cons, ih]

end Tree

/-- What is written for the tree is one value, which the decoder accepts and
translates to the received tree. -/
def Returns (t : Tree) : Prop :=
  ∃ v, written t = [v] ∧ Supported v ∧ Safe v ∧ translate v = some t.received

theorem returns_elems {ts : List Tree} (h : ∀ t ∈ ts, Returns t) :
    SafeArr (writtenElems ts) ∧ translateArr (writtenElems ts) = Tree.receivedElems ts := by
  induction ts with
  | nil => exact ⟨trivial, rfl⟩
  | cons t ts ih =>
    obtain ⟨v, hv, hsup, hsafe, ht⟩ := h t List.mem_cons_self
    obtain ⟨hrest, htrans⟩ := ih (fun u hu => h u (List.mem_cons_of_mem t hu))
    rw [writtenElems, hv]
    refine ⟨⟨⟨hsup, hsafe⟩, hrest⟩, ?_⟩
    rw [translateArr, translateIter, ht, htrans]
    rfl

theorem returns_pairs {ps : List (CString × Tree)} (h : ∀ p ∈ ps, Returns p.2) :
    SafeDict (writtenPairs ps) ∧ translateDict (writtenPairs ps) = Tree.receivedPairs ps := by
  induction ps with
  | nil => exact ⟨trivial, rfl⟩
  | cons p ps ih =>
    obtain ⟨k, t⟩ := p
    obtain ⟨v, hv, hsup, hsafe, ht⟩ := h (k, t) List.mem_cons_self
    obtain ⟨hrest, htrans⟩ := ih (fun q hq => h q (List.mem_cons_of_mem _ hq))
    rw [writtenPairs, hv]
    refine ⟨⟨⟨hsup, hsafe⟩, hrest⟩, ?_⟩
    rw [translateDict, translateIter, ht, htrans]
    rfl

theorem returns_of_noData {t : Tree} (hd : t.NoData) (hk : t.WellKeyed) : Returns t := by
  induction t with
  | leaf v =>
    cases v
    case data bytes => exact hd.elim
    all_goals exact ⟨_, rfl, trivial, trivial, rfl⟩
  | array ts ih =>
    obtain ⟨hsafe, htrans⟩ := returns_elems (fun t ht =>
      ih t ht ((Tree.all_array.mp hd).2 t ht) ((Tree.all_array.mp hk).2 t ht))
    exact ⟨_, rfl, trivial, hsafe, by rw [translate, htrans, Tree.received]⟩
  | dictionary ps ih =>
    obtain ⟨hsafe, htrans⟩ := returns_pairs (fun p hp =>
      ih p hp ((Tree.all_dictionary.mp hd).2 p hp) ((Tree.all_dictionary.mp hk).2 p hp))
    refine ⟨_, rfl, trivial, hsafe, ?_⟩
    rw [translate, htrans, build_eq_self, Tree.received]
    rw [Tree.receivedPairs_keys]
    exact (Tree.all_dictionary.mp hk).1

theorem appendXpc_body (t : Tree) :
    (appendXpc noFailure [] t ⟨.body, []⟩).1.content = written t ∧
      (appendXpc noFailure [] t ⟨.body, []⟩).2.2 = 0 := by
  have hbody : (⟨.body, []⟩ : Iter).NotBytes := by simp [Iter.NotBytes]
  have happend := appendXpc_ok hbody (callsSucceed_noFailure t [])
  have hclose : t.DirectClosesSucceed noFailure [] := by
    cases t <;> simp [Tree.DirectClosesSucceed, noFailure]
  refine ⟨?_, (appendXpc_ret noFailure [] t ⟨.body, []⟩).1 hclose⟩
  rw [happend]
  rfl

theorem deserialise_written {t : Tree} (hd : t.NoData) (hk : t.WellKeyed)
    (h : Heap (List ObjId)) :
    ∃ v, written t = [v] ∧ ∃ h' x, deserialiseObject h v = .ok (h', some x) ∧ h.Keeps h' ∧
      TreeFrom h' h.size x t.received := by
  obtain ⟨v, hv, -, hsafe, ht⟩ := returns_of_noData hd hk
  obtain ⟨h', r, he, hkeep, hrel⟩ := deserialiseObject_ok hsafe h
  rw [ht] at hrel
  cases hrel with
  | @some x _ hx => exact ⟨v, hv, h', x, he, hkeep, hx⟩

/-- A tree without data objects is written as one value, which deserialises to the
tree with its dates as numbers and its nulls, doubles and endpoints as false. -/
theorem deserialise_appendXpc {t : Tree} (hd : t.NoData) (hk : t.WellKeyed)
    (h : Heap (List ObjId)) :
    (appendXpc noFailure [] t ⟨.body, []⟩).2.2 = 0 ∧
      ∃ v, (appendXpc noFailure [] t ⟨.body, []⟩).1.content = [v] ∧
        ∃ h' x, deserialiseObject h v = .ok (h', some x) ∧ h.Keeps h' ∧
          TreeFrom h' h.size x t.received := by
  obtain ⟨hcontent, hret⟩ := appendXpc_body t
  obtain ⟨v, hv, hdecoded⟩ := deserialise_written hd hk h
  exact ⟨hret, v, hcontent.trans hv, hdecoded⟩

theorem deserialise_dictionary_of_date :
    ∃ h' x, deserialiseObject ⟨[]⟩ (.container (.array (.dictEntry .string .variant))
        [.container .dictEntry [.basic (.string keyK), .container (.variant (.basic .int64))
          [.basic (.int64 5)]]]) = .ok (h', some x) ∧
      TreeFrom h' 0 x (.dictionary [(keyK, .leaf (.int64 5))]) := by
  have hd : (Tree.dictionary [(keyK, .leaf (.date 5))]).NoData := by simp [Tree.NoData]
  have hk : (Tree.dictionary [(keyK, .leaf (.date 5))]).WellKeyed := by simp [Tree.WellKeyed]
  obtain ⟨-, v, hv, h', x, he, -, hx⟩ := deserialise_appendXpc hd hk ⟨[]⟩
  obtain rfl : _ = v := (List.cons.inj hv).1
  exact ⟨h', x, he, hx⟩

/-- A date comes back as an integer, and null as false. -/
theorem date_not_returned :
    (appendXpc noFailure [] (.leaf (.date 5)) ⟨.body, []⟩ =
        (⟨.body, [.basic (.int64 5)]⟩, [true], 0) ∧
      ∃ h', deserialiseObject ⟨[]⟩ (.basic (.int64 5)) = .ok (h', some 0) ∧
        TreeAt h' 0 (.leaf (.int64 5)) ∧ ¬ TreeAt h' 0 (.leaf (.date 5))) ∧
    appendXpc noFailure [] (.leaf .null) ⟨.body, []⟩ =
        (⟨.body, [.basic (.boolean false)]⟩, [true], 0) ∧
      ∃ h', deserialiseObject ⟨[]⟩ (.basic (.boolean false)) = .ok (h', some 0) ∧
        TreeAt h' 0 (.leaf (.bool false)) ∧ ¬ TreeAt h' 0 (.leaf .null) := by
  have hroot : ∀ w : Leaf, TreeAt (leafCreate ⟨[]⟩ w).1 0 (.leaf w) :=
    fun w => treeFrom_leafCreate ⟨[]⟩ w
  refine ⟨⟨rfl, _, rfl, hroot _, fun h => ?_⟩, rfl, _, rfl, hroot _, fun h => ?_⟩
  · have heq := (hroot (.int64 5)).unique h
    simp at heq
  · have heq := (hroot (.bool false)).unique h
    simp at heq

/-! ## Sending again -/

theorem xpcDbusType_received (t : Tree) : xpcDbusType t.received = xpcDbusType t := by
  cases t with
  | leaf v => cases v <;> rfl
  | array ts => rfl
  | dictionary ps => rfl

theorem writtenElems_received {ts : List Tree} (h : ∀ t ∈ ts, written t.received = written t) :
    writtenElems (Tree.receivedElems ts) = writtenElems ts := by
  induction ts with
  | nil => rfl
  | cons t ts ih =>
    rw [Tree.receivedElems, writtenElems, writtenElems, h t List.mem_cons_self,
      xpcDbusType_received, ih (fun u hu => h u (List.mem_cons_of_mem t hu))]

theorem writtenPairs_received {ps : List (CString × Tree)}
    (h : ∀ p ∈ ps, written p.2.received = written p.2) :
    writtenPairs (Tree.receivedPairs ps) = writtenPairs ps := by
  induction ps with
  | nil => rfl
  | cons p ps ih =>
    obtain ⟨k, t⟩ := p
    have hvalue : written t.received = written t := h (k, t) List.mem_cons_self
    rw [Tree.receivedPairs, writtenPairs, writtenPairs, hvalue, xpcDbusType_received,
      ih (fun q hq => h q (List.mem_cons_of_mem _ hq))]

/-- What is received is written as what was sent. -/
theorem written_received (t : Tree) : written t.received = written t := by
  induction t with
  | leaf v => cases v <;> rfl
  | array ts ih => rw [Tree.received, written, written, writtenElems_received ih]
  | dictionary ps ih => rw [Tree.received, written, written, writtenPairs_received ih]

/-- The object deserialised from what is written for a tree without data objects is
written as the same value again. -/
theorem appendXpc_again {t : Tree} (hd : t.NoData) (hk : t.WellKeyed) (h : Heap (List ObjId)) :
    ∃ v, (appendXpc noFailure [] t ⟨.body, []⟩).1.content = [v] ∧
      ∃ h' x, deserialiseObject h v = .ok (h', some x) ∧ (∃ u, TreeAt h' x u) ∧
        ∀ u, TreeAt h' x u → (appendXpc noFailure [] u ⟨.body, []⟩).1.content = [v] ∧
          (appendXpc noFailure [] u ⟨.body, []⟩).2.2 = 0 := by
  obtain ⟨v, hv, h', x, he, -, hx⟩ := deserialise_written hd hk h
  have hreceived : TreeAt h' x t.received := hx.keeps (Nat.zero_le _) (Heap.Keeps.refl h')
  refine ⟨v, (appendXpc_body t).1.trans hv, h', x, he, ⟨_, hreceived⟩, fun u hu => ?_⟩
  obtain rfl : u = t.received := hu.unique hreceived
  obtain ⟨hcontent, hret⟩ := appendXpc_body t.received
  exact ⟨by rw [hcontent, written_received, hv], hret⟩

/-- `{k: [date, true, "k"], j: {k: int64}}` -/
def datesInside : Tree :=
  .dictionary [(keyK, .array [.leaf (.date 5), .leaf (.bool true), .leaf (.string keyK)]),
    (keyJ, .dictionary [(keyK, .leaf (.int64 7))])]

theorem datesInside_written_again :
    ∃ v, (appendXpc noFailure [] datesInside ⟨.body, []⟩).1.content = [v] ∧
      ∃ h' x, deserialiseObject ⟨[]⟩ v = .ok (h', some x) ∧ (∃ u, TreeAt h' x u) ∧
        ∀ u, TreeAt h' x u → (appendXpc noFailure [] u ⟨.body, []⟩).1.content = [v] ∧
          (appendXpc noFailure [] u ⟨.body, []⟩).2.2 = 0 := by
  have hd : datesInside.NoData := by simp [datesInside, Tree.NoData]
  have hk : datesInside.WellKeyed := by
    have hne : keyK ≠ keyJ := by decide
    simp [datesInside, Tree.WellKeyed, hne]
  exact appendXpc_again hd hk ⟨[]⟩

end OpenXPC
