import OpenXPC.Loading
import OpenXPC.RoundTrips

/-! # The messages that are sent for the files below an argument

`loadfile` makes a connection and sends the converted property list over it. What arrives
there is followed here from the files to the objects that a receiver makes. -/
namespace OpenXPC.Deliveries
open InsertionMap Loading Walks Wire

/-! ## The functions -/

/-- `append_xpc` reads an object by its type, the getters and the loops of the containers. -/
def readTree (h : Heap (List ObjId)) : ℕ → ObjId → Except Fault Tree
  | 0, _ => .error .outOfFuel
  | n + 1, x => do
    let xo ← h.deref x
    match xo.xoU with
    | .leaf v => .ok (.leaf v)
    | .array elems => do
      let ts ← elems.mapM (readTree h n)
      .ok (.array ts)
    | .dictionary pairs => do
      let ts ← (pairs.map Prod.snd).mapM (readTree h n)
      .ok (.dictionary ((pairs.map Prod.fst).zip ts))

/-- Of each connection the byte `passive`, which only a listener writes, and which calls
of the message library succeed. -/
structure Bus where
  passive : ℕ → Bool
  calls : ℕ → Pattern

/-- The objects of the library, the property list and the sockets, the connections made,
and the bodies of the messages sent. -/
structure Session where
  heap : Heap (List ObjId)
  world : World
  connections : ℕ
  sent : List (List (Val CString))

/-- The message that was sent is deserialised, in place of its reply, and the object lost. -/
def sendMessage (bus : Bus) (xmsg : Tree) (s : Session) : Except Fault Session :=
  match xpcConnectionSendMessage (bus.passive s.connections) (bus.calls s.connections) xmsg with
  | none => .ok { s with connections := s.connections + 1 }
  | some body => do
    let (heap, _) ← deserialiseMessage s.heap body
    .ok { s with heap := heap, connections := s.connections + 1, sent := s.sent ++ [body] }

/-- `loadfile` to its end; a message that is NULL is dereferenced. -/
def loadfileSend (env : Environment) (bus : Bus) (_ : CString) (contents : PlistFile) (s : Session) :
    Except Stop Session := do
  let loaded ← loadfile env s.heap s.world contents
  match loaded with
  | .sent world heap (some res) => do
    let xmsg ← stopAt (readTree heap (heap.size + 1) res)
    stopAt (sendMessage bus xmsg { s with heap := heap, world := world })
  | .sent _ _ none => .error (.fault .dangling)
  | _ => .ok s

/-! ## Reading a tree -/

section Reading

variable {h : Heap (List ObjId)} {x n : ℕ}

theorem mapM_of_forall₂ {f : ObjId → Except Fault Tree} {xs : List ObjId} {ts : List Tree}
    (h : List.Forall₂ (fun x t => f x = .ok t) xs ts) : xs.mapM f = .ok ts := by
  induction h with
  | nil => rfl
  | @cons x t xs ts hx _ ih =>
    rw [List.mapM_cons, hx, ih]
    rfl

theorem readTree_of_treeAt {t : Tree} (ht : TreeAt h x t) (hn : t.height < n) : readTree h n x = .ok t := by
  induction t generalizing n x with
  | leaf v =>
    obtain ⟨n, rfl⟩ := Nat.exists_eq_succ_of_ne_zero (Nat.ne_of_gt hn)
    obtain ⟨-, o, ho, hu⟩ := treeFrom_leaf.mp ht
    simp only [readTree, Heap.deref_of_get ho, hu, ok_bind]
  | array ts ih =>
    obtain ⟨n, rfl⟩ := Nat.exists_eq_succ_of_ne_zero (Nat.ne_of_gt (Nat.zero_lt_of_lt hn))
    obtain ⟨-, o, es, ho, hu, hrel⟩ := treeFrom_array.mp ht
    have helems : es.mapM (readTree h n) = .ok ts := by
      refine mapM_of_forall₂ (forall₂_imp_of_mem hrel fun y t hmem hy => ih t hmem hy ?_)
      have hlt := Tree.height_lt_of_mem hmem
      omega
    simp only [readTree, Heap.deref_of_get ho, hu, ok_bind, helems]
  | dictionary ps ih =>
    obtain ⟨n, rfl⟩ := Nat.exists_eq_succ_of_ne_zero (Nat.ne_of_gt (Nat.zero_lt_of_lt hn))
    obtain ⟨-, o, qs, ho, hu, hrel⟩ := treeFrom_dictionary.mp ht
    have hvalues : (qs.map Prod.snd).mapM (readTree h n) = .ok (ps.map Prod.snd) := by
      apply mapM_of_forall₂
      rw [List.forall₂_map_left_iff, List.forall₂_map_right_iff]
      refine forall₂_imp_of_mem hrel fun q p hmem hq => ih p hmem hq.2 ?_
      have hlt := Tree.height_lt_of_mem_pairs hmem
      omega
    have hpairs : (qs.map Prod.fst).zip (ps.map Prod.snd) = ps := by
      rw [hrel.keys]
      exact (List.zip_of_prod rfl rfl).symm
    simp only [readTree, Heap.deref_of_get ho, hu, ok_bind, hvalues, hpairs]

end Reading

theorem height_le_nodes (t : Tree) : t.height ≤ t.nodes := by
  induction t with
  | leaf v => exact Nat.zero_le _
  | array ts ih =>
    have hall : Tree.heightElems ts ≤ Tree.nodesElems ts := by
      induction ts with
      | nil => exact Nat.le_refl 0
      | cons t ts ihs =>
        have ht := ih t List.mem_cons_self
        have hts := ihs fun u hu => ih u (List.mem_cons_of_mem t hu)
        rw [Tree.heightElems, Tree.nodesElems]
        omega
    rw [Tree.height, Tree.nodes]
    omega
  | dictionary ps ih =>
    have hall : Tree.heightPairs ps ≤ Tree.nodesPairs ps := by
      induction ps with
      | nil => exact Nat.le_refl 0
      | cons p ps ihs =>
        have hp := ih p List.mem_cons_self
        have hps := ihs fun q hq => ih q (List.mem_cons_of_mem p hq)
        rw [Tree.heightPairs, Tree.nodesPairs]
        omega
    rw [Tree.height, Tree.nodes]
    omega

/-! ## Property lists without sockets -/

end OpenXPC.Deliveries

namespace OpenXPC.NSObject

mutual

def NoData : NSObject → Prop
  | .data _ => False
  | .array objects => NoDataObjects objects
  | .dictionary entries => NoDataEntries entries
  | _ => True

def NoDataObjects : List NSObject → Prop
  | [] => True
  | v :: vs => NoData v ∧ NoDataObjects vs

def NoDataEntries : Entries → Prop
  | [] => True
  | (_, v) :: es => NoData v ∧ NoDataEntries es

end

section Sending

variable {text : NSString → CString → Prop}

mutual

/-- The tree of an object is one that can be sent and received. -/
theorem sendable_of_isomorphic : ∀ (v : NSObject) (t : Tree), v.Supported → v.NoData →
    v.Isomorphic text t → t.NoData ∧ t.WellKeyed
  | .array objects, .array ts, hv, hd, hiso => by
    have hall := sendable_objects objects ts hv hd hiso
    exact ⟨Tree.all_array.mpr ⟨trivial, fun t ht => (hall t ht).1⟩,
      Tree.all_array.mpr ⟨trivial, fun t ht => (hall t ht).2⟩⟩
  | .dictionary entries, .dictionary ps, hv, hd, hiso => by
    obtain ⟨hkeys, hall⟩ := sendable_entries entries ps hv.2 hd hiso
    have hnodup : (ps.map Prod.fst).Nodup := hkeys ▸ hv.1
    exact ⟨Tree.all_dictionary.mpr ⟨trivial, fun p hp => (hall p hp).1⟩,
      Tree.all_dictionary.mpr ⟨hnodup, fun p hp => (hall p hp).2⟩⟩
  | .string s, .leaf (.string c), _, _, _ => ⟨trivial, trivial⟩
  | .fileHandle file, .leaf v, _, _, hiso => by
    obtain rfl : v = .fd file := by simpa [Isomorphic] using hiso
    exact ⟨trivial, trivial⟩
  | .number (.bool b), .leaf v, _, _, hiso => by
    obtain rfl : v = .bool b := by simpa [Isomorphic] using hiso
    exact ⟨trivial, trivial⟩
  | .number (.unsignedLong u), .leaf v, _, _, hiso => by
    obtain rfl : v = .uint64 u := by simpa [Isomorphic] using hiso
    exact ⟨trivial, trivial⟩
  | .number (.long i), .leaf v, _, _, hiso => by
    obtain rfl : v = .int64 i := by simpa [Isomorphic] using hiso
    exact ⟨trivial, trivial⟩
  | .number (.double d), .leaf v, _, _, hiso => by
    obtain rfl : v = .double d := by simpa [Isomorphic] using hiso
    exact ⟨trivial, trivial⟩

theorem sendable_objects : ∀ (vs : List NSObject) (ts : List Tree), SupportedObjects vs →
    NoDataObjects vs → IsomorphicObjects text vs ts → ∀ t ∈ ts, t.NoData ∧ t.WellKeyed
  | [], [], _, _, _ => fun _ ht => absurd ht List.not_mem_nil
  | v :: vs, t :: ts, hvs, hd, hiso => List.forall_mem_cons.mpr
    ⟨sendable_of_isomorphic v t hvs.1 hd.1 hiso.1, sendable_objects vs ts hvs.2 hd.2 hiso.2⟩

theorem sendable_entries : ∀ (es : Entries) (ps : List (CString × Tree)), SupportedEntries es →
    NoDataEntries es → IsomorphicEntries text es ps →
      es.map (fun e => e.1.utf8String) = ps.map Prod.fst ∧ ∀ p ∈ ps, p.2.NoData ∧ p.2.WellKeyed
  | [], [], _, _, _ => ⟨rfl, fun p hp => absurd hp List.not_mem_nil⟩
  | (k, v) :: es, (j, t) :: ps, hes, hd, hiso => by
    obtain ⟨hkeys, hrest⟩ := sendable_entries es ps hes.2 hd.2 hiso.2
    have hfirst := sendable_of_isomorphic v t hes.1 hd.1 hiso.1.2
    refine ⟨?_, List.forall_mem_cons.mpr ⟨hfirst, hrest⟩⟩
    rw [List.map_cons, List.map_cons, hkeys, hiso.1.1]

end

end Sending

end OpenXPC.NSObject

namespace OpenXPC.Deliveries
open InsertionMap Loading Walks Wire

/-- A property list that the callbacks leave as it is, and that can be sent. -/
structure Plain (dict : Entries) : Prop where
  supported : (NSObject.dictionary dict).Supported
  noData : (NSObject.dictionary dict).NoData
  noSockets : ∀ e ∈ dict, e.1.utf8String ≠ socketsKey

theorem Plain.lookup {dict : Entries} (hp : Plain dict) : ∀ e ∈ dict, dict.lookup e.1 = some e.2 := by
  have hkeys : (dict.map fun e => e.1.utf8String).Nodup := hp.supported.1
  have hnodup : (dict.map Prod.fst).Nodup := by
    refine List.Nodup.of_map NSString.utf8String ?_
    rwa [List.map_map]
  exact fun e he => lookup_of_mem hnodup he

theorem validateKeys_plain (notices : Bool) (os : ℕ → SocketOutcome) {es : Entries} {w : World} (r : ℤ)
    (hkeys : ∀ e ∈ es, e.1.utf8String ≠ socketsKey) (hlookup : ∀ e ∈ es, w.plist.lookup e.1 = some e.2) :
    ∃ r' w', validateKeys notices (entries os) (es.map Prod.fst) r w = .ok (r', w') ∧ w'.plist = w.plist := by
  induction es generalizing r w with
  | nil => exact ⟨r, w, rfl, rfl⟩
  | cons e es ih =>
    obtain ⟨key, val⟩ := e
    have hval : w.plist.lookup key = some val := hlookup (key, val) List.mem_cons_self
    have hkeys' := fun e he => hkeys e (List.mem_cons_of_mem (key, val) he)
    have hlookup' := fun e he => hlookup e (List.mem_cons_of_mem (key, val) he)
    rw [List.map_cons, validateKeys]
    simp only [hval]
    cases hentry : findEntry (entries os) key.utf8String with
    | none => exact ⟨r, w, rfl, rfl⟩
    | some entry =>
      dsimp only
      by_cases hkind : val.isKindOf entry.type = true
      · rw [if_pos hkind]
        rcases findEntry_cb hentry with ⟨-, -, htype, hcb⟩ | ⟨hsockets, -⟩ | ⟨-, -, hcb⟩
        · rw [htype] at hkind
          cases val with
          | array arr =>
            have hplist : ∀ r₁, (w.afterCallback key (.array arr) r₁).plist = w.plist :=
              fun r₁ => upsert_of_lookup hval
            simp only [hcb, cbProgargs, ok_bind, hplist, ne_eq, not_true, and_false, if_false]
            split_ifs
            · exact ⟨_, _, rfl, hplist _⟩
            · obtain ⟨r', w', hrest, hplist'⟩ := ih (eachArgument 0 arr) hkeys' fun e he => by
                rw [hplist]
                exact hlookup' e he
              exact ⟨r', w', hrest, hplist'.trans (hplist _)⟩
          | _ => cases hkind
        · exact absurd hsockets (hkeys (key, val) List.mem_cons_self)
        · simp only [hcb]
          exact ih r hkeys' hlookup'
      · rw [if_neg hkind]
        exact ⟨-eINVAL, w, rfl, rfl⟩

/-! ## A message that arrives -/

/-- The body holds a value that deserialises to the tree of the property list. -/
def Carries (dict : Entries) (body : List (Val CString)) : Prop :=
  ∃ v t, body = [v] ∧ (NSObject.dictionary dict).Isomorphic NSObject.UpToNul t ∧
    ∀ h, ∃ h' x, deserialiseObject h v = .ok (h', some x) ∧ h.Keeps h' ∧ TreeFrom h' h.size x t.received

/-- What is sent over the connections from the one with this number on; a connection whose
byte `passive` is not zero sends nothing. -/
def Bus.delivered (bus : Bus) (n : ℕ) (bodies : List (List (Val CString))) : List (List (Val CString)) :=
  (bodies.zipIdx n).filterMap fun b => if bus.passive b.2 then none else some b.1

section Sending

variable {env : Environment} {bus : Bus} {dict : Entries} {s : Session}

theorem sendMessage_ok (bus : Bus) (s : Session) {t : Tree} (hd : t.NoData) (hk : t.WellKeyed)
    (hcalls : bus.calls s.connections = noFailure) : ∃ s', sendMessage bus t s = .ok s' ∧
      s'.connections = s.connections + 1 ∧
      s'.sent = s.sent ++ if bus.passive s.connections then [] else [written t] := by
  obtain ⟨hcontent, hret⟩ := appendXpc_body t
  rw [sendMessage, xpcConnectionSendMessage, hcalls]
  cases hpassive : bus.passive s.connections with
  | true => exact ⟨_, rfl, rfl, (List.append_nil s.sent).symm⟩
  | false =>
    obtain ⟨v, hv, h', x, hdecode, -⟩ := deserialise_written hd hk s.heap
    have hmessage : deserialiseMessage s.heap [v] = .ok (h', some x) := hdecode
    refine ⟨{ s with heap := h', connections := s.connections + 1, sent := s.sent ++ [[v]] }, ?_, rfl, ?_⟩
    · simp [hret, hcontent, hv, hmessage]
    · simp [hv]

theorem loadfileSend_plain (hp : Plain dict) (hcalls : ∀ i, bus.calls i = noFailure) (path : CString) :
    ∃ s' body, loadfileSend env bus path (.plist (.dictionary dict)) s = .ok s' ∧ Carries dict body ∧
      s'.connections = s.connections + 1 ∧
      s'.sent = s.sent ++ if bus.passive s.connections then [] else [body] := by
  have hlookup : ∀ e ∈ dict, ({ s.world with plist := dict, returned := [] } : World).plist.lookup e.1 = some e.2 :=
    hp.lookup
  obtain ⟨r, w, hvalidate, hplist⟩ := validateKeys_plain env.notices env.sockets 0 hp.noSockets hlookup
  obtain ⟨h, t, hconvert, hiso, hbuilds⟩ := NSObject.newXPCObject_builds s.heap (.dictionary dict) hp.supported
  have htree : TreeAt h s.heap.size t := hbuilds.tree.keeps (Nat.zero_le _) (Heap.Keeps.refl h)
  have hheight : t.height < h.size + 1 := by
    have hle := height_le_nodes t
    have hnodes := hbuilds.nodes
    omega
  obtain ⟨hd, hk⟩ := NSObject.sendable_of_isomorphic _ t hp.supported hp.noData hiso
  obtain ⟨s', hsend, hconnections, hsent⟩ := sendMessage_ok bus { s with heap := h, world := w } hd hk (hcalls _)
  obtain ⟨v, hv, -⟩ := deserialise_written hd hk s.heap
  refine ⟨s', written t, ?_, ⟨v, t, hv, hiso, fun h₀ => ?_⟩, hconnections, hsent⟩
  · have hload : loadfile env s.heap s.world (.plist (.dictionary dict)) = .ok (.sent w h (some s.heap.size)) := by
      simp only [loadfile, parsefile, validate, hvalidate, ok_bind, hplist, hconvert]
    simp only [loadfileSend, hload, ok_bind, readTree_of_treeAt htree hheight, stopAt, Except.mapError, hsend]
  · obtain ⟨v', hv', hdecoded⟩ := deserialise_written hd hk h₀
    obtain rfl : v = v' := (List.cons.inj (hv.symm.trans hv')).1
    exact hdecoded

/-- The property list in a file. -/
def plistOf : CString × PlistFile → Option (CString × Entries)
  | (path, .plist (.dictionary dict)) => some (path, dict)
  | _ => none

theorem plistOf_eq_some {f : CString × PlistFile} {path : CString} :
    plistOf f = some (path, dict) ↔ f = (path, .plist (.dictionary dict)) := by
  constructor
  · intro h
    unfold plistOf at h
    split at h
    · cases h
      rfl
    · cases h
  · rintro rfl
    rfl

theorem loadfileSend_of_none {f : CString × PlistFile} (hf : plistOf f = none) :
    loadfileSend env bus f.1 f.2 s = .ok s := by
  obtain ⟨path, contents⟩ := f
  cases contents with
  | unreadable => rfl
  | malformed => rfl
  | plist v =>
    cases v with
    | dictionary dict => cases hf
    | _ => rfl

/-- The files send one message for each property list, in their order. -/
theorem foldlM_loadfileSend {files : List (CString × PlistFile)} (hcalls : ∀ i, bus.calls i = noFailure)
    (hplain : ∀ l ∈ files.filterMap plistOf, Plain l.2) (env : Environment) (s : Session) :
    ∃ s' bodies, files.foldlM (fun s f => loadfileSend env bus f.1 f.2 s) s = .ok s' ∧
      List.Forall₂ (fun l body => Carries l.2 body) (files.filterMap plistOf) bodies ∧
      s'.sent = s.sent ++ bus.delivered s.connections bodies := by
  induction files generalizing s with
  | nil => exact ⟨s, [], rfl, .nil, (List.append_nil s.sent).symm⟩
  | cons f files ih =>
    rw [List.foldlM_cons]
    cases hf : plistOf f with
    | none =>
      rw [List.filterMap_cons_none hf] at hplain ⊢
      rw [loadfileSend_of_none hf]
      exact ih hplain s
    | some l =>
      obtain ⟨path, dict⟩ := l
      rw [List.filterMap_cons_some hf] at hplain ⊢
      obtain rfl := plistOf_eq_some.mp hf
      obtain ⟨hp, hrest⟩ := List.forall_mem_cons.mp hplain
      obtain ⟨s₁, body, hload, hcarries, hconnections, hsent⟩ := loadfileSend_plain hp hcalls path
      obtain ⟨s', bodies, hloads, hall, hsents⟩ := ih hrest s₁
      refine ⟨s', body :: bodies, ?_, .cons hcarries hall, ?_⟩
      · rw [hload]
        exact hloads
      · rw [hsents, hsent, hconnections, List.append_assoc, Bus.delivered, Bus.delivered, List.zipIdx_cons]
        cases hpassive : bus.passive s.connections with
        | true =>
          rw [List.filterMap_cons_none (by simp [hpassive])]
          rfl
        | false =>
          rw [List.filterMap_cons_some (b := body) (by simp [hpassive])]
          rfl

end Sending

def labelled : Entries := [(.literal "Label", .string ⟨[120]⟩)]

theorem plain_labelled : Plain labelled where
  supported := ⟨by decide, trivial, trivial⟩
  noData := ⟨trivial, trivial⟩
  noSockets := by decide

end OpenXPC.Deliveries
