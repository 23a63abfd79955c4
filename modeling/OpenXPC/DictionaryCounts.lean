import OpenXPC.Copying
import OpenXPC.Decoding
import OpenXPC.DictionaryRuns
import OpenXPC.Traversals

/-! # The count of a dictionary

The count is kept beside the pairs. A copy and a received dictionary are filled
through the setter from an empty one; a bulk creation starts the count at the
number of its entries and then counts them again. -/
namespace OpenXPC.DictionaryCounts
open GuardedRuns InsertionMap Wire

variable {h h' : Heap (List ObjId)}

/-! ## What building preserves -/

/-- A property of heaps kept by all functions that copies and received objects
are built with. -/
structure Closed (P : Heap (List ObjId) → Prop) : Prop where
  leafCreate : ∀ h v, P h → P (leafCreate h v).1
  dictionaryCreate : ∀ h h' d, P h → xpcDictionaryCreate h [] = .ok (h', d) → P h'
  dictionarySet : ∀ h h' d k v, P h → xpcDictionarySetValue h d k v = .ok h' → P h'
  arrayCreate : ∀ h h' a, P h → Arrays.xpcArrayCreate h [] = .ok (h', a) → P h'
  arraySet : ∀ h h' a i v, P h → Arrays.xpcArraySetValue h a i v = .ok h' → P h'

variable {P : Heap (List ObjId) → Prop}

theorem Closed.arrayAppend (hP : Closed P) {a v : ObjId} (hh : P h)
    (he : Arrays.xpcArrayAppendValue h a v = .ok h') : P h' :=
  hP.arraySet h h' a xpcArrayAppend v hh (by rw [Arrays.xpcArraySetValue, if_pos rfl, he])

theorem Closed.copyLeaf (hP : Closed P) (hh : P h) (v : Leaf) : P (copyLeaf h v).1 := by
  cases v
  case null => exact hh
  case double bits => exact hh
  case fd file => exact hh
  case uuid bytes => exact hh
  case connection busname => exact hh
  all_goals exact hP.leafCreate h _ hh

theorem Closed.dictCopyCb (hP : Closed P) {d : ObjId} {k : CString} {copy : Option ObjId} (hh : P h)
    (he : dictCopyCb d k h copy = .ok h') : P h' := by
  cases copy with
  | none => cases he
  | some v => exact hP.dictionarySet h h' d k v hh he

theorem Closed.arrayCopyCb (hP : Closed P) {a i : ℕ} {copy : Option ObjId} (hh : P h)
    (he : arrayCopyCb a i h copy = .ok h') : P h' := by
  cases copy with
  | none =>
    obtain ⟨o, -, he⟩ := bind_eq_ok.mp he
    split_ifs at he
    cases he
    exact hh
  | some v => exact hP.arraySet h h' a i v hh he

theorem Closed.xpcCopy (hP : Closed P) {n : ℕ} {x : ObjId} {r : Option ObjId} (hh : P h)
    (he : xpcCopy n h x = .ok (h', r)) : P h' := by
  induction n generalizing h h' x r with
  | zero => cases he
  | succ n ih =>
    obtain ⟨o, -, he⟩ := bind_eq_ok.mp he
    cases hu : o.xoU with
    | leaf v =>
      simp only [hu, Except.ok.injEq] at he
      obtain rfl : (OpenXPC.copyLeaf h v).1 = h' := congrArg Prod.fst he
      exact hP.copyLeaf hh v
    | array es =>
      simp only [hu] at he
      obtain ⟨⟨h₁, a⟩, hcreate, he⟩ := bind_eq_ok.mp he
      obtain ⟨⟨h₂, b⟩, happly, he⟩ := bind_eq_ok.mp he
      cases he
      obtain ⟨o₁, -, happly⟩ := bind_eq_ok.mp happly
      obtain ⟨es₁, -, happly⟩ := bind_eq_ok.mp happly
      refine applyElems_preserves (fun i v s s' b hs hstep => ?_)
        (hP.arrayCreate h h₁ a hh hcreate) happly
      obtain ⟨⟨s₁, copy⟩, hcopy, hstep⟩ := bind_eq_ok.mp hstep
      obtain ⟨s₂, hset, hstep⟩ := bind_eq_ok.mp hstep
      cases hstep
      exact hP.arrayCopyCb (ih hs hcopy) hset
    | dictionary ps =>
      simp only [hu] at he
      obtain ⟨⟨h₁, d⟩, hcreate, he⟩ := bind_eq_ok.mp he
      obtain ⟨⟨h₂, b⟩, happly, he⟩ := bind_eq_ok.mp he
      cases he
      obtain ⟨o₁, -, happly⟩ := bind_eq_ok.mp happly
      obtain ⟨ps₁, -, happly⟩ := bind_eq_ok.mp happly
      refine applyPairs_preserves (fun k v s s' b hs hstep => ?_)
        (hP.dictionaryCreate h h₁ d hh hcreate) happly
      obtain ⟨⟨s₁, copy⟩, hcopy, hstep⟩ := bind_eq_ok.mp hstep
      obtain ⟨s₂, hset, hstep⟩ := bind_eq_ok.mp hstep
      cases hstep
      exact hP.dictCopyCb (ih hs hcopy) hset

/-- What is known of the values of smaller depth. -/
def PreservesBelow (P : Heap (List ObjId) → Prop) (n : ℕ) : Prop :=
  ∀ v : Val CString, v.depth < n → ∀ h h' r, P h → deserialiseObject h v = .ok (h', r) → P h'

variable {n : ℕ} {iter : List (Val CString)}

theorem PreservesBelow.deserialiseIter (hn : PreservesBelow P n) (hdepth : ∀ u ∈ iter, u.depth < n)
    {r : Option ObjId} (hh : P h) (he : deserialiseIter h iter = .ok (h', r)) : P h' := by
  cases iter with
  | nil =>
    cases he
    exact hh
  | cons u rest => exact hn u (hdepth u List.mem_cons_self) h h' r hh he

theorem Closed.deserialiseArr (hP : Closed P) (hn : PreservesBelow P n)
    (hdepth : ∀ u ∈ iter, u.depth < n) {a : ObjId} (hh : P h)
    (he : deserialiseArr a h iter = .ok h') : P h' := by
  induction iter generalizing h with
  | nil =>
    cases he
    exact hh
  | cons w iter ih =>
    rcases deserialiseArr_cases w with hw | hw
    · obtain ⟨sig, sub, rfl⟩ := hw
      have hlt := hdepth _ List.mem_cons_self
      have hbelow := Val.depth_lt_of_container_le (Nat.le_of_lt hlt)
      rw [OpenXPC.deserialiseArr] at he
      obtain ⟨⟨h₁, value⟩, hvalue, he⟩ := bind_eq_ok.mp he
      cases value with
      | none => cases he
      | some y =>
        obtain ⟨h₂, happend, he⟩ := bind_eq_ok.mp he
        apply ih (fun u hu => hdepth u (List.mem_cons_of_mem _ hu)) _ he
        exact hP.arrayAppend (hn.deserialiseIter hbelow hh hvalue) happend
    · rw [(hw a h iter).1] at he
      cases he

theorem Closed.deserialiseDict (hP : Closed P) (hn : PreservesBelow P n)
    (hdepth : ∀ u ∈ iter, u.depth < n) {d : ObjId} (hh : P h)
    (he : deserialiseDict d h iter = .ok h') : P h' := by
  induction iter generalizing h with
  | nil =>
    cases he
    exact hh
  | cons w iter ih =>
    rcases deserialiseDict_cases w with hw | hw
    · obtain ⟨key, sub2, hentry⟩ := hw
      have hlt := hdepth w List.mem_cons_self
      have hbelow : ∀ u ∈ sub2, u.depth < n := fun u hu => Nat.lt_trans (hentry.depth_lt hu) hlt
      obtain ⟨c, sig, rest, rfl⟩ := hentry
      rw [OpenXPC.deserialiseDict] at he
      obtain ⟨⟨h₁, value⟩, hvalue, he⟩ := bind_eq_ok.mp he
      cases value with
      | none => cases he
      | some y =>
        obtain ⟨h₂, hset, he⟩ := bind_eq_ok.mp he
        apply ih (fun u hu => hdepth u (List.mem_cons_of_mem _ hu)) _ he
        exact hP.dictionarySet h₁ h₂ d key y (hn.deserialiseIter hbelow hh hvalue) hset
    · rw [(hw d h iter).1] at he
      cases he

theorem Closed.preservesBelow (hP : Closed P) (n : ℕ) : PreservesBelow P n := by
  induction n with
  | zero => exact fun v hv => absurd hv (Nat.not_lt_zero _)
  | succ n ih =>
    intro v hv h h' r hh he
    rcases deserialiseObject_cases v with hcase | hcase | hcase | hcase | hcase
    · obtain ⟨w, hw, -⟩ := hcase
      rw [hw h] at he
      cases he
      exact hP.leafCreate h w hh
    · obtain ⟨key, value, sub, rfl⟩ := hcase
      have hdepth := Val.depth_lt_of_container_le (Nat.le_of_lt_succ hv)
      rw [deserialiseObject] at he
      obtain ⟨⟨h₁, d⟩, hcreate, he⟩ := bind_eq_ok.mp he
      obtain ⟨h₂, hloop, he⟩ := bind_eq_ok.mp he
      cases he
      exact hP.deserialiseDict ih hdepth (hP.dictionaryCreate h h₁ d hh hcreate) hloop
    · obtain ⟨sub, rfl⟩ := hcase
      have hdepth := Val.depth_lt_of_container_le (Nat.le_of_lt_succ hv)
      rw [deserialiseObject] at he
      obtain ⟨⟨h₁, a⟩, hcreate, he⟩ := bind_eq_ok.mp he
      obtain ⟨h₂, hloop, he⟩ := bind_eq_ok.mp he
      cases he
      exact hP.deserialiseArr ih hdepth (hP.arrayCreate h h₁ a hh hcreate) hloop
    · obtain ⟨sub, rfl⟩ := hcase
      cases he
    · obtain ⟨hnull, -⟩ := hcase
      rw [hnull h] at he
      cases he
      exact hh

theorem Closed.deserialiseMessage (hP : Closed P) {body : List (Val CString)} {r : Option ObjId}
    (hh : P h) (he : deserialiseMessage h body = .ok (h', r)) : P h' := by
  cases body with
  | nil =>
    cases he
    exact hh
  | cons v rest => exact hP.preservesBelow (v.depth + 1) v (Nat.lt_succ_self _) h h' r hh he

/-! ## Counted dictionaries -/

/-- The size of a dictionary is the number of its pairs, and no key is repeated. -/
def Counted (o : XpcObject (List ObjId)) : Prop :=
  ∀ ps, o.xoU = .dictionary ps → o.xoSize = ps.length ∧ (ps.map Prod.fst).Nodup

theorem Counted.of_not_dictionary {o : XpcObject (List ObjId)}
    (ho : ∀ ps, o.xoU ≠ .dictionary ps) : Counted o := fun ps hps => absurd hps (ho ps)

theorem Counted.retained {o : XpcObject (List ObjId)} (ho : Counted o) : Counted o.retained := ho

section Counted

variable {lo : ℕ}

theorem counted_create {d : ObjId} (hh : h.ForallFrom lo Counted)
    (he : xpcDictionaryCreate h [] = .ok (h', d)) : h'.ForallFrom lo Counted := by
  cases he
  apply hh.alloc
  intro ps hps
  cases hps
  exact ⟨rfl, List.nodup_nil⟩

theorem counted_set {d v : ObjId} {k : CString} (hh : h.ForallFrom lo Counted)
    (he : xpcDictionarySetValue h d k v = .ok h') : h'.ForallFrom lo Counted := by
  obtain ⟨o, ps, hget, hu, hcase⟩ := xpcDictionarySetValue_cases he
  rcases hcase with ⟨qs, hr, rfl⟩ | ⟨hr, he⟩
  · refine hh.set hget (fun hlo rs hrs => ?_)
    obtain ⟨hsize, hnodup⟩ := hh d o hlo hget ps hu
    cases hrs
    exact ⟨hsize.trans (replace?_length hr).symm, (replace?_keys hr).symm ▸ hnodup⟩
  · refine (hh.set hget (fun hlo rs hrs => ?_)).retain (fun _ => Counted.retained) he
    obtain ⟨hsize, hnodup⟩ := hh d o hlo hget ps hu
    cases hrs
    rw [← upsert_of_notMem (replace?_eq_none_iff.mp hr)]
    refine ⟨?_, upsert_nodup hnodup⟩
    simp [upsert_of_notMem (replace?_eq_none_iff.mp hr), XpcObject.withPairs, hsize]

theorem counted_withArr (o : XpcObject (List ObjId)) (es : List ObjId) : Counted (o.withArr es) :=
  Counted.of_not_dictionary (fun _ => nofun)

theorem counted_arrayAppend {a v : ObjId} (hh : h.ForallFrom lo Counted)
    (he : Arrays.xpcArrayAppendValue h a v = .ok h') : h'.ForallFrom lo Counted := by
  obtain ⟨o, es, ha, -, he⟩ := Arrays.xpcArrayAppendValue_cases he
  exact (hh.set ha (fun _ => counted_withArr o _)).retain (fun _ => Counted.retained) he

theorem counted_arraySet {a i v : ℕ} (hh : h.ForallFrom lo Counted)
    (he : Arrays.xpcArraySetValue h a i v = .ok h') : h'.ForallFrom lo Counted := by
  rcases Arrays.xpcArraySetValue_cases he with he | rfl | ⟨o, es, old, h₁, ha, -, hretain, rfl⟩
  · exact counted_arrayAppend hh he
  · exact hh
  · have hset := hh.set ha (fun _ => counted_withArr o (es.take (i + 1)))
    exact (hset.retain (fun _ => Counted.retained) hretain).free

theorem counted_leafCreate (hh : h.ForallFrom lo Counted) (v : Leaf) :
    (leafCreate h v).1.ForallFrom lo Counted :=
  hh.alloc (Counted.of_not_dictionary (fun _ => nofun))

theorem closed_counted (lo : ℕ) : Closed (Heap.ForallFrom lo Counted) where
  leafCreate := fun _ v hh => counted_leafCreate hh v
  dictionaryCreate := fun _ _ _ hh he => counted_create hh he
  dictionarySet := fun _ _ _ _ _ hh he => counted_set hh he
  arrayCreate := by
    intro h h' a hh he
    cases he
    exact hh.alloc (Counted.of_not_dictionary (fun _ => nofun))
  arraySet := fun _ _ _ _ _ hh he => counted_arraySet hh he

end Counted

/-! ## Runs -/

inductive Op
  | setter (op : DictionaryRuns.Op)
  | copy (fuel : ℕ) (obj : ObjId)
  | deserialise (body : List (Val CString))

def exec (h : Heap (List ObjId)) : Op → Except Fault (Heap (List ObjId))
  | .setter op => DictionaryRuns.execHeap h op
  | .copy fuel obj => (xpcCopy fuel h obj).map Prod.fst
  | .deserialise body => (deserialiseMessage h body).map Prod.fst

/-- The objects passed are live and of the right type, and a copy or a message
is one that yields a result. -/
def allowed (h : Heap (List ObjId)) : Op → Prop
  | .setter (.create entries) => ∀ p ∈ entries, DictionaryRuns.Live h p.2
  | .setter (.setValue d _ v) => IsDictionary h d ∧ DictionaryRuns.Live h v
  | .setter (.setBool d _ _) => IsDictionary h d
  | .setter (.setInt64 d _ _) => IsDictionary h d
  | .setter (.setUint64 d _ _) => IsDictionary h d
  | .setter (.setString d _ _) => IsDictionary h d
  | .copy fuel obj => ∃ r, xpcCopy fuel h obj = .ok r
  | .deserialise body => ∃ r, deserialiseMessage h body = .ok r

def machine : Machine (Heap (List ObjId)) Op Fault := ⟨allowed, exec⟩

def Initial (h : Heap (List ObjId)) : Prop := ∀ d, ¬ IsDictionary h d

/-- The count is the number of the pairs visited, whose keys are distinct. -/
def CountsPairs (h : Heap (List ObjId)) (d : ObjId) : Prop :=
  ∃ ps : Pairs, xpcDictionaryApplyFun h d (DictionaryRuns.recordWhile fun _ _ => true) [] =
      .ok (ps, true) ∧ (ps.map Prod.fst).Nodup ∧ xpcDictionaryGetCount h d = .ok ps.length

def AllCountPairs (h : Heap (List ObjId)) : Prop := ∀ d, IsDictionary h d → CountsPairs h d

/-- A dictionary is created without entries. -/
def CreatesEmpty (_ : Heap (List ObjId)) : Op → Prop
  | .setter (.create entries) => entries = []
  | _ => True

theorem countsPairs_iff {d : ObjId} {o : XpcObject (List ObjId)} {ps : Pairs}
    (hd : h.get d = some o) (ho : o.xoU = .dictionary ps) :
    CountsPairs h d ↔ (ps.map Prod.fst).Nodup ∧ o.xoSize = ps.length := by
  have happly : xpcDictionaryApplyFun h d (DictionaryRuns.recordWhile fun _ _ => true) [] =
      .ok (ps, true) := by
    rw [xpcDictionaryApplyFun_of_get hd ho, DictionaryRuns.applyPairs_recordWhile,
      DictionaryRuns.untilStop_true]
    simp
  have hcount : xpcDictionaryGetCount h d = .ok o.xoSize := by
    simp [xpcDictionaryGetCount, Heap.deref_of_get hd]
  constructor
  · intro hc
    obtain ⟨qs, hqs, hnodup, hlen⟩ := hc
    rw [happly] at hqs
    cases hqs
    exact ⟨hnodup, Except.ok.inj (hcount.symm.trans hlen)⟩
  · intro hc
    exact ⟨ps, happly, hc.1, by rw [hcount, hc.2]⟩

theorem allCountPairs (hh : h.ForallFrom 0 Counted) : AllCountPairs h := by
  intro d hd
  obtain ⟨o, ps, ho, hu⟩ := hd
  obtain ⟨hsize, hnodup⟩ := hh d o (Nat.zero_le d) ho ps hu
  exact (countsPairs_iff ho hu).mpr ⟨hnodup, hsize⟩

theorem counted_initial (hh : Initial h) : h.ForallFrom 0 Counted :=
  fun d o _ ho => Counted.of_not_dictionary (fun ps hps => hh d ⟨o, ps, ho, hps⟩)

theorem counted_setValue_step {d v : ObjId} {k : CString} (hh : h.ForallFrom 0 Counted)
    (hd : IsDictionary h d) (hv : DictionaryRuns.Live h v) :
    ∃ h', xpcDictionarySetValue h d k v = .ok h' ∧ h'.ForallFrom 0 Counted := by
  obtain ⟨o, ps, ho, hu⟩ := hd
  obtain ⟨w, hw⟩ := hv
  obtain ⟨h', he, -⟩ := xpcDictionarySetValue_ok ho hu hw k
  exact ⟨h', he, counted_set hh he⟩

theorem counted_setLeaf_step {d : ObjId} (k : CString) (v : Leaf) (hh : h.ForallFrom 0 Counted)
    (hd : IsDictionary h d) : ∃ h', dictionarySetLeaf h d k v = .ok h' ∧ h'.ForallFrom 0 Counted := by
  apply counted_setValue_step (counted_leafCreate hh v)
  · obtain ⟨o, ps, ho, hu⟩ := hd
    exact ⟨o, ps, Heap.get_alloc_of_get ho _, hu⟩
  · exact ⟨_, by simp [leafCreate, xpcPrimCreate, xpcPrimCreateFlags, Heap.get_alloc]; rfl⟩

theorem counted_step {op : Op} (hh : h.ForallFrom 0 Counted) (ha : allowed h op)
    (hc : CreatesEmpty h op) : ∃ h', exec h op = .ok h' ∧ h'.ForallFrom 0 Counted := by
  cases op with
  | setter op =>
    cases op with
    | create entries =>
      obtain rfl : entries = [] := hc
      exact ⟨_, rfl, counted_create hh rfl⟩
    | setValue d k v => exact counted_setValue_step hh ha.1 ha.2
    | setBool d k b => exact counted_setLeaf_step k (.bool b) hh ha
    | setInt64 d k i => exact counted_setLeaf_step k (.int64 i) hh ha
    | setUint64 d k u => exact counted_setLeaf_step k (.uint64 u) hh ha
    | setString d k t => exact counted_setLeaf_step k (.string t) hh ha
  | copy fuel obj =>
    obtain ⟨⟨h', r⟩, he⟩ := ha
    exact ⟨h', by simp [exec, he, Except.map], (closed_counted 0).xpcCopy hh he⟩
  | deserialise body =>
    obtain ⟨⟨h', r⟩, he⟩ := ha
    exact ⟨h', by simp [exec, he, Except.map], (closed_counted 0).deserialiseMessage hh he⟩

/-- Of a dictionary created with entries the count is too large by their number. -/
theorem createsEmpty_of_allCountPairs {op : Op} (ha : allowed h op) (he : exec h op = .ok h')
    (hall : AllCountPairs h') : CreatesEmpty h op := by
  cases op with
  | setter op =>
    cases op with
    | create entries =>
      obtain ⟨h₁, hcreate, -, o, ho, hu, hsize⟩ := xpcDictionaryCreate_ok ha
      obtain rfl : h₁ = h' := by simpa [exec, DictionaryRuns.execHeap, hcreate, Except.map] using he
      have hcount := (countsPairs_iff ho hu).mp (hall h.size ⟨o, _, ho, hu⟩)
      apply List.eq_nil_of_length_eq_zero
      omega
    | _ => trivial
  | _ => trivial

/-- In a run of creations, sets, copies and received messages every count is the
number of the pairs visited in all states reached, if and only if every creation
is without entries. -/
theorem countsPairs_iff_createsEmpty {tr : List (Op × Except Fault (Heap (List ObjId)))}
    (hi : Initial h) (hr : Run machine h tr) :
    (∀ p ∈ tr, GuardedRuns.Holds AllCountPairs p.2) ↔ Meets CreatesEmpty h tr := by
  apply hr.holds_iff_meets (I := Heap.ForallFrom 0 Counted)
  · exact fun _ _ => counted_step
  · exact fun _ => allCountPairs
  · exact fun _ _ _ _ => createsEmpty_of_allCountPairs
  · exact counted_initial hi

/-- A key set twice, and a copy. -/
theorem set_and_copied_countsPairs : ∃ h₁ h₂ h₃ h₄,
    Run machine ⟨[]⟩ [(.setter (.create []), .ok h₁), (.setter (.setInt64 0 keyK 1), .ok h₂),
      (.setter (.setInt64 0 keyK 2), .ok h₃), (.copy 2 0, .ok h₄)] ∧
    ∀ p ∈ [(.setter (.create []), .ok h₁), (.setter (.setInt64 0 keyK 1), .ok h₂),
      (.setter (.setInt64 0 keyK 2), .ok h₃), (Op.copy 2 0, .ok h₄)],
      @GuardedRuns.Holds _ Fault AllCountPairs p.2 := by
  have hr : ∃ h₁ h₂ h₃ h₄,
      Run machine ⟨[]⟩ [(.setter (.create []), .ok h₁), (.setter (.setInt64 0 keyK 1), .ok h₂),
        (.setter (.setInt64 0 keyK 2), .ok h₃), (.copy 2 0, .ok h₄)] := by
    refine ⟨_, _, _, _, .step (by simp [machine, allowed]) rfl (.step ⟨_, _, rfl, rfl⟩ rfl
      (.step ⟨_, _, rfl, rfl⟩ rfl (.step ⟨_, rfl⟩ rfl (.nil _))))⟩
  obtain ⟨h₁, h₂, h₃, h₄, hr⟩ := hr
  have hi : Initial ⟨[]⟩ := fun d hd => by
    obtain ⟨o, ps, ho, -⟩ := hd
    exact absurd (Heap.lt_size_of_get ho) (Nat.not_lt_zero d)
  exact ⟨h₁, h₂, h₃, h₄, hr,
    (countsPairs_iff_createsEmpty hi hr).mpr ⟨rfl, trivial, trivial, trivial, trivial⟩⟩

/-- One boolean. -/
def oneBool : Heap (List ObjId) := ⟨[some ⟨0, 1, 1, .leaf (.bool true), trivial⟩]⟩

/-- One entry, counted twice. -/
theorem created_with_entry_miscounted :
    ∃ h', Run machine oneBool [(.setter (.create [(keyK, 0)]), .ok h')] ∧
      xpcDictionaryApplyFun h' 1 (DictionaryRuns.recordWhile fun _ _ => true) [] =
        .ok ([(keyK, 0)], true) ∧
      xpcDictionaryGetCount h' 1 = .ok 2 ∧ ¬ AllCountPairs h' := by
  refine ⟨_, .step ?_ rfl (.nil _), rfl, rfl, fun hc => ?_⟩
  · intro p hp
    rw [List.mem_singleton.mp hp]
    exact ⟨_, rfl⟩
  · have hbad := (countsPairs_iff rfl rfl).mp (hc 1 ⟨_, _, rfl, rfl⟩)
    exact absurd hbad.2 (by decide)

end OpenXPC.DictionaryCounts
