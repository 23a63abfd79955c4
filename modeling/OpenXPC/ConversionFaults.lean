import OpenXPC.Conversion
import OpenXPC.ReferenceCounts

/-! # Property lists that cannot be converted

An array sends `newXPCObject` to whatever it holds, a dictionary asks first, and neither
asks whether the result is NULL. Of two keys with one C string the second value is
released for the last time while its pair is kept. -/
namespace OpenXPC.NSObject
open InsertionMap ReferenceCounts

/-- The number has no branch in `newXPCObject`. -/
def Unhandled : NSObject → Prop
  | .number (.other _) => True
  | _ => False

mutual

/-- The object made keeps a pair of a value that has been destroyed; `seen` are the keys
of the entries before. -/
def Frayed : NSObject → Prop
  | .array objects => FrayedObjects objects
  | .dictionary entries => FrayedEntries [] entries
  | _ => False

def FrayedObjects : List NSObject → Prop
  | [] => False
  | v :: vs => Frayed v ∨ FrayedObjects vs

def FrayedEntries (seen : List CString) : List (NSString × NSObject) → Prop
  | [] => False
  | (key, value) :: es =>
    if value.respondsToNewXPCObject then
      (key.utf8String ∈ seen ∨ Frayed value) ∨ FrayedEntries (key.utf8String :: seen) es
    else FrayedEntries seen es

end

mutual

/-- No array holds a date, no container a number that is not handled, and no value is
frayed whose key occurs before. -/
def Converts : NSObject → Prop
  | .number (.other _) => False
  | .date => False
  | .array objects => ConvertsObjects objects
  | .dictionary entries => ConvertsEntries [] entries
  | _ => True

def ConvertsObjects : List NSObject → Prop
  | [] => True
  | v :: vs => Converts v ∧ ConvertsObjects vs

def ConvertsEntries (seen : List CString) : List (NSString × NSObject) → Prop
  | [] => True
  | (key, value) :: es =>
    if value.respondsToNewXPCObject then
      (Converts value ∧ (key.utf8String ∈ seen → ¬ Frayed value)) ∧
        ConvertsEntries (key.utf8String :: seen) es
    else ConvertsEntries seen es

end

/-! ## Objects under construction -/

/-- An object has been made, and all below it is live unless `q`. -/
structure Makes (h h' : Heap (List ObjId)) (q : Prop) : Prop where
  spawns : Spawns h h'
  live : LiveBelow h' h.size ↔ ¬ q

/-- A container is filled, and all below its slots is live unless `q`. -/
structure Gathers (h₀ h : Heap (List ObjId)) (u : Payload (List ObjId)) (q : Prop) : Prop where
  spawns : Spawns h₀ h
  payload : ∃ o, h.get h₀.size = some o ∧ o.xoU = u
  live : (∀ z ∈ u.slots, LiveBelow h z) ↔ ¬ q

section Gathering

variable {h₀ h h₁ : Heap (List ObjId)} {u u' : Payload (List ObjId)} {q p : Prop}
  {o o' : XpcObject (List ObjId)} {es : List ObjId} {ps : Pairs} {k : CString}

theorem makes_leafCreate (hm : SlotsMade h) (v : Leaf) : Makes h (leafCreate h v).1 False := by
  have hs := (produces_leafCreate hm v).spawns
  have hget : (leafCreate h v).1.get h.size = some ⟨0, 1, v.size, .leaf v, v.sizeOk⟩ :=
    (Heap.get_alloc h _ _).trans (if_pos rfl)
  refine ⟨hs, iff_of_true ((Heap.allBelow_iff hget).mpr ⟨⟨_, rfl⟩, fun z hz => ?_⟩) id⟩
  cases hz

theorem gathers_array (hm : SlotsMade h) :
    ∃ h', Arrays.xpcArrayCreate h [] = .ok (h', h.size) ∧ Gathers h h' (.array []) False :=
  ⟨_, rfl, Spawns.alloc hm rfl rfl, ⟨_, (Heap.get_alloc h _ _).trans (if_pos rfl), rfl⟩,
    by simp [Payload.slots]⟩

theorem gathers_dictionary (hm : SlotsMade h) :
    ∃ h', xpcDictionaryCreate h [] = .ok (h', h.size) ∧ Gathers h h' (.dictionary []) False :=
  ⟨_, rfl, Spawns.alloc hm rfl rfl, ⟨_, (Heap.get_alloc h _ _).trans (if_pos rfl), rfl⟩,
    by simp [Payload.slots]⟩

theorem Gathers.makes (hg : Gathers h₀ h u q) : Makes h₀ h q := by
  obtain ⟨o, ho, hu⟩ := hg.payload
  refine ⟨hg.spawns, (Heap.allBelow_iff ho).trans ?_⟩
  rw [and_iff_right ⟨o, rfl⟩, XpcObject.slots, hu]
  exact hg.live

/-- The slot of a new value is added. -/
theorem Gathers.add (hm : SlotsMade h₀) (hg : Gathers h₀ h u q) (hp : Makes h h₁ p)
    (ho : h₁.get h₀.size = some o) (hu : o.xoU = u) (hu' : o'.xoU = u')
    (hcount : o'.xoRefcnt = o.xoRefcnt) (hslots : u'.slots = u.slots ++ [h.size]) :
    Gathers h₀ (h₁.set h₀.size o') u' (q ∨ p) := by
  have hlt := hg.spawns.size_lt
  have hbefore : h.get h₀.size = some o := by rw [← hp.spawns.old _ hlt, ho]
  have hslots₀ : o.slots = u.slots := by rw [XpcObject.slots, hu]
  have hslots₁ : o'.slots = u.slots ++ [h.size] := by rw [XpcObject.slots, hu', hslots]
  refine ⟨?_, ⟨o', by rw [Heap.get_set ho, if_pos rfl], hu'⟩, ?_⟩
  · refine (hg.spawns.trans hp.spawns).write ho hlt hp.spawns.size_lt
      (hp.spawns.root_free (hg.spawns.slotsMade hm)) hcount (fun y => ?_)
    rw [hslots₁, hslots₀, List.count_append, count_one]
  · rw [hslots, List.forall_mem_append, List.forall_mem_singleton, not_or, ← hg.live, ← hp.live]
    refine and_congr (forall₂_congr (fun z hz => ?_)) (hp.spawns.allBelow_set hlt ho o')
    refine hg.spawns.allBelow_extend hp.spawns (fun y hy _ => ?_) hbefore (hslots₀ ▸ hz)
    rw [Heap.get_set ho, if_neg (Nat.ne_of_gt hy)]

/-- What the setter and the release find of a new value once the container is written. -/
theorem Makes.root_of_set (hp : Makes h h₁ p) {d : ℕ} (hd : d < h.size) (ho : h₁.get d = some o)
    (o' : XpcObject (List ObjId)) : ∃ w, (h₁.set d o').get h.size = some w ∧ w.xoRefcnt = 1 := by
  obtain ⟨w, hw, hone⟩ := hp.spawns.root
  exact ⟨w, by rw [Heap.get_set ho, if_neg (Nat.ne_of_gt hd), hw], hone⟩

theorem Gathers.append (hm : SlotsMade h₀) (hg : Gathers h₀ h (.array es) q) (hp : Makes h h₁ p) :
    ∃ h₂ h₃, Arrays.xpcArraySetValue h₁ h₀.size xpcArrayAppend h.size = .ok h₂ ∧
      xpcRelease h₂ h.size = .ok h₃ ∧ Gathers h₀ h₃ (.array (es ++ [h.size])) (q ∨ p) := by
  obtain ⟨o, ho, hu⟩ := hg.payload
  have hlt := hg.spawns.size_lt
  have ho₁ : h₁.get h₀.size = some o := by rw [hp.spawns.old _ hlt, ho]
  obtain ⟨w, hw, hone⟩ := hp.root_of_set hlt ho₁ (o.withArr (es ++ [h.size]))
  obtain ⟨h₂, hretain, hrelease⟩ := xpcRetain_release hw hone
  refine ⟨h₂, _, ?_, hrelease, hg.add hm hp ho₁ hu rfl rfl rfl⟩
  rw [Arrays.xpcArraySetValue, if_pos rfl, Arrays.xpcArrayAppendValue, Heap.deref_of_get ho₁, ok_bind,
    XpcObject.arr_of_xoU hu, ok_bind, hretain]

/-- The key is new. -/
theorem Gathers.insert (hm : SlotsMade h₀) (hg : Gathers h₀ h (.dictionary ps) q)
    (hp : Makes h h₁ p) (hk : k ∉ ps.map Prod.fst) :
    ∃ h₂ h₃, xpcDictionarySetValue h₁ h₀.size k h.size = .ok h₂ ∧ xpcRelease h₂ h.size = .ok h₃ ∧
      Gathers h₀ h₃ (.dictionary (ps ++ [(k, h.size)])) (q ∨ p) := by
  obtain ⟨o, ho, hu⟩ := hg.payload
  have hlt := hg.spawns.size_lt
  have ho₁ : h₁.get h₀.size = some o := by rw [hp.spawns.old _ hlt, ho]
  obtain ⟨w, hw, hone⟩ :=
    hp.root_of_set hlt ho₁ (o.withPairs (ps ++ [(k, h.size)]) (o.xoSize + 1))
  obtain ⟨h₂, hretain, hrelease⟩ := xpcRetain_release hw hone
  refine ⟨h₂, _, ?_, hrelease, hg.add hm hp ho₁ hu rfl rfl ?_⟩
  · simp only [xpcDictionarySetValue, Heap.deref_of_get ho₁, XpcObject.dict_of_xoU hu, ok_bind,
      replace?_eq_none_iff.mpr hk, hretain]
  · simp [Payload.slots]

/-- An object made later, which holds only later ones, is not below itself. -/
theorem rooted_of_spawns (hs : Spawns h₀ h) {c : ℕ} (hc : h₀.size < c)
    (hclosed : ∀ y z, c ≤ y → h.Slot y z → c < z) : Rooted h c := by
  have habove : ∀ y, Relation.TransGen h.Slot c y → c < y := by
    intro y hy
    induction hy with
    | single hcy => exact hclosed _ _ (Nat.le_refl _) hcy
    | tail _ hyz ih => exact hclosed _ _ (Nat.le_of_lt ih) hyz
  refine ⟨fun hcc => Nat.lt_irrefl _ (habove c hcc), fun y hy => ?_⟩
  obtain ⟨z, -, hz⟩ := Relation.TransGen.tail'_iff.mp hy
  have hpos := Heap.slotsTo_pos_iff.mpr ⟨z, hz⟩
  have hle := hs.single y (Nat.le_of_lt (Nat.lt_trans hc (habove y hy)))
  omega

/-- The first new object and the old ones stay when a later one is freed. -/
theorem get_of_frees (hs : Spawns h₀ h) {c y : ℕ} (hc : h₀.size < c) (hf : Frees h h₁ c)
    (hy : y ≤ h₀.size) : h₁.get y = h.get y := by
  refine hf.other y (fun hcy => ?_)
  rcases Relation.reflTransGen_iff_eq_or_transGen.mp hcy with rfl | hcy
  · exact Nat.lt_irrefl _ (Nat.lt_of_lt_of_le hc hy)
  · have habove := (hs.below (Nat.le_of_lt hc) hcy).1
    omega

theorem spawns_of_frees (hs : Spawns h₀ h) {c : ℕ} (hc : h₀.size < c) (hf : Frees h h₁ c) :
    Spawns h₀ h₁ := by
  refine ⟨by rw [hf.size]; exact hs.size_lt, fun y hy => ?_, fun x y hx hxy => ?_, fun y hy => ?_, ?_⟩
  · rw [get_of_frees hs hc hf (Nat.le_of_lt hy), hs.old y hy]
  · rw [hf.size]
    exact hs.upward x y hx (hf.slot hxy).1
  · refine Nat.le_trans (Heap.total_mono hf.size (fun x o' ho' => ?_)) (hs.single y hy)
    exact ⟨o', hf.get_of_get ho', Nat.le_refl _⟩
  · rw [get_of_frees hs hc hf (Nat.le_refl _)]
    exact hs.root

theorem liveBelow_recount {c x : ObjId} (hc : h.get c = some o) (hu : o'.xoU = o.xoU) :
    LiveBelow (h.set c o') x ↔ LiveBelow h x := by
  have hcell : ∀ y, (∃ w, (h.set c o').get y = some w) ↔ ∃ w, h.get y = some w := by
    intro y
    rw [Heap.get_set hc]
    split_ifs with hy
    · exact iff_of_true ⟨o', rfl⟩ ⟨o, hy ▸ hc⟩
    · exact Iff.rfl
  simp only [LiveBelow, Heap.AllBelow, (slot_recount hc o' hu).1, hcell]

/-- The key is there already: the value is destroyed in its pair, if all of it is live. -/
theorem Gathers.replace (hm : SlotsMade h₀) (hg : Gathers h₀ h (.dictionary ps) q)
    (hp : Makes h h₁ p) (hk : k ∈ ps.map Prod.fst) :
    ∃ h₂, xpcDictionarySetValue h₁ h₀.size k h.size = .ok h₂ ∧
      (¬ p → ∃ h₃, xpcRelease h₂ h.size = .ok h₃ ∧
        Gathers h₀ h₃ (.dictionary (upsert k h.size ps)) True) ∧
      (p → ∃ e, xpcRelease h₂ h.size = .error e) := by
  obtain ⟨o, ho, hu⟩ := hg.payload
  have hlt := hg.spawns.size_lt
  have ho₁ : h₁.get h₀.size = some o := by rw [hp.spawns.old _ hlt, ho]
  let o' := o.withPairs (upsert k h.size ps) o.xoSize
  obtain ⟨w, hw, hone⟩ := hp.root_of_set hlt ho₁ o'
  have hspawns : Spawns h₀ (h₁.set h₀.size o') := by
    refine (hg.spawns.trans hp.spawns).write ho₁ hlt hp.spawns.size_lt
      (hp.spawns.root_free (hg.spawns.slotsMade hm)) rfl (fun y => ?_)
    have hslots : o.slots = ps.map Prod.snd := by rw [XpcObject.slots, hu, Payload.slots]
    rw [hslots]
    exact count_upsert_le k h.size y ps
  let h₃ := (h₁.set h₀.size o').set h.size w.released
  have hspawns₃ : Spawns h₀ h₃ := hspawns.recount hlt hw rfl
  have hroot₃ : h₃.get h₀.size = some o' := by
    rw [Heap.get_set hw, if_neg (Nat.ne_of_lt hlt), Heap.get_set ho₁, if_pos rfl]
  have hclosed : ∀ y z, h.size ≤ y → h₃.Slot y z → h.size < z := by
    rintro y z hy hyz
    rw [(slot_recount hw w.released rfl).1] at hyz
    obtain ⟨v, hv, hz⟩ := hyz
    rw [Heap.get_set ho₁, if_neg (Nat.ne_of_gt (Nat.lt_of_lt_of_le hlt hy))] at hv
    exact (hp.spawns.upward y z hy ⟨v, hv, hz⟩).1
  have hrooted := rooted_of_spawns hspawns₃ hlt hclosed
  have hrecount : LiveBelow h₃ h.size ↔ LiveBelow (h₁.set h₀.size o') h.size :=
    liveBelow_recount hw rfl
  have hlive : LiveBelow h₃ h.size ↔ ¬ p :=
    hrecount.trans ((hp.spawns.allBelow_set hlt ho₁ o').trans hp.live)
  refine ⟨_, xpcDictionarySetValue_replace ho₁ hu hk, fun hnot => ?_, fun hyes => ?_⟩
  · obtain ⟨h₄, he, hf⟩ := xpcObjectDestroy_frees hrooted (hlive.mpr hnot) (Nat.lt_succ_self _)
    refine ⟨h₄, (xpcRelease_last hw hone).trans he, spawns_of_frees hspawns₃ hlt hf,
      ⟨o', by rw [get_of_frees hspawns₃ hlt hf (Nat.le_refl _), hroot₃], rfl⟩, ?_⟩
    refine iff_of_false (fun hall => ?_) (fun h => h trivial)
    have hmem : h.size ∈ (upsert k h.size ps).map Prod.snd :=
      List.mem_map_of_mem (pair_mem_of_lookup ((lookup_upsert k h.size ps k).trans (if_pos rfl)))
    obtain ⟨v, hv⟩ := hall h.size hmem h.size .refl
    rw [hf.below h.size .refl] at hv
    cases hv
  · have hne : ∀ h₄, xpcRelease (h₁.set h₀.size o') h.size ≠ .ok h₄ := by
      intro h₄ he
      rw [xpcRelease_last hw hone] at he
      exact hlive.mp (xpcObjectDestroy_live hrooted (Nat.lt_succ_self _) he) hyes
    cases he : xpcRelease (h₁.set h₀.size o') h.size with
    | error e => exact ⟨e, rfl⟩
    | ok h₄ => exact absurd he (hne h₄)

end Gathering

/-! ## What a conversion does -/

def KeysSeen (ps : Pairs) (seen : List CString) : Prop := ∀ k, k ∈ ps.map Prod.fst ↔ k ∈ seen

theorem KeysSeen.append {ps : Pairs} {seen : List CString} (hs : KeysSeen ps seen) {k : CString}
    (x : ObjId) : KeysSeen (ps ++ [(k, x)]) (k :: seen) := by
  intro j
  simp [← hs j, or_comm]

theorem KeysSeen.upsert {ps : Pairs} {seen : List CString} (hs : KeysSeen ps seen) {k : CString}
    (hk : k ∈ seen) (x : ObjId) : KeysSeen (upsert k x ps) (k :: seen) := by
  intro j
  rw [upsert_keys, if_pos ((hs k).mpr hk), hs j, List.mem_cons]
  exact ⟨.inr, fun hj => hj.elim (fun hjk => hjk ▸ hk) id⟩

/-- The call makes an object, or ends early, or returns NULL for a number. -/
structure Outcome (h : Heap (List ObjId)) (v : NSObject) : Prop where
  makes : v.Converts → ∃ h', v.newXPCObject h = .ok (h', some h.size) ∧ Makes h h' v.Frayed
  fails : ¬ v.Converts → (∃ e, v.newXPCObject h = .error e) ∨
    (v.Unhandled ∧ v.newXPCObject h = .ok (h, none))

theorem outcome_leaf {h : Heap (List ObjId)} {v : NSObject} {w : Leaf} (hm : SlotsMade h)
    (he : v.newXPCObject h = .ok ((leafCreate h w).1, some h.size)) (hc : v.Converts)
    (hf : ¬ v.Frayed) : Outcome h v :=
  ⟨fun _ => ⟨_, he, (eq_false hf) ▸ makes_leafCreate hm w⟩, fun hn => absurd hc hn⟩

mutual

theorem newXPCObject_outcome {h : Heap (List ObjId)} (hm : SlotsMade h) : ∀ v : NSObject, Outcome h v
  | .string s => outcome_leaf (w := .string s.utf8String) hm rfl trivial id
  | .data bytes => outcome_leaf (w := .data bytes) hm rfl trivial id
  | .fileHandle file => outcome_leaf (w := .fd file) hm rfl trivial id
  | .number (.bool b) => outcome_leaf (w := .bool b) hm rfl trivial id
  | .number (.unsignedLong u) => outcome_leaf (w := .uint64 u) hm rfl trivial id
  | .number (.long i) => outcome_leaf (w := .int64 i) hm rfl trivial id
  | .number (.double d) => outcome_leaf (w := .double d) hm rfl trivial id
  | .number (.other t) => ⟨fun hc => hc.elim, fun _ => .inr ⟨trivial, rfl⟩⟩
  | .date => ⟨fun hc => hc.elim, fun _ => .inl ⟨_, rfl⟩⟩
  | .array objects => by
    obtain ⟨h₁, hcreate, hg⟩ := gathers_array hm
    have hrun : (NSObject.array objects).newXPCObject h =
        (addObjects h₁ h.size objects >>= fun h' => .ok (h', some h.size)) := by
      rw [newXPCObject, hcreate]
      rfl
    obtain ⟨hmakes, hfails⟩ := addObjects_outcome hm objects hg
    constructor
    · intro hc
      obtain ⟨h', es, he, hg'⟩ := hmakes hc
      refine ⟨h', by rw [hrun, he]; rfl, ?_⟩
      rw [false_or] at hg'
      exact hg'.makes
    · intro hc
      obtain ⟨e, he⟩ := hfails hc
      exact .inl ⟨e, by rw [hrun, he]; rfl⟩
  | .dictionary entries => by
    obtain ⟨h₁, hcreate, hg⟩ := gathers_dictionary hm
    have hrun : (NSObject.dictionary entries).newXPCObject h =
        (addEntries h₁ h.size entries >>= fun h' => .ok (h', some h.size)) := by
      rw [newXPCObject, hcreate]
      rfl
    obtain ⟨hmakes, hfails⟩ := addEntries_outcome hm entries hg (fun k => Iff.rfl)
    constructor
    · intro hc
      obtain ⟨h', ps, he, hg'⟩ := hmakes hc
      refine ⟨h', by rw [hrun, he]; rfl, ?_⟩
      rw [false_or] at hg'
      exact hg'.makes
    · intro hc
      obtain ⟨e, he⟩ := hfails hc
      exact .inl ⟨e, by rw [hrun, he]; rfl⟩

theorem addObjects_outcome {h₀ : Heap (List ObjId)} (hm : SlotsMade h₀) :
    ∀ (vs : List NSObject) {h : Heap (List ObjId)} {es : List ObjId} {q : Prop},
      Gathers h₀ h (.array es) q →
      (ConvertsObjects vs → ∃ h' es', addObjects h h₀.size vs = .ok h' ∧
        Gathers h₀ h' (.array es') (q ∨ FrayedObjects vs)) ∧
      (¬ ConvertsObjects vs → ∃ e, addObjects h h₀.size vs = .error e)
  | [], h, es, q, hg => ⟨fun _ => ⟨h, es, rfl, by rwa [FrayedObjects, or_false]⟩,
      fun hn => absurd trivial hn⟩
  | v :: vs, h, es, q, hg => by
    have hv := newXPCObject_outcome (hg.spawns.slotsMade hm) v
    by_cases hc : v.Converts
    · obtain ⟨h₁, he, hp⟩ := hv.makes hc
      obtain ⟨h₂, h₃, hset, hrelease, hg₃⟩ := hg.append hm hp
      have hvs := addObjects_outcome hm vs hg₃
      rw [addObjects_cons he hset hrelease, ConvertsObjects, FrayedObjects, and_iff_right hc,
        ← or_assoc]
      exact hvs
    · refine ⟨fun hcs => absurd hcs.1 hc, fun _ => ?_⟩
      rw [addObjects]
      rcases hv.fails hc with ⟨e, he⟩ | ⟨-, he⟩
      · exact ⟨e, by rw [he]; rfl⟩
      · exact ⟨_, by rw [he]; rfl⟩

theorem addEntries_outcome {h₀ : Heap (List ObjId)} (hm : SlotsMade h₀) :
    ∀ (es : List (NSString × NSObject)) {h : Heap (List ObjId)} {ps : Pairs} {q : Prop}
      {seen : List CString}, Gathers h₀ h (.dictionary ps) q → KeysSeen ps seen →
      (ConvertsEntries seen es → ∃ h' ps', addEntries h h₀.size es = .ok h' ∧
        Gathers h₀ h' (.dictionary ps') (q ∨ FrayedEntries seen es)) ∧
      (¬ ConvertsEntries seen es → ∃ e, addEntries h h₀.size es = .error e)
  | [], h, ps, q, seen, hg, _ => ⟨fun _ => ⟨h, ps, rfl, by rwa [FrayedEntries, or_false]⟩,
      fun hn => absurd trivial hn⟩
  | (key, v) :: es, h, ps, q, seen, hg, hseen => by
    have hv := newXPCObject_outcome (hg.spawns.slotsMade hm) v
    by_cases hr : v.respondsToNewXPCObject = true
    · rw [ConvertsEntries, if_pos hr, FrayedEntries, if_pos hr]
      by_cases hc : v.Converts
      · obtain ⟨h₁, he, hp⟩ := hv.makes hc
        by_cases hk : key.utf8String ∈ seen
        · obtain ⟨h₂, hset, hlive, hfrayed⟩ := hg.replace hm hp ((hseen _).mpr hk)
          rw [addEntries_cons hr he hset]
          by_cases hf : v.Frayed
          · obtain ⟨e, hrelease⟩ := hfrayed hf
            refine ⟨fun hcs => absurd hf (hcs.1.2 hk), fun _ => ⟨.fault e, by rw [hrelease]; rfl⟩⟩
          · obtain ⟨h₃, hrelease, hg₃⟩ := hlive hf
            have hes := addEntries_outcome hm es hg₃ (hseen.upsert hk h.size)
            have hhead : v.Converts ∧ (key.utf8String ∈ seen → ¬ v.Frayed) := ⟨hc, fun _ => hf⟩
            have hfray : (q ∨ (key.utf8String ∈ seen ∨ v.Frayed) ∨
                FrayedEntries (key.utf8String :: seen) es) = True := eq_true (.inr (.inl (.inl hk)))
            rw [true_or] at hes
            rw [hrelease, eq_true hhead, true_and, hfray]
            exact hes
        · obtain ⟨h₂, h₃, hset, hrelease, hg₃⟩ := hg.insert hm hp (fun h => hk ((hseen _).mp h))
          have hes := addEntries_outcome hm es hg₃ (hseen.append h.size)
          have hhead : v.Converts ∧ (key.utf8String ∈ seen → ¬ v.Frayed) :=
            ⟨hc, fun h => absurd h hk⟩
          rw [or_assoc] at hes
          rw [addEntries_cons hr he hset, hrelease, eq_true hhead, true_and, eq_false hk, false_or]
          exact hes
      · refine ⟨fun hcs => absurd hcs.1.1 hc, fun _ => ?_⟩
        rw [addEntries, if_pos hr]
        rcases hv.fails hc with ⟨e, he⟩ | ⟨-, he⟩
        · exact ⟨e, by rw [he]; rfl⟩
        · exact ⟨_, by rw [he]; rfl⟩
    · rw [addEntries, if_neg hr, ConvertsEntries, if_neg hr, FrayedEntries, if_neg hr]
      exact addEntries_outcome hm es hg hseen

end

/-- A conversion returns exactly when everything that is asked for one has one, and
nothing is destroyed twice; at the root NULL does no harm. -/
theorem newXPCObject_returns_iff {h : Heap (List ObjId)} (hm : SlotsMade h) (v : NSObject) :
    (∃ r, v.newXPCObject h = .ok r) ↔ v.Converts ∨ v.Unhandled := by
  have hv := newXPCObject_outcome hm v
  constructor
  · rintro ⟨r, hr⟩
    by_contra hnot
    rw [not_or] at hnot
    rcases hv.fails hnot.1 with ⟨e, he⟩ | ⟨hnull, -⟩
    · rw [he] at hr
      cases hr
    · exact hnot.2 hnull
  · rintro (hc | hu)
    · obtain ⟨h', he, -⟩ := hv.makes hc
      exact ⟨_, he⟩
    · by_cases hc : v.Converts
      · obtain ⟨h', he, -⟩ := hv.makes hc
        exact ⟨_, he⟩
      · cases v with
        | number n =>
          cases n with
          | other t => exact ⟨_, rfl⟩
          | _ => exact hu.elim
        | _ => exact hu.elim

/-- A date in a dictionary is left out. -/
theorem date_in_dictionary_returns : ∃ r, (dictionary [(.literal "k", .date),
    (.literal "j", .array [.number (.long 0)])]).newXPCObject ⟨[]⟩ = .ok r := by
  refine (newXPCObject_returns_iff slotsMade_empty _).mpr (.inl ?_)
  simp [Converts, ConvertsEntries, ConvertsObjects, respondsToNewXPCObject]

/-- A date in an array has no conversion, and a number encoded as an `int` has NULL. -/
theorem date_and_int_fault :
    (dictionary [(.literal "k", .array [.date])]).newXPCObject ⟨[]⟩ =
      .error .unrecognizedSelector ∧
    (dictionary [(.literal "k", .number (.other ⟨[105], by decide⟩))]).newXPCObject ⟨[]⟩ =
      .error (.fault .nullValue) ∧
    (dictionary [(.literal "k", .array [.number (.other ⟨[105], by decide⟩)])]).newXPCObject ⟨[]⟩ =
      .error (.fault .nullValue) :=
  ⟨rfl, rfl, rfl⟩

end OpenXPC.NSObject
