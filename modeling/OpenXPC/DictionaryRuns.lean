import OpenXPC.Containers
import OpenXPC.GuardedRuns

/-! # Dictionaries as insertion-ordered maps

Any number of dictionaries, created and set in any order over one heap. What each
of them holds is determined by the history of the sets made on it. -/
namespace OpenXPC.DictionaryRuns
open InsertionMap GuardedRuns

variable {A σ : Type}

/-- What a set stores: an object of the client, or the value of a typed setter. -/
inductive Stored
  | object (value : ObjId)
  | leaf (v : Leaf)

abbrev History := List (CString × Stored)

inductive Op
  | create (entries : Pairs)
  | setValue (xdict : ObjId) (key : CString) (value : ObjId)
  | setBool (xdict : ObjId) (key : CString) (value : Bool)
  | setInt64 (xdict : ObjId) (key : CString) (value : Int64)
  | setUint64 (xdict : ObjId) (key : CString) (value : UInt64)
  | setString (xdict : ObjId) (key value : CString)

/-- The heap, and the sets made so far on each created dictionary. -/
structure State (A : Type) where
  heap : Heap A
  sets : ObjId → Option History

/-- The dictionary and key a set writes, and what it stores there. -/
def Op.write : Op → Option (ObjId × CString × Stored)
  | .create _ => none
  | .setValue d k v => some (d, k, .object v)
  | .setBool d k b => some (d, k, .leaf (.bool b))
  | .setInt64 d k i => some (d, k, .leaf (.int64 i))
  | .setUint64 d k u => some (d, k, .leaf (.uint64 u))
  | .setString d k t => some (d, k, .leaf (.string t))

def createdHistory (entries : Pairs) : History := entries.map (fun p => (p.1, .object p.2))

def setsAfter (s : State A) : Op → ObjId → Option History
  | .create entries => Function.update s.sets s.heap.size (some (createdHistory entries))
  | op => match op.write with
    | some (d, k, w) => Function.update s.sets d ((s.sets d).map (· ++ [(k, w)]))
    | none => s.sets

def execHeap (h : Heap A) : Op → Except Fault (Heap A)
  | .create entries => (xpcDictionaryCreate h entries).map Prod.fst
  | .setValue d k v => xpcDictionarySetValue h d k v
  | .setBool d k b => xpcDictionarySetBool h d k b
  | .setInt64 d k i => xpcDictionarySetInt64 h d k i
  | .setUint64 d k u => xpcDictionarySetUint64 h d k u
  | .setString d k t => xpcDictionarySetString h d k t

def exec (s : State A) (op : Op) : Except Fault (State A) := do
  let heap ← execHeap s.heap op
  .ok { heap, sets := setsAfter s op }

def Live (h : Heap A) (x : ObjId) : Prop := ∃ o, h.get x = some o

/-- The values passed are live, and the dictionary set is a created one. -/
def allowed (s : State A) : Op → Prop
  | .create entries => ∀ p ∈ entries, Live s.heap p.2
  | .setValue d _ v => (s.sets d).isSome ∧ Live s.heap v
  | .setBool d _ _ => (s.sets d).isSome
  | .setInt64 d _ _ => (s.sets d).isSome
  | .setUint64 d _ _ => (s.sets d).isSome
  | .setString d _ _ => (s.sets d).isSome

def machine (A : Type) : Machine (State A) Op Fault := ⟨allowed, exec⟩

/-- Before the first creation, with any objects in the heap. -/
def Initial (s : State A) : Prop := ∀ d, s.sets d = none

/-! ## What the history promises -/

/-- The object is the one stored, or carries the value stored. -/
def Represents (h : Heap A) (x : ObjId) : Stored → Prop
  | .object v => x = v
  | .leaf v => ∃ o, h.get x = some o ∧ o.xoU = .leaf v

/-- The applier that notes each pair and goes on as long as a test holds. -/
def recordWhile (go : CString → ObjId → Bool) (k : CString) (v : ObjId) (seen : Pairs) :
    Except Fault (Pairs × Bool) := .ok (seen ++ [(k, v)], go k v)

/-- The entries up to and including the first that fails the test. -/
def untilStop (go : CString → ObjId → Bool) (ps : Pairs) : Pairs :=
  ps.takeWhile (fun p => go p.1 p.2) ++ (ps.dropWhile (fun p => go p.1 p.2)).take 1

/-- The dictionary is the insertion-ordered map of the history. -/
structure RefinesMap (h : Heap A) (d : ObjId) (hist : History) : Prop where
  getValue : ∀ k, ∃ r, xpcDictionaryGetValue h d k = .ok r ∧
    Option.Rel (Represents h) r (lastSet hist k)
  getBool : ∀ k b, lastSet hist k = some (.leaf (.bool b)) → xpcDictionaryGetBool h d k = .ok b
  getInt64 : ∀ k i, lastSet hist k = some (.leaf (.int64 i)) → xpcDictionaryGetInt64 h d k = .ok i
  getUint64 : ∀ k u, lastSet hist k = some (.leaf (.uint64 u)) →
    xpcDictionaryGetUint64 h d k = .ok u
  getString : ∀ k t, lastSet hist k = some (.leaf (.string t)) →
    xpcDictionaryGetString h d k = .ok (some t)
  apply : ∃ ps : Pairs, ps.map Prod.fst = firstKeys hist ∧ (ps.map Prod.fst).Nodup ∧
    (∀ p ∈ ps, ∃ w, lastSet hist p.1 = some w ∧ Represents h p.2 w) ∧
    ∀ go, xpcDictionaryApplyFun h d (recordWhile go) [] =
      .ok (untilStop go ps, ps.all (fun p => go p.1 p.2))

def AllRefineMap (s : State A) : Prop := ∀ d hist, s.sets d = some hist → RefinesMap s.heap d hist

/-- A step changes no value under another key or in another dictionary. -/
def LeavesOthers (s : State A) (op : Op) : Prop :=
  ∀ s', exec s op = .ok s' → ∀ d k, (s.sets d).isSome →
    (∀ w, op.write ≠ some (d, k, w)) →
    xpcDictionaryGetValue s'.heap d k = xpcDictionaryGetValue s.heap d k

/-! ## One dictionary -/

/-- The pairs of the dictionary are what the sets of the history build. -/
def Reflects (h : Heap A) (d : ObjId) (hist : History) : Prop :=
  ∃ o ps, h.get d = some o ∧ o.xoU = .dictionary ps ∧ Related (Represents h) ps (build hist)

theorem Represents.keepsBut {h h' : Heap A} {d x : ObjId} {w : Stored} (hr : Represents h x w)
    (hk : h.KeepsBut d h') (hd : IsDictionary h d) : Represents h' x w := by
  cases w with
  | object v => exact hr
  | leaf v =>
    obtain ⟨o, ho, hu⟩ := hr
    have hxd : x ≠ d := by
      intro hxd
      obtain ⟨o', ps, ho', hu'⟩ := hd
      obtain rfl : o = o' := Option.some.inj (ho.symm.trans (hxd ▸ ho'))
      simp [hu] at hu'
    obtain ⟨o', ho', hu', -⟩ := hk.get_of_get hxd ho
    exact ⟨o', ho', hu'.trans hu⟩

theorem Represents.keeps {h h' : Heap A} {x : ObjId} {w : Stored} (hr : Represents h x w)
    (hk : h.Keeps h') : Represents h' x w := by
  cases w with
  | object v => exact hr
  | leaf v =>
    obtain ⟨o, ho, hu⟩ := hr
    obtain ⟨o', ho', hu', -⟩ := hk.get_of_get ho
    exact ⟨o', ho', hu'.trans hu⟩

namespace Reflects

variable {h h' : Heap A} {d : ObjId} {hist : History}

theorem isDictionary (hh : Reflects h d hist) : IsDictionary h d := by
  obtain ⟨o, ps, ho, hu, -⟩ := hh
  exact ⟨o, ps, ho, hu⟩

theorem keepsBut (hh : Reflects h d hist) {e : ObjId} (hk : h.KeepsBut e h') (he : IsDictionary h e)
    (hde : d ≠ e) : Reflects h' d hist := by
  obtain ⟨o, ps, ho, hu, hrel⟩ := hh
  obtain ⟨o', ho', hu', -⟩ := hk.get_of_get hde ho
  exact ⟨o', ps, ho', hu'.trans hu, hrel.mono (fun p _ w hw => hw.keepsBut hk he)⟩

theorem keeps (hh : Reflects h d hist) (hk : h.Keeps h') : Reflects h' d hist := by
  obtain ⟨o, ps, ho, hu, hrel⟩ := hh
  obtain ⟨o', ho', hu', -⟩ := hk.get_of_get ho
  exact ⟨o', ps, ho', hu'.trans hu, hrel.mono (fun p _ w hw => hw.keeps hk)⟩

/-- The step: a set extends the history and touches no other key. -/
theorem setValue (hh : Reflects h d hist) {v : ObjId} {w : Stored} (hv : Live h v)
    (hw : Represents h v w) (k : CString) :
    ∃ h', xpcDictionarySetValue h d k v = .ok h' ∧ h.KeepsBut d h' ∧
      Reflects h' d (hist ++ [(k, w)]) ∧
      ∀ j, j ≠ k → xpcDictionaryGetValue h' d j = xpcDictionaryGetValue h d j := by
  obtain ⟨o, ps, ho, hu, hrel⟩ := hh
  obtain ⟨p, hp⟩ := hv
  obtain ⟨h', he, hk, o', ho', hu', -⟩ := xpcDictionarySetValue_ok ho hu hp k
  refine ⟨h', he, hk, ⟨o', _, ho', hu', ?_⟩, fun j hj => ?_⟩
  · rw [build_snoc]
    exact (hrel.upsert k hw).mono (fun _ _ w hw => hw.keepsBut hk ⟨o, ps, ho, hu⟩)
  · rw [xpcDictionaryGetValue_of_get ho' hu', xpcDictionaryGetValue_of_get ho hu, lookup_upsert,
      if_neg hj]

theorem setLeaf (hh : Reflects h d hist) (k : CString) (v : Leaf) :
    ∃ h', dictionarySetLeaf h d k v = .ok h' ∧ h.KeepsBut d h' ∧
      Reflects h' d (hist ++ [(k, .leaf v)]) ∧
      ∀ j, j ≠ k → xpcDictionaryGetValue h' d j = xpcDictionaryGetValue h d j := by
  have hkeep : h.Keeps (leafCreate h v).1 := h.keeps_alloc _
  have hnew : (leafCreate h v).1.get h.size = some ⟨0, 1, v.size, .leaf v, v.sizeOk⟩ := by
    simp [leafCreate, xpcPrimCreate, xpcPrimCreateFlags, Heap.get_alloc]
  have hh₁ := hh.keeps hkeep
  obtain ⟨o, ps, ho, hu, -⟩ := hh
  obtain ⟨o₁, ho₁, hu₁, -⟩ := hkeep.get_of_get ho
  obtain ⟨h', he, hk, hh', hother⟩ := hh₁.setValue (w := .leaf v) ⟨_, hnew⟩
    ⟨_, hnew, rfl⟩ k
  refine ⟨h', he, (hkeep.keepsBut d).trans hk, hh', fun j hj => ?_⟩
  rw [hother j hj, xpcDictionaryGetValue_of_get ho₁ (hu₁.trans hu),
    xpcDictionaryGetValue_of_get ho hu]

end Reflects

theorem reflects_create {h : Heap A} {entries : Pairs} (hv : ∀ p ∈ entries, Live h p.2) :
    ∃ h', xpcDictionaryCreate h entries = .ok (h', h.size) ∧ h.Keeps h' ∧
      Reflects h' h.size (createdHistory entries) := by
  obtain ⟨h', he, hk, o, ho, hu, -⟩ := xpcDictionaryCreate_ok hv
  refine ⟨h', he, hk, o, build entries, ho, hu, ?_⟩
  rw [createdHistory, build_map, Related, List.forall₂_map_right_iff, List.forall₂_same]
  exact fun p _ => ⟨rfl, rfl⟩

/-! ## Runs -/

def Invariant (s : State A) : Prop := ∀ d hist, s.sets d = some hist → Reflects s.heap d hist

theorem invariant_initial {s : State A} (hs : Initial s) : Invariant s :=
  fun d hist h => by simp [hs d] at h

/-- A set on a tracked dictionary, on the heap and on the histories. -/
theorem Invariant.write {s : State A} (hs : Invariant s) {d : ObjId} {hist : History} {h' : Heap A}
    {kw : CString × Stored} (hd : s.sets d = some hist) (hk : s.heap.KeepsBut d h')
    (hh : Reflects h' d (hist ++ [kw])) :
    Invariant ⟨h', Function.update s.sets d ((s.sets d).map (· ++ [kw]))⟩ := by
  intro e ks he
  by_cases hed : e = d
  · subst hed
    obtain rfl : hist ++ [kw] = ks := by simpa [hd] using he
    exact hh
  · have hek : s.sets e = some ks := by simpa [hed] using he
    exact (hs e ks hek).keepsBut hk (hs d hist hd).isDictionary hed

/-- What a step does: it succeeds, keeps the invariant, and leaves the other keys alone. -/
def StepOk (s : State A) (op : Op) : Prop :=
  ∃ h', execHeap s.heap op = .ok h' ∧ Invariant ⟨h', setsAfter s op⟩ ∧
    ∀ d k, (s.sets d).isSome → (∀ w, op.write ≠ some (d, k, w)) →
      xpcDictionaryGetValue h' d k = xpcDictionaryGetValue s.heap d k

theorem xpcDictionaryGetValue_keepsBut {h h' : Heap A} {d e : ObjId} (hd : IsDictionary h d)
    (hk : h.KeepsBut e h') (hde : d ≠ e) (k : CString) :
    xpcDictionaryGetValue h' d k = xpcDictionaryGetValue h d k := by
  obtain ⟨o, ps, ho, hu⟩ := hd
  obtain ⟨o', ho', hu', -⟩ := hk.get_of_get hde ho
  rw [xpcDictionaryGetValue_of_get ho' (hu'.trans hu), xpcDictionaryGetValue_of_get ho hu]

theorem stepOk_write {s : State A} (hs : Invariant s) {op : Op} {d : ObjId} {k : CString}
    {w : Stored} {hist : History} (hd : s.sets d = some hist) (hop : op.write = some (d, k, w))
    (hset : ∃ h', execHeap s.heap op = .ok h' ∧ s.heap.KeepsBut d h' ∧
      Reflects h' d (hist ++ [(k, w)]) ∧
      ∀ j, j ≠ k → xpcDictionaryGetValue h' d j = xpcDictionaryGetValue s.heap d j) :
    StepOk s op := by
  obtain ⟨h', he, hk, hh, hother⟩ := hset
  have hsets : setsAfter s op = Function.update s.sets d ((s.sets d).map (· ++ [(k, w)])) := by
    cases op with
    | create entries => cases hop
    | _ => simp only [setsAfter, hop]
  refine ⟨h', he, hsets ▸ hs.write hd hk hh, fun e j htracked hne => ?_⟩
  obtain ⟨ks, hks⟩ := Option.isSome_iff_exists.mp htracked
  by_cases hed : e = d
  · subst hed
    exact hother j (fun hjk => hne w (hjk ▸ hop))
  · exact xpcDictionaryGetValue_keepsBut (hs e ks hks).isDictionary hk hed j

theorem stepOk_create {s : State A} (hs : Invariant s) {entries : Pairs}
    (hv : ∀ p ∈ entries, Live s.heap p.2) : StepOk s (.create entries) := by
  obtain ⟨h', he, hk, hh⟩ := reflects_create hv
  refine ⟨h', by simp [execHeap, he, Except.map], fun e ks hek => ?_, fun e j htracked _ => ?_⟩
  · by_cases hnew : e = s.heap.size
    · subst hnew
      obtain rfl : createdHistory entries = ks := by simpa [setsAfter] using hek
      exact hh
    · exact (hs e ks (by simpa [setsAfter, hnew] using hek)).keeps hk
  · obtain ⟨ks, hks⟩ := Option.isSome_iff_exists.mp htracked
    have hdict := (hs e ks hks).isDictionary
    have hold : e ≠ s.heap.size := by
      obtain ⟨o, ps, ho, -⟩ := hdict
      exact Nat.ne_of_lt (Heap.lt_size_of_get ho)
    exact xpcDictionaryGetValue_keepsBut hdict (hk.keepsBut _) hold j

theorem stepOk {s : State A} {op : Op} (hs : Invariant s) (ha : allowed s op) : StepOk s op := by
  cases op with
  | create entries => exact stepOk_create hs ha
  | setValue d k v =>
    obtain ⟨hist, hd⟩ := Option.isSome_iff_exists.mp ha.1
    have hself : Represents s.heap v (.object v) := rfl
    exact stepOk_write hs hd rfl ((hs d hist hd).setValue ha.2 hself k)
  | setBool d k b =>
    obtain ⟨hist, hd⟩ := Option.isSome_iff_exists.mp ha
    exact stepOk_write hs hd rfl ((hs d hist hd).setLeaf k (.bool b))
  | setInt64 d k i =>
    obtain ⟨hist, hd⟩ := Option.isSome_iff_exists.mp ha
    exact stepOk_write hs hd rfl ((hs d hist hd).setLeaf k (.int64 i))
  | setUint64 d k u =>
    obtain ⟨hist, hd⟩ := Option.isSome_iff_exists.mp ha
    exact stepOk_write hs hd rfl ((hs d hist hd).setLeaf k (.uint64 u))
  | setString d k t =>
    obtain ⟨hist, hd⟩ := Option.isSome_iff_exists.mp ha
    exact stepOk_write hs hd rfl ((hs d hist hd).setLeaf k (.string t))

theorem invariant_step {s : State A} {op : Op} (hs : Invariant s) (ha : allowed s op) :
    ∃ s', exec s op = .ok s' ∧ Invariant s' := by
  obtain ⟨h', he, hi, -⟩ := stepOk hs ha
  exact ⟨⟨h', setsAfter s op⟩, by simp [exec, he], hi⟩

theorem leavesOthers_step {s : State A} {op : Op} (hs : Invariant s) (ha : allowed s op) :
    LeavesOthers s op := by
  intro s' hexec
  obtain ⟨h', he, -, hother⟩ := stepOk hs ha
  simp only [exec, he, ok_bind, Except.ok.injEq] at hexec
  subst hexec
  exact hother

/-! ## What the readers see -/

theorem applyPairs_recordWhile (go : CString → ObjId → Bool) (ps seen : Pairs) :
    applyPairs (recordWhile go) ps seen =
      .ok (seen ++ untilStop go ps, ps.all (fun p => go p.1 p.2)) := by
  induction ps generalizing seen with
  | nil => simp [applyPairs, untilStop]
  | cons p ps ih =>
    by_cases hp : go p.1 p.2
    · simp [applyPairs, recordWhile, hp, ih, untilStop]
    · simp [applyPairs, recordWhile, hp, untilStop]

theorem untilStop_true (ps : Pairs) : untilStop (fun _ _ => true) ps = ps := by
  induction ps with
  | nil => rfl
  | cons p ps ih => simpa [untilStop] using ih

section Readers

variable {h : Heap A} {d : ObjId} {hist : History} {k : CString}

theorem Reflects.getValue (hh : Reflects h d hist) (k : CString) :
    ∃ r, xpcDictionaryGetValue h d k = .ok r ∧ Option.Rel (Represents h) r (lastSet hist k) := by
  obtain ⟨o, ps, ho, hu, hrel⟩ := hh
  refine ⟨ps.lookup k, xpcDictionaryGetValue_of_get ho hu k, ?_⟩
  rw [← lookup_build]
  exact hrel.lookup k

/-- A typed getter sees the value of the last typed set. -/
theorem Reflects.getLeaf (hh : Reflects h d hist) {v : Leaf}
    (hv : lastSet hist k = some (.leaf v)) {β : Type} (read : Leaf → Option β) (dflt : β) :
    (xpcDictionaryGetValue h d k >>= fun xo => getLeaf h xo read dflt) =
      .ok ((read v).getD dflt) := by
  obtain ⟨r, hr, hrel⟩ := hh.getValue k
  rw [hv] at hrel
  cases hrel with
  | @some x _ hx =>
    obtain ⟨o, ho, hu⟩ := hx
    rw [hr, ok_bind, getLeaf_of_get ho hu]

theorem Reflects.refinesMap (hh : Reflects h d hist) : RefinesMap h d hist where
  getValue := hh.getValue
  getBool := fun k b hb => hh.getLeaf hb _ _
  getInt64 := fun k i hi => hh.getLeaf hi _ _
  getUint64 := fun k u hu => hh.getLeaf hu _ _
  getString := fun k t ht => hh.getLeaf ht _ _
  apply := by
    have hcopy := hh
    obtain ⟨o, ps, ho, hu, hrel⟩ := hcopy
    have hnodup : (ps.map Prod.fst).Nodup := hrel.keys ▸ nodup_build hist
    refine ⟨ps, hrel.keys.trans (keys_build hist), hnodup, fun p hp => ?_, fun go => ?_⟩
    · obtain ⟨r, hr, hrep⟩ := hh.getValue p.1
      rw [xpcDictionaryGetValue_of_get ho hu, lookup_of_mem hnodup hp] at hr
      obtain rfl : some p.2 = r := Except.ok.inj hr
      rcases hlast : lastSet hist p.1 with _ | w
      · rw [hlast] at hrep
        cases hrep
      · rw [hlast] at hrep
        cases hrep with
        | some hw => exact ⟨w, rfl, hw⟩
    · rw [xpcDictionaryApplyFun_of_get ho hu, applyPairs_recordWhile, List.nil_append]

end Readers

/-- In a run of creations and sets every dictionary is, in every state reached,
the insertion-ordered map of its history, and no step changes the value of a key
it does not set. -/
theorem dictionaries_refineMap {s : State A} {tr : List (Op × Except Fault (State A))}
    (hs : Initial s) (hr : Run (machine A) s tr) :
    (∀ p ∈ tr, GuardedRuns.Holds AllRefineMap p.2) ∧ Meets LeavesOthers s tr := by
  constructor
  · apply hr.holds (I := Invariant) (C := fun _ _ => True)
      (fun s op hs ha _ => invariant_step hs ha)
    · exact fun s hs d hist hd => (hs d hist hd).refinesMap
    · exact invariant_initial hs
    · exact meets_true s tr
  · apply hr.meets (I := Invariant)
    · intro s op s' hs ha he
      obtain ⟨s'', he', hs''⟩ := invariant_step hs ha
      obtain rfl : s' = s'' := Except.ok.inj (he.symm.trans he')
      exact hs''
    · exact fun s op hs ha => leavesOthers_step hs ha
    · exact invariant_initial hs

/-- No object yet. -/
def emptyState : State Unit := ⟨⟨[]⟩, fun _ => none⟩

theorem overwritten_key_refinesMap : ∃ s₁ s₂ s₃, s₃.sets 0 =
      some [(keyK, .leaf (.int64 1)), (keyK, .leaf (.int64 2))] ∧ RefinesMap s₃.heap 0
      [(keyK, .leaf (.int64 1)), (keyK, .leaf (.int64 2))] ∧
    Run (machine Unit) emptyState
      [(.create [], .ok s₁), (.setInt64 0 keyK 1, .ok s₂), (.setInt64 0 keyK 2, .ok s₃)] := by
  have hr : ∃ s₁ s₂ s₃, s₃.sets 0 = some [(keyK, .leaf (.int64 1)), (keyK, .leaf (.int64 2))] ∧
      Run (machine Unit) emptyState
        [(.create [], .ok s₁), (.setInt64 0 keyK 1, .ok s₂), (.setInt64 0 keyK 2, .ok s₃)] :=
    ⟨_, _, _, rfl, .step (by simp [machine, allowed]) rfl (.step rfl rfl (.step rfl rfl (.nil _)))⟩
  obtain ⟨s₁, s₂, s₃, hsets, hr⟩ := hr
  have hall := (dictionaries_refineMap (fun _ => rfl) hr).1
  have hlast := hall (.setInt64 0 keyK 2, .ok s₃) (by simp)
  exact ⟨s₁, s₂, s₃, hsets, holds_ok.mp hlast 0 _ hsets, hr⟩

end OpenXPC.DictionaryRuns
