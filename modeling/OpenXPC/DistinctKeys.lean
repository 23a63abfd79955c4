import OpenXPC.DictionaryCounts
import OpenXPC.Ownership

/-! # Distinct keys

No call leaves two pairs of a dictionary under one key: not a setter, not a creation
with entries that repeat a key, not a copy, a received message or a destruction half
done. So the tree of every object that a client can get is well keyed. -/
namespace OpenXPC.DistinctKeys
open InsertionMap GuardedRuns DictionaryCounts
open Ownership (KeysDistinct)

variable {h h' : Heap (List ObjId)} {x d a v : ObjId} {o : XpcObject (List ObjId)}

theorem keysDistinct_of_not_dictionary (ho : ∀ ps, o.xoU ≠ .dictionary ps) : KeysDistinct o :=
  fun ps hps => absurd hps (ho ps)

theorem keysDistinct_of_dictionary {ps : Pairs} (ho : o.xoU = .dictionary ps)
    (hnodup : (ps.map Prod.fst).Nodup) : KeysDistinct o := by
  intro qs hqs
  obtain rfl : ps = qs := Payload.dictionary.inj (ho.symm.trans hqs)
  exact hnodup

theorem keysDistinct_withArr (o : XpcObject (List ObjId)) (es : List ObjId) :
    KeysDistinct (o.withArr es) := keysDistinct_of_not_dictionary (fun _ => nofun)

/-! ## Constructors and setters -/

theorem keysDistinct_retain (hh : h.Forall KeysDistinct) (he : xpcRetain h v = .ok h') :
    h'.Forall KeysDistinct := hh.retain (fun _ ho => ho) he

theorem keysDistinct_leafCreate (hh : h.Forall KeysDistinct) (v : Leaf) :
    (leafCreate h v).1.Forall KeysDistinct :=
  hh.alloc (keysDistinct_of_not_dictionary (fun _ => nofun))

/-- A pair is replaced, or one with a key that was not there is added. -/
theorem keysDistinct_dictionarySet {k : CString} (hh : h.Forall KeysDistinct)
    (he : xpcDictionarySetValue h d k v = .ok h') : h'.Forall KeysDistinct := by
  obtain ⟨o, ps, hd, ho, hcase⟩ := xpcDictionarySetValue_cases he
  have hnodup : (ps.map Prod.fst).Nodup := hh d o hd ps ho
  rcases hcase with ⟨qs, hr, rfl⟩ | ⟨hr, he⟩
  · apply hh.set hd
    exact keysDistinct_of_dictionary rfl ((replace?_keys hr).symm ▸ hnodup)
  · refine keysDistinct_retain (hh.set hd (keysDistinct_of_dictionary rfl ?_)) he
    rw [← upsert_of_notMem (replace?_eq_none_iff.mp hr)]
    exact upsert_nodup hnodup

theorem keysDistinct_dictionarySetLeaf {k : CString} {w : Leaf} (hh : h.Forall KeysDistinct)
    (he : dictionarySetLeaf h d k w = .ok h') : h'.Forall KeysDistinct :=
  keysDistinct_dictionarySet (keysDistinct_leafCreate hh w) he

/-- The entries are set one by one, starting from none. -/
theorem keysDistinct_dictionaryCreate {entries : Pairs} (hh : h.Forall KeysDistinct)
    (he : xpcDictionaryCreate h entries = .ok (h', d)) : h'.Forall KeysDistinct := by
  obtain ⟨h₁, hfill, he⟩ := bind_eq_ok.mp he
  cases he
  have hstart := hh.alloc (keysDistinct_of_dictionary
    (o := ⟨0, 1, entries.length, .dictionary [], trivial⟩) rfl List.nodup_nil)
  exact foldlM_preserves (fun _ _ _ hh he => keysDistinct_dictionarySet hh he) hstart hfill

theorem keysDistinct_arrayAppend (hh : h.Forall KeysDistinct)
    (he : Arrays.xpcArrayAppendValue h a v = .ok h') : h'.Forall KeysDistinct := by
  obtain ⟨o, es, ha, -, he⟩ := Arrays.xpcArrayAppendValue_cases he
  exact keysDistinct_retain (hh.set ha (keysDistinct_withArr o _)) he

theorem keysDistinct_arrayCreate {objects : List ObjId} (hh : h.Forall KeysDistinct)
    (he : Arrays.xpcArrayCreate h objects = .ok (h', a)) : h'.Forall KeysDistinct := by
  obtain ⟨h₁, hfill, he⟩ := bind_eq_ok.mp he
  cases he
  have hstart := hh.alloc (keysDistinct_of_not_dictionary
    (o := ⟨0, 1, 0, .array [], trivial⟩) (fun _ => nofun))
  exact foldlM_preserves (fun _ _ _ hh he => keysDistinct_arrayAppend hh he) hstart hfill

theorem keysDistinct_arraySet {i : ℕ} (hh : h.Forall KeysDistinct)
    (he : Arrays.xpcArraySetValue h a i v = .ok h') : h'.Forall KeysDistinct := by
  rcases Arrays.xpcArraySetValue_cases he with he | rfl | ⟨o, es, old, h₁, ha, -, hretain, rfl⟩
  · exact keysDistinct_arrayAppend hh he
  · exact hh
  · exact (keysDistinct_retain (hh.set ha (keysDistinct_withArr o _)) hretain).free

/-- What copies and received objects are built with. -/
theorem closed_keysDistinct : Closed (Heap.Forall KeysDistinct) where
  leafCreate := fun _ v hh => keysDistinct_leafCreate hh v
  dictionaryCreate := fun _ _ _ hh he => keysDistinct_dictionaryCreate hh he
  dictionarySet := fun _ _ _ _ _ hh he => keysDistinct_dictionarySet hh he
  arrayCreate := fun _ _ _ hh he => keysDistinct_arrayCreate hh he
  arraySet := fun _ _ _ _ _ hh he => keysDistinct_arraySet hh he

/-! ## Destruction -/

/-- The container is left with the rest of its slots each time. -/
theorem keysDistinct_destroyEach {β : Type}
    {unlink : XpcObject (List ObjId) → List β → XpcObject (List ObjId)} {target : β → ObjId}
    {destroy : Heap (List ObjId) → ObjId → Except Fault (Heap (List ObjId))} {cs : List β}
    (hdestroy : ∀ h h' c, h.Forall KeysDistinct → destroy h c = .ok h' → h'.Forall KeysDistinct)
    (hunlink : ∀ o rest, rest <:+ cs → KeysDistinct (unlink o rest))
    (hh : h.Forall KeysDistinct) (he : destroyEach unlink target destroy x cs h = .ok h') :
    h'.Forall KeysDistinct := by
  induction cs generalizing h with
  | nil =>
    cases he
    exact hh
  | cons c cs ih =>
    obtain ⟨o, hx, he⟩ := bind_eq_ok.mp he
    obtain ⟨h₁, hc, he⟩ := bind_eq_ok.mp he
    have hset : (h.set x (unlink o cs)).Forall KeysDistinct :=
      hh.set (Heap.get_of_deref hx) (hunlink o cs (List.suffix_cons c cs))
    refine ih (fun o rest hrest => hunlink o rest ?_) (hdestroy _ _ _ hset hc) he
    exact hrest.trans (List.suffix_cons c cs)

theorem keysDistinct_destroy {n : ℕ} (hh : h.Forall KeysDistinct)
    (he : xpcObjectDestroy n h x = .ok h') : h'.Forall KeysDistinct := by
  induction n generalizing h h' x with
  | zero => cases he
  | succ n ih =>
    obtain ⟨o, hx, he⟩ := bind_eq_ok.mp he
    obtain ⟨h₁, hslots, he⟩ := bind_eq_ok.mp he
    obtain ⟨o₁, -, he⟩ := bind_eq_ok.mp he
    cases he
    apply Heap.Forall.free
    cases hu : o.xoU with
    | leaf w =>
      rw [hu] at hslots
      cases hslots
      exact hh
    | array es =>
      rw [hu] at hslots
      exact keysDistinct_destroyEach (fun _ _ _ => ih) (fun o rest _ => keysDistinct_withArr o rest)
        hh hslots
    | dictionary ps =>
      rw [hu] at hslots
      have hnodup : (ps.map Prod.fst).Nodup := hh x o (Heap.get_of_deref hx) ps hu
      refine keysDistinct_destroyEach (fun _ _ _ => ih) (fun o rest hrest => ?_) hh hslots
      exact keysDistinct_of_dictionary rfl (hnodup.sublist (hrest.sublist.map Prod.fst))

theorem keysDistinct_release (hh : h.Forall KeysDistinct) (he : xpcRelease h x = .ok h') :
    h'.Forall KeysDistinct := by
  obtain ⟨o, hx, he⟩ := bind_eq_ok.mp he
  have hget := Heap.get_of_deref hx
  have hset : (h.set x o.released).Forall KeysDistinct := hh.set hget (hh x o hget)
  dsimp only at he
  split_ifs at he
  · cases he
    exact hset
  · exact keysDistinct_destroy hset he

/-! ## Trees -/

theorem wellKeyed_of_keysDistinct {t : Tree} {lo : ℕ} (hh : h.Forall KeysDistinct)
    (ht : TreeFrom h lo x t) : t.WellKeyed := by
  induction t generalizing x with
  | leaf v => trivial
  | array ts ih =>
    obtain ⟨-, o, es, -, -, hes⟩ := treeFrom_array.mp ht
    refine Tree.all_array.mpr ⟨trivial, fun t hmem => ?_⟩
    obtain ⟨y, -, hy⟩ := exists_left_of_forall₂ hes hmem
    exact ih t hmem hy
  | dictionary ps ih =>
    obtain ⟨-, o, qs, ho, hu, hqs⟩ := treeFrom_dictionary.mp ht
    refine Tree.all_dictionary.mpr ⟨?_, fun p hmem => ?_⟩
    · change (ps.map Prod.fst).Nodup
      rw [← hqs.keys]
      exact hh x o ho qs hu
    · obtain ⟨q, -, hqp⟩ := exists_left_of_forall₂ hqs hmem
      exact ih p hmem hqp.2

/-! ## Runs -/

/-- A call of the client on objects, or one that copies or receives. -/
abbrev Call := Lifetimes.Op ⊕ DictionaryCounts.Op

/-- Any calls at all, with the references and the types right or not. -/
def anyCalls : Machine (Heap (List ObjId)) Call Fault :=
  ⟨fun _ _ => True, fun h => Sum.elim (Lifetimes.execHeap h) (DictionaryCounts.exec h)⟩

theorem keysDistinct_client {op : Lifetimes.Op} (hh : h.Forall KeysDistinct)
    (he : Lifetimes.execHeap h op = .ok h') : h'.Forall KeysDistinct := by
  cases op with
  | createLeaf v =>
    cases he
    exact keysDistinct_leafCreate hh v
  | createArray objects =>
    obtain ⟨⟨h₁, a⟩, hcall, rfl⟩ := map_eq_ok.mp he
    exact keysDistinct_arrayCreate hh hcall
  | createDictionary entries =>
    obtain ⟨⟨h₁, d⟩, hcall, rfl⟩ := map_eq_ok.mp he
    exact keysDistinct_dictionaryCreate hh hcall
  | retain x => exact keysDistinct_retain hh he
  | release x => exact keysDistinct_release hh he
  | dictionarySetValue d k v => exact keysDistinct_dictionarySet hh he
  | arrayAppendValue a v => exact keysDistinct_arrayAppend hh he
  | arraySetValue a i v => exact keysDistinct_arraySet hh he

theorem keysDistinct_built {op : DictionaryCounts.Op} (hh : h.Forall KeysDistinct)
    (he : DictionaryCounts.exec h op = .ok h') : h'.Forall KeysDistinct := by
  cases op with
  | setter op =>
    cases op with
    | create entries =>
      obtain ⟨⟨h₁, d⟩, hcall, rfl⟩ := map_eq_ok.mp he
      exact keysDistinct_dictionaryCreate hh hcall
    | setValue d k v => exact keysDistinct_dictionarySet hh he
    | _ => exact keysDistinct_dictionarySetLeaf hh he
  | copy fuel x =>
    obtain ⟨⟨h₁, r⟩, hcall, rfl⟩ := map_eq_ok.mp he
    exact closed_keysDistinct.xpcCopy hh hcall
  | deserialise body =>
    obtain ⟨⟨h₁, r⟩, hcall, rfl⟩ := map_eq_ok.mp he
    exact closed_keysDistinct.deserialiseMessage hh hcall

/-- In every state that calls lead to, from one without dictionaries, the trees of all
objects are well keyed. -/
theorem wellKeyed_of_run {tr : List (Call × Except Fault (Heap (List ObjId)))} (hi : Initial h)
    (hr : Run anyCalls h tr) :
    ∀ p ∈ tr, ∀ h', p.2 = .ok h' → ∀ x t, TreeAt h' x t → t.WellKeyed := by
  have hstart : h.Forall KeysDistinct :=
    fun x o ho => keysDistinct_of_not_dictionary (fun ps hps => hi x ⟨o, ps, ho, hps⟩)
  have hreached := hr.reached (I := Heap.Forall KeysDistinct) (fun h op h' hh _ he => ?_) hstart
  · exact fun p hp h' he x t ht => wellKeyed_of_keysDistinct (hreached p hp h' he) ht
  · cases op with
    | inl op => exact keysDistinct_client hh he
    | inr op => exact keysDistinct_built hh he

end OpenXPC.DistinctKeys
