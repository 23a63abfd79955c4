import Mathlib.Data.Fintype.EquivFin
import OpenXPC.Copying
import OpenXPC.Lifetimes

/-! # Owners of objects

A reference that the library takes and never gives back stays its own. When these
are counted beside those of the client, a call that takes one keeps the counts right.
When the last reference to an object goes, the whole tree below it goes, and with it
the references that the library has there. -/
namespace OpenXPC.Ownership
open InsertionMap
open Lifetimes (CountsUpTo Sound)

/-! ## The invariant -/

/-- Neither a string nor data nor a descriptor. -/
def Bufferless : Leaf → Prop
  | .string _ | .data _ | .fd _ | .connection _ => False
  | _ => True

def Bare (o : XpcObject (List ObjId)) : Prop :=
  match o.xoU with
  | .leaf v => Bufferless v
  | _ => True

/-- What `xpc_copy` makes of the object is retained and has no buffer: of an array it
retains nothing, so all elements must be of types that it does not copy. -/
def CopiedWhole (h : Heap (List ObjId)) (o : XpcObject (List ObjId)) : Prop :=
  match o.xoU with
  | .leaf (.string _) | .leaf (.data _) => False
  | .leaf _ => True
  | .array elems => ∀ e ∈ elems, ∀ p, h.get e = some p → ∃ v, p.xoU = .leaf v ∧ ¬ v.Copyable
  | .dictionary _ => True

/-- A new slot for the value makes no cycle, and the counter has room for it. -/
def Insertable (h : Heap (List ObjId)) (container value : ObjId) : Prop :=
  CountsUpTo h value 1 ∧ ¬ Relation.ReflTransGen h.Slot value container

/-- The keys of a dictionary are distinct. -/
def KeysDistinct (o : XpcObject (List ObjId)) : Prop :=
  ∀ ps, o.xoU = .dictionary ps → (ps.map Prod.fst).Nodup

/-- The references of the client and those the library has kept for itself. -/
def allOwned (owned lib : ObjId → ℕ) (x : ObjId) : ℕ := owned x + lib x

/-- The counts are right once the references kept by the library are counted in;
every live object has an owner or a holder, and none is below itself. -/
structure Kept (h : Heap (List ObjId)) (owned lib : ObjId → ℕ) : Prop where
  sound : Sound h (allOwned owned lib)
  held : ∀ x, 0 < lib x → 0 < h.slotsTo x
  referenced : ∀ x o, h.get x = some o → 0 < owned x + h.slotsTo x
  acyclic : ∀ x, ¬ Relation.TransGen h.Slot x x
  keys : h.Forall KeysDistinct

variable {h h' : Heap (List ObjId)} {owned owned' lib : ObjId → ℕ} {x y d v : ObjId}
  {o : XpcObject (List ObjId)}

theorem Kept.live_of_slotsTo (hs : Kept h owned lib) (hx : 0 < h.slotsTo x) :
    ∃ o, h.get x = some o := by
  obtain ⟨o, ho, -⟩ := hs.sound.accounted x (by omega)
  exact ⟨o, ho⟩

/-- Where nothing is owned nothing is live: above a live object there is no end. -/
theorem Kept.get_eq_none (hs : Kept h owned lib) (hzero : ∀ x, owned x = 0) (x : ObjId) :
    h.get x = none := by
  by_contra hne
  let below : Fin h.size → Fin h.size → Prop := fun a b => Relation.TransGen h.Slot a b
  have : IsTrans (Fin h.size) below := ⟨fun _ _ _ => Relation.TransGen.trans⟩
  have : Std.Irrefl below := ⟨fun a => hs.acyclic a⟩
  have hwf : WellFounded below := Finite.wellFounded_of_trans_of_irrefl below
  obtain ⟨o, ho⟩ := Option.ne_none_iff_exists'.mp hne
  let live : Set (Fin h.size) := {a | ∃ o, h.get a = some o}
  have hlive : live.Nonempty := ⟨⟨x, Heap.lt_size_of_get ho⟩, o, ho⟩
  obtain ⟨a, ⟨p, hp⟩, hmin⟩ := hwf.has_min live hlive
  have hheld := hs.referenced a p hp
  rw [hzero, Nat.zero_add] at hheld
  obtain ⟨c, hc⟩ := Heap.slotsTo_pos_iff.mp hheld
  obtain ⟨q, hq, hmem⟩ := hc
  exact hmin ⟨c, Heap.lt_size_of_get hq⟩ ⟨q, hq⟩ (.single ⟨q, hq, hmem⟩)

/-! ## Adding slots -/

/-- Slots that hold the values are added to the container, which may be new; nothing
else changes but counts. -/
structure Adds (h h' : Heap (List ObjId)) (d : ObjId) (values : List ObjId) : Prop where
  keeps : h.KeepsBut d h'
  live : ∀ y o', h'.get y = some o' → y = d ∨ ∃ o, h.get y = some o
  slots : ∀ y, h'.Slot d y → h.Slot d y ∨ y ∈ values
  slotsTo_le : ∀ y, h.slotsTo y ≤ h'.slotsTo y

/-- Only new edges from one object are added, and none closes a cycle. -/
theorem acyclic_of_edges {α : Type} {r r' : α → α → Prop} (d : α)
    (hr : ∀ x, ¬ Relation.TransGen r x x)
    (hstep : ∀ x y, r' x y → r x y ∨ (x = d ∧ ¬ Relation.ReflTransGen r y d)) (x : α) :
    ¬ Relation.TransGen r' x x := by
  -- a path is one without new edges, or leads to `d` without them
  have hpath : ∀ {x y}, Relation.ReflTransGen r' x y →
      Relation.ReflTransGen r x y ∨ Relation.ReflTransGen r x d := by
    intro x y hxy
    induction hxy with
    | refl => exact .inl .refl
    | tail _ hyz ih =>
      rcases ih with hxy | hxd
      · rcases hstep _ _ hyz with hyz | ⟨rfl, -⟩
        · exact .inl (hxy.tail hyz)
        · exact .inr hxy
      · exact .inr hxd
  -- a cycle has a new edge, from whose end it leads back to `d`
  have hcycle : ∀ {x y}, Relation.TransGen r' x y → Relation.ReflTransGen r' y x →
      Relation.TransGen r x y := by
    intro x y hxy
    induction hxy with
    | single hxy =>
      intro hyx
      rcases hstep _ _ hxy with hxy | ⟨rfl, hno⟩
      · exact .single hxy
      · exact absurd ((hpath hyx).elim id id) hno
    | @tail y z hxy hyz ih =>
      intro hzx
      have hxy' := ih (.head hyz hzx)
      rcases hstep _ _ hyz with hyz | ⟨rfl, hno⟩
      · exact hxy'.tail hyz
      · have hzd := hzx.trans hxy.to_reflTransGen
        exact absurd ((hpath hzd).elim id id) hno
  exact fun hx => hr x (hcycle hx .refl)

theorem Adds.slot {values : List ObjId} (ha : Adds h h' d values) {z : ObjId} (hyz : h'.Slot y z) :
    h.Slot y z ∨ (y = d ∧ z ∈ values) := by
  by_cases hyd : y = d
  · subst hyd
    exact (ha.slots z hyz).imp id (fun hz => ⟨rfl, hz⟩)
  · obtain ⟨o', ho', hz⟩ := hyz
    obtain ⟨o, ho⟩ := (ha.live y o' ho').resolve_left hyd
    obtain ⟨p, hp, hu, -⟩ := ha.keeps.get_of_get hyd ho
    obtain rfl : o' = p := Option.some.inj (ho'.symm.trans hp)
    exact .inl ⟨o, ho, by rwa [XpcObject.slots, ← hu]⟩

theorem Kept.adds {values : List ObjId} (hs : Kept h owned lib) (ha : Adds h h' d values)
    (hsound : Sound h' (allOwned owned' lib)) (hd : 0 < owned' d + h'.slotsTo d)
    (howned : ∀ y, y ≠ d → owned' y = owned y)
    (hvalues : ∀ v ∈ values, ¬ Relation.ReflTransGen h.Slot v d)
    (hkeys : ∀ o', h'.get d = some o' → KeysDistinct o') : Kept h' owned' lib := by
  refine ⟨hsound, fun y hy => ?_, fun y o' ho' => ?_, ?_, fun y o' ho' => ?_⟩
  · exact Nat.lt_of_lt_of_le (hs.held y hy) (ha.slotsTo_le y)
  · by_cases hyd : y = d
    · rwa [hyd]
    · obtain ⟨o, ho⟩ := (ha.live y o' ho').resolve_left hyd
      have hold := hs.referenced y o ho
      have hle := ha.slotsTo_le y
      rw [howned y hyd]
      omega
  · refine acyclic_of_edges d hs.acyclic (fun y z hyz => (ha.slot hyz).imp id ?_)
    exact fun hnew => ⟨hnew.1, hvalues z hnew.2⟩
  · by_cases hyd : y = d
    · exact hkeys o' (hyd ▸ ho')
    · obtain ⟨o, ho⟩ := (ha.live y o' ho').resolve_left hyd
      obtain ⟨p, hp, hu, -⟩ := ha.keeps.get_of_get hyd ho
      obtain rfl : o' = p := Option.some.inj (ho'.symm.trans hp)
      intro ps hps
      exact hs.keys y o ho ps (hu ▸ hps)

/-- A reference of the client is left with the library, once a slot holds the object. -/
theorem Kept.move (hs : Kept h owned lib) (hx : 0 < owned x) (hslot : 0 < h.slotsTo x) :
    Kept h (Function.update owned x (owned x - 1)) (Function.update lib x (lib x + 1)) := by
  have hsame : allOwned (Function.update owned x (owned x - 1)) (Function.update lib x (lib x + 1)) =
      allOwned owned lib := by
    funext y
    by_cases hyx : y = x
    · subst hyx
      simp only [allOwned, Function.update_self]
      omega
    · simp only [allOwned, Function.update_of_ne hyx]
  refine ⟨hsame ▸ hs.sound, fun y hy => ?_, fun y o ho => ?_, hs.acyclic, hs.keys⟩
  · by_cases hyx : y = x
    · rwa [hyx]
    · rw [Function.update_of_ne hyx] at hy
      exact hs.held y hy
  · by_cases hyx : y = x
    · rw [hyx]
      omega
    · rw [Function.update_of_ne hyx]
      exact hs.referenced y o ho

/-! ## Calls that make no new object -/

/-- No freed object comes back. -/
def NothingNew (h h' : Heap (List ObjId)) : Prop :=
  ∀ y o', h'.get y = some o' → ∃ o, h.get y = some o

theorem NothingNew.trans {h'' : Heap (List ObjId)} (h₁ : NothingNew h h') (h₂ : NothingNew h' h'') :
    NothingNew h h'' := by
  intro y o'' ho''
  obtain ⟨o', ho'⟩ := h₂ y o'' ho''
  exact h₁ y o' ho'

theorem NothingNew.bare (hn : NothingNew h h') (y : ObjId) (o' : XpcObject (List ObjId))
    (hy : h.size ≤ y) (ho' : h'.get y = some o') : Bare o' := by
  obtain ⟨o, ho⟩ := hn y o' ho'
  exact absurd (Heap.lt_size_of_get ho) (Nat.not_lt.mpr hy)

theorem nothingNew_set (hx : h.get x = some o) (o₁ : XpcObject (List ObjId)) :
    NothingNew h (h.set x o₁) := by
  intro y o' ho'
  rw [Heap.get_set hx] at ho'
  split_ifs at ho' with hyx
  · exact ⟨o, hyx ▸ hx⟩
  · exact ⟨o', ho'⟩

theorem nothingNew_retain (he : xpcRetain h x = .ok h') : NothingNew h h' := by
  obtain ⟨o, ho, he⟩ := bind_eq_ok.mp he
  cases he
  exact nothingNew_set (Heap.get_of_deref ho) _

theorem nothingNew_dictionarySet {k : CString} (he : xpcDictionarySetValue h d k v = .ok h') :
    NothingNew h h' := by
  obtain ⟨o, ps, hd, -, hcase⟩ := xpcDictionarySetValue_cases he
  rcases hcase with ⟨qs, -, rfl⟩ | ⟨-, he⟩
  · exact nothingNew_set hd _
  · exact (nothingNew_set hd _).trans (nothingNew_retain he)

theorem nothingNew_append (he : Arrays.xpcArrayAppendValue h d v = .ok h') : NothingNew h h' := by
  obtain ⟨o, es, hd, -, he⟩ := Arrays.xpcArrayAppendValue_cases he
  exact (nothingNew_set hd _).trans (nothingNew_retain he)

theorem nothingNew_foldlM {β : Type} {step : Heap (List ObjId) → β → Except Fault (Heap (List ObjId))}
    (hstep : ∀ {h h' b}, step h b = .ok h' → NothingNew h h') {bs : List β}
    (he : bs.foldlM step h = .ok h') : NothingNew h h' := by
  apply foldlM_preserves (I := NothingNew h) _ (fun y o' ho' => ⟨o', ho'⟩) he
  exact fun _ _ _ hnew hb => hnew.trans (hstep hb)

/-! ## Creation -/

/-- A container has neither a buffer nor a descriptor. -/
theorem bare_dictionary {ps : Pairs} (ho : o.xoU = .dictionary ps) : Bare o := by
  rw [Bare, ho]
  trivial

theorem bare_array {es : List ObjId} (ho : o.xoU = .array es) : Bare o := by
  rw [Bare, ho]
  trivial

theorem live_of_alloc (hn : NothingNew (h.alloc o).1 h') (y : ObjId) (o' : XpcObject (List ObjId))
    (ho' : h'.get y = some o') : y = h.size ∨ ∃ p, h.get y = some p := by
  obtain ⟨p, hp⟩ := hn y o' ho'
  rw [Heap.get_alloc] at hp
  split_ifs at hp with hy
  · exact .inl hy
  · exact .inr ⟨p, hp⟩

theorem live_of_arrayCreate {objects : List ObjId} {a : ObjId}
    (he : Arrays.xpcArrayCreate h objects = .ok (h', a)) :
    ∀ y o', h'.get y = some o' → y = h.size ∨ ∃ p, h.get y = some p := by
  change (objects.foldlM (fun h' x => Arrays.xpcArrayAppendValue h' h.size x) (h.alloc _).1 >>= _) = _
    at he
  obtain ⟨h₁, hfill, he⟩ := bind_eq_ok.mp he
  cases he
  exact live_of_alloc (nothingNew_foldlM (fun hstep => nothingNew_append hstep) hfill)

theorem live_of_dictionaryCreate {entries : Pairs}
    (he : xpcDictionaryCreate h entries = .ok (h', d)) :
    ∀ y o', h'.get y = some o' → y = h.size ∨ ∃ p, h.get y = some p := by
  change (entries.foldlM (fun h' p => xpcDictionarySetValue h' h.size p.1 p.2) (h.alloc _).1 >>= _) = _
    at he
  obtain ⟨h₁, hfill, he⟩ := bind_eq_ok.mp he
  cases he
  exact live_of_alloc (nothingNew_foldlM (fun hstep => nothingNew_dictionarySet hstep) hfill)

theorem bare_of_live (hlive : ∀ y o', h'.get y = some o' → y = h.size ∨ ∃ p, h.get y = some p)
    (ho : h'.get h.size = some o) (hbare : Bare o) (y : ObjId) (p : XpcObject (List ObjId))
    (hy : h.size ≤ y) (hp : h'.get y = some p) : Bare p := by
  rcases hlive y p hp with rfl | hold
  · obtain rfl : o = p := Option.some.inj (ho.symm.trans hp)
    exact hbare
  · obtain ⟨q, hq⟩ := hold
    exact absurd (Heap.lt_size_of_get hq) (Nat.not_lt.mpr hy)

theorem allOwned_update {n m : ℕ} (hn : n + lib x = m) :
    allOwned (Function.update owned x n) lib = Function.update (allOwned owned lib) x m := by
  funext y
  by_cases hyx : y = x
  · subst hyx
    simp only [allOwned, Function.update_self, hn]
  · simp only [allOwned, Function.update_of_ne hyx]

theorem Kept.outside (hs : Kept h owned lib) (hx : h.size ≤ x) :
    owned x = 0 ∧ lib x = 0 ∧ h.slotsTo x = 0 := by
  by_contra hne
  have hpos : 0 < allOwned owned lib x + h.slotsTo x := by
    simp only [allOwned]
    omega
  obtain ⟨p, hp, -⟩ := hs.sound.accounted x hpos
  rw [Heap.get_of_size_le hx] at hp
  cases hp

/-- The references to a new object are the one that its creator gets. -/
theorem Kept.sound_created (hs : Kept h owned lib)
    (hsound : Sound h' (Function.update (allOwned owned lib) h.size 1)) :
    Sound h' (allOwned (Function.update owned h.size 1) lib) := by
  have hlib := (hs.outside (Nat.le_refl h.size)).2.1
  have hone : 1 + lib h.size = 1 := by omega
  rwa [allOwned_update hone]

theorem Kept.created {values : List ObjId} (hs : Kept h owned lib) (hk : h.Keeps h')
    (hlive : ∀ y o', h'.get y = some o' → y = h.size ∨ ∃ o, h.get y = some o)
    (ho : h'.get h.size = some o) (hslots : ∀ y ∈ o.slots, y ∈ values) (hkeys : KeysDistinct o)
    (hvalues : ∀ v ∈ values, 0 < owned v + h.slotsTo v)
    (hsound : Sound h' (Function.update (allOwned owned lib) h.size 1)) :
    Kept h' (Function.update owned h.size 1) lib := by
  have hadds : Adds h h' h.size values := by
    refine ⟨hk.keepsBut _, hlive, fun y hy => .inr ?_, hk.slotsTo_le⟩
    obtain ⟨p, hp, hmem⟩ := hy
    obtain rfl : o = p := Option.some.inj (ho.symm.trans hp)
    exact hslots y hmem
  have hnone : ∀ {y}, ¬ h.Slot y h.size := by
    intro y hy
    have hpos := Heap.slotsTo_pos_iff.mpr ⟨y, hy⟩
    have hzero := hs.outside (Nat.le_refl h.size)
    omega
  refine hs.adds hadds (hs.sound_created hsound) ?_ ?_ ?_ ?_
  · rw [Function.update_self]
    omega
  · intro y hy
    exact Function.update_of_ne hy 1 owned
  · intro v hv hpath
    rcases Relation.reflTransGen_iff_eq_or_transGen.mp hpath with heq | hpath
    · have husable := hvalues v hv
      have hzero := hs.outside (Nat.le_of_eq heq)
      omega
    · obtain ⟨y, -, hy⟩ := Relation.TransGen.tail'_iff.mp hpath
      exact hnone hy
  · intro o' ho'
    obtain rfl : o = o' := Option.some.inj (ho.symm.trans ho')
    exact hkeys

theorem Kept.alloc (hs : Kept h owned lib) (hslots : o.slots = []) (hone : o.xoRefcnt = 1)
    (hunsized : o.UnsizedArray) (hkeys : KeysDistinct o) :
    Kept (h.alloc o).1 (Function.update owned h.size 1) lib := by
  refine hs.created (h.keeps_alloc o) (fun y o' ho' => ?_) ?_ ?_ hkeys
    (fun v hv => absurd hv List.not_mem_nil) (hs.sound.alloc hslots hone hunsized).1
  · rw [Heap.get_alloc] at ho'
    split_ifs at ho' with hy
    · exact .inl hy
    · exact .inr ⟨o', ho'⟩
  · rw [Heap.get_alloc, if_pos rfl]
  · rw [hslots]
    exact fun y hy => hy

theorem Kept.usable (hv : 0 < owned v + h.slotsTo v) : 0 < allOwned owned lib v + h.slotsTo v := by
  simp only [allOwned]
  omega

theorem Kept.live_of_usable (hs : Kept h owned lib) (hv : 0 < owned v + h.slotsTo v) :
    ∃ w, h.get v = some w := by
  obtain ⟨w, hw, -⟩ := hs.sound.accounted v (Kept.usable hv)
  exact ⟨w, hw⟩

theorem Kept.createArray {objects : List ObjId} (hs : Kept h owned lib)
    (hv : ∀ v ∈ objects, 0 < owned v + h.slotsTo v)
    (hcan : ∀ v, CountsUpTo h v (objects.count v)) :
    ∃ h', Arrays.xpcArrayCreate h objects = .ok (h', h.size) ∧
      Kept h' (Function.update owned h.size 1) lib ∧
      ∀ y p, h.size ≤ y → h'.get y = some p → Bare p := by
  obtain ⟨h', he, hsound⟩ := hs.sound.createArray (fun v hmem => Kept.usable (hv v hmem)) hcan
  obtain ⟨h₁, he₁, hk, o, ho, hu⟩ :=
    Arrays.xpcArrayCreate_ok (fun v hmem => hs.live_of_usable (hv v hmem))
  obtain rfl : h' = h₁ := (Prod.mk.inj (Except.ok.inj (he.symm.trans he₁))).1
  have hlive := live_of_arrayCreate he
  refine ⟨h', he, hs.created hk hlive ho (fun y hy => ?_) ?_ hv hsound,
    bare_of_live hlive ho (bare_array hu)⟩
  · rwa [XpcObject.slots, hu] at hy
  · intro ps hps
    rw [hu] at hps
    cases hps

theorem Kept.createDictionary {entries : Pairs} (hs : Kept h owned lib)
    (hv : ∀ p ∈ entries, 0 < owned p.2 + h.slotsTo p.2)
    (hc : ∀ p ∈ entries, ∀ q ∈ entries, p.1 = q.1 → p.2 = q.2)
    (hcan : ∀ v, CountsUpTo h v (((build entries).map Prod.snd).count v)) :
    ∃ h', xpcDictionaryCreate h entries = .ok (h', h.size) ∧
      Kept h' (Function.update owned h.size 1) lib ∧
      ∀ y p, h.size ≤ y → h'.get y = some p → Bare p := by
  obtain ⟨h', he, hsound⟩ :=
    hs.sound.createDictionary (fun p hmem => Kept.usable (hv p hmem)) hc hcan
  obtain ⟨h₁, he₁, hk, o, ho, hu, -⟩ :=
    xpcDictionaryCreate_ok (fun p hmem => hs.live_of_usable (hv p hmem))
  obtain rfl : h' = h₁ := (Prod.mk.inj (Except.ok.inj (he.symm.trans he₁))).1
  have hvalues : ∀ v ∈ entries.map Prod.snd, 0 < owned v + h.slotsTo v := by
    intro v hmem
    obtain ⟨p, hp, rfl⟩ := List.mem_map.mp hmem
    exact hv p hp
  have hlive := live_of_dictionaryCreate he
  refine ⟨h', he, hs.created hk hlive ho (fun y hy => ?_) ?_ hvalues hsound,
    bare_of_live hlive ho (bare_dictionary hu)⟩
  · rw [XpcObject.slots, hu] at hy
    obtain ⟨p, hp, rfl⟩ := List.mem_map.mp hy
    exact List.mem_map_of_mem (mem_of_mem_build hp)
  · intro ps hps
    obtain rfl : build entries = ps := Payload.dictionary.inj (hu.symm.trans hps)
    exact nodup_build entries

/-! ## Counting, appending and setting -/

/-- Only the count of an object changes. -/
theorem adds_recount (hx : h.get x = some o) (o₁ : XpcObject (List ObjId)) (hu : o₁.xoU = o.xoU) :
    Adds h (h.set x o₁) x [] := by
  have hsame : o₁.slots = o.slots := by rw [XpcObject.slots, XpcObject.slots, hu]
  refine ⟨Heap.keepsBut_set hx o₁, fun y o' ho' => .inr (nothingNew_set hx o₁ y o' ho'), ?_, ?_⟩
  · rintro y ⟨p, hp, hy⟩
    rw [Heap.get_set hx, if_pos rfl] at hp
    cases hp
    exact .inl ⟨o, hx, hsame ▸ hy⟩
  · intro y
    have htotal := Heap.total_set (f := fun o => o.slots.count y) hx o₁
    simp only [hsame] at htotal
    exact Nat.le_of_eq (Nat.add_right_cancel htotal).symm

theorem Kept.retain (hs : Kept h owned lib) (hx : 0 < owned x + h.slotsTo x)
    (hcan : CountsUpTo h x 1) :
    ∃ h', xpcRetain h x = .ok h' ∧ Kept h' (Function.update owned x (owned x + 1)) lib := by
  obtain ⟨w, hw⟩ := hs.live_of_usable hx
  obtain ⟨h', he, hsound⟩ := hs.sound.retain (Kept.usable hx) hcan
  obtain rfl : h.set x w.retained = h' := Except.ok.inj ((xpcRetain_of_get hw).symm.trans he)
  have hadds := adds_recount hw w.retained rfl
  have hsum : owned x + 1 + lib x = allOwned owned lib x + 1 := by
    simp only [allOwned]
    omega
  refine ⟨_, he, hs.adds hadds (allOwned_update hsum ▸ hsound) ?_ ?_ ?_ ?_⟩
  · rw [Function.update_self]
    omega
  · intro y hy
    exact Function.update_of_ne hy _ owned
  · exact fun v hv => absurd hv List.not_mem_nil
  · intro o' ho'
    rw [Heap.get_set hw, if_pos rfl] at ho'
    cases ho'
    exact hs.keys x w hw

theorem Kept.append {a : ObjId} {es : List ObjId} (hs : Kept h owned lib) (ha : h.get a = some o)
    (ho : o.xoU = .array es) (hv : 0 < owned v + h.slotsTo v) (hins : Insertable h a v) :
    ∃ h', Arrays.xpcArrayAppendValue h a v = .ok h' ∧ Kept h' owned lib ∧ Adds h h' a [v] ∧
      ∃ o', h'.get a = some o' ∧ o'.xoU = .array (es ++ [v]) := by
  obtain ⟨w, hw⟩ := hs.live_of_usable hv
  obtain ⟨h', he, hsound, hi⟩ := hs.sound.arrayAppend ha ho (Kept.usable hv) hins.1
  obtain ⟨h₁, he₁, hk, o', ho', hu', -⟩ := Arrays.xpcArrayAppendValue_ok ha ho hw
  obtain rfl : h' = h₁ := Except.ok.inj (he.symm.trans he₁)
  have hslots : o'.slots = es ++ [v] := by rw [XpcObject.slots, hu', Payload.slots]
  have hadds : Adds h h' a [v] := by
    refine ⟨hk, fun y p hp => .inr (nothingNew_append he y p hp), ?_, fun y => ?_⟩
    · rintro y ⟨p, hp, hy⟩
      obtain rfl : o' = p := Option.some.inj (ho'.symm.trans hp)
      rw [hslots] at hy
      refine (List.mem_append.mp hy).imp (fun hes => ⟨o, ha, ?_⟩) id
      rwa [XpcObject.slots, ho, Payload.slots]
    · rw [hi.slotsTo]
      exact Nat.le_add_right _ _
  have hpos := hs.referenced a o ha
  have hle := hadds.slotsTo_le a
  refine ⟨h', he, hs.adds hadds hsound (by omega) (fun _ _ => rfl) ?_ ?_, hadds, o', ho', hu'⟩
  · intro u hu
    rw [List.mem_singleton.mp hu]
    exact hins.2
  · intro p hp ps hps
    obtain rfl : o' = p := Option.some.inj (ho'.symm.trans hp)
    rw [hu'] at hps
    cases hps

theorem Kept.dictionarySet {ps : Pairs} {k : CString} (hs : Kept h owned lib)
    (hd : h.get d = some o) (ho : o.xoU = .dictionary ps) (hv : 0 < owned v + h.slotsTo v)
    (hins : ps.lookup k = some v ∨ (ps.lookup k = none ∧ Insertable h d v)) :
    ∃ h', xpcDictionarySetValue h d k v = .ok h' ∧ Kept h' owned lib ∧ Adds h h' d [v] ∧
      ∃ o', h'.get d = some o' ∧ o'.xoU = .dictionary (upsert k v ps) := by
  obtain ⟨w, hw⟩ := hs.live_of_usable hv
  obtain ⟨h', he, hsound, hle, -⟩ :=
    hs.sound.dictionarySet hd ho (Kept.usable hv) (hins.imp id (fun hnew => ⟨hnew.1, hnew.2.1⟩))
  obtain ⟨h₁, he₁, hk, o', ho', hu', -⟩ := xpcDictionarySetValue_ok hd ho hw k
  obtain rfl : h' = h₁ := Except.ok.inj (he.symm.trans he₁)
  have hadds : Adds h h' d [v] := by
    refine ⟨hk, fun y p hp => .inr (nothingNew_dictionarySet he y p hp), ?_, hle⟩
    rintro y ⟨p, hp, hy⟩
    obtain rfl : o' = p := Option.some.inj (ho'.symm.trans hp)
    rw [XpcObject.slots, hu'] at hy
    obtain ⟨q, hq, rfl⟩ := List.mem_map.mp hy
    rcases mem_of_mem_upsert hq with rfl | hq
    · exact .inr (List.mem_singleton_self _)
    · exact .inl ⟨o, hd, by rw [XpcObject.slots, ho]; exact List.mem_map_of_mem hq⟩
  have hpos := hs.referenced d o hd
  have hled := hle d
  refine ⟨h', he, hs.adds hadds hsound (by omega) (fun _ _ => rfl) ?_ ?_, hadds, o', ho', hu'⟩
  · intro u hu hpath
    rw [List.mem_singleton.mp hu] at hpath
    rcases hins with hl | hnew
    · -- the value is below the dictionary already
      have hmem : v ∈ o.slots := by
        rw [XpcObject.slots, ho]
        exact List.mem_map_of_mem (pair_mem_of_lookup hl)
      exact hs.acyclic d (.head' ⟨o, hd, hmem⟩ hpath)
    · exact hnew.2.2 hpath
  · intro p hp qs hqs
    obtain rfl : o' = p := Option.some.inj (ho'.symm.trans hp)
    obtain rfl : upsert k v ps = qs := Payload.dictionary.inj (hu'.symm.trans hqs)
    exact upsert_nodup (hs.keys d o hd ps ho)

/-! ## Releasing -/

/-- One owned reference less, which was not the last one. -/
theorem Kept.drop (hs : Kept h owned lib) (hx : 0 < owned x) (ho : h.get x = some o)
    (hmore : o.xoRefcnt ≠ 1) :
    Kept (h.set x o.released) (Function.update owned x (owned x - 1)) lib := by
  obtain ⟨hcounts, hsound⟩ := hs.sound.dropped (Nat.lt_of_lt_of_le hx (Nat.le_add_right _ _)) ho
  have hsum : owned x - 1 + lib x = allOwned owned lib x - 1 := by
    simp only [allOwned]
    omega
  obtain ⟨p, hp, hcount⟩ := hs.sound.accounted x (by simp only [allOwned]; omega)
  obtain rfl : o = p := Option.some.inj (ho.symm.trans hp)
  have hne : o.xoRefcnt.toNat ≠ 1 := fun hn => hmore (UInt32.toNat_inj.mp hn)
  refine hs.adds (adds_recount ho o.released rfl) (allOwned_update hsum ▸ hsound) ?_ ?_ ?_ ?_
  · -- a reference of the library comes with a slot
    rw [hcounts, Function.update_self]
    have hheld := hs.held x
    simp only [allOwned] at hcount
    omega
  · intro y hy
    exact Function.update_of_ne hy _ owned
  · exact fun v hv => absurd hv List.not_mem_nil
  · intro o' ho'
    rw [Heap.get_set ho, if_pos rfl] at ho'
    cases ho'
    exact hs.keys x o ho

/-- The tree of an object whose last reference goes can be destroyed. -/
theorem Kept.detached (hs : Kept h owned lib) (hx : h.slotsTo x = 0) (ho : h.get x = some o)
    (honce : ∀ y, Relation.TransGen h.Slot x y → h.slotsTo y = 1) : Detached h x := by
  refine ⟨fun y hy => ?_, hx, honce⟩
  rcases Relation.reflTransGen_iff_eq_or_transGen.mp hy with rfl | hy
  · exact ⟨o, ho⟩
  · exact hs.live_of_slotsTo (by rw [honce y hy]; exact Nat.one_pos)

/-- A tree is gone, and nothing is left that owned or held a part of it. -/
theorem Kept.without (hs : Kept h owned lib)
    (hgone : ∀ y, Relation.ReflTransGen h.Slot x y →
      h'.get y = none ∧ h'.slotsTo y = 0 ∧ owned' y = 0)
    (hother : ∀ y, ¬ Relation.ReflTransGen h.Slot x y →
      h'.get y = h.get y ∧ h'.slotsTo y = h.slotsTo y ∧ owned' y = owned y) :
    ∃ lib', NothingNew h h' ∧ Kept h' owned' lib' := by
  classical
  let lib' : ObjId → ℕ := fun y => if Relation.ReflTransGen h.Slot x y then 0 else lib y
  have hgone' : ∀ y, Relation.ReflTransGen h.Slot x y →
      lib' y = 0 ∧ allOwned owned' lib' y + h'.slotsTo y = 0 := by
    intro y hy
    obtain ⟨-, hslots, howned⟩ := hgone y hy
    have hlib : lib' y = 0 := if_pos hy
    simp only [allOwned, hlib, hslots, howned, and_self]
  have hother' : ∀ y, ¬ Relation.ReflTransGen h.Slot x y →
      lib' y = lib y ∧ allOwned owned' lib' y + h'.slotsTo y = allOwned owned lib y + h.slotsTo y := by
    intro y hy
    obtain ⟨-, hslots, howned⟩ := hother y hy
    have hlib : lib' y = lib y := if_neg hy
    simp only [allOwned, hlib, hslots, howned, and_self]
  -- what is left is not of the tree
  have hleft : ∀ y q, h'.get y = some q → ¬ Relation.ReflTransGen h.Slot x y ∧ h.get y = some q := by
    intro y q hq
    have hnot : ¬ Relation.ReflTransGen h.Slot x y := by
      intro hy
      rw [(hgone y hy).1] at hq
      cases hq
    exact ⟨hnot, by rw [← (hother y hnot).1, hq]⟩
  refine ⟨lib', fun y q hq => ⟨q, (hleft y q hq).2⟩, ⟨fun y hy => ?_, fun y q hq => ?_⟩,
    fun y hy => ?_, fun y q hq => ?_, fun y hy => ?_, fun y q hq => ?_⟩
  · have hnot : ¬ Relation.ReflTransGen h.Slot x y := by
      intro hbelow
      rw [(hgone' y hbelow).2] at hy
      exact Nat.lt_irrefl 0 hy
    rw [(hother' y hnot).2] at hy ⊢
    rw [(hother y hnot).1]
    exact hs.sound.accounted y hy
  · exact hs.sound.unsized y q (hleft y q hq).2
  · have hnot : ¬ Relation.ReflTransGen h.Slot x y := by
      intro hbelow
      rw [(hgone' y hbelow).1] at hy
      exact Nat.lt_irrefl 0 hy
    rw [(hother' y hnot).1] at hy
    rw [(hother y hnot).2.1]
    exact hs.held y hy
  · obtain ⟨hnot, hq⟩ := hleft y q hq
    obtain ⟨-, hslots, howned⟩ := hother y hnot
    rw [howned, hslots]
    exact hs.referenced y q hq
  · refine hs.acyclic y (Relation.TransGen.mono (fun a b hab => ?_) y y hy)
    obtain ⟨q, hq, hb⟩ := hab
    exact ⟨q, (hleft a q hq).2, hb⟩
  · exact hs.keys y q (hleft y q hq).2

/-- The last reference goes, and with it the whole tree. -/
theorem Kept.destroy (hs : Kept h owned lib) (hx : 0 < owned x) (ho : h.get x = some o)
    (hone : o.xoRefcnt = 1)
    (hbelow : ∀ y, Relation.TransGen h.Slot x y → owned y = 0 ∧ h.slotsTo y = 1) :
    ∃ h' lib', xpcObjectDestroy ((h.set x o.released).slotTotal + 1) (h.set x o.released) x = .ok h' ∧
      NothingNew h h' ∧ Kept h' (Function.update owned x (owned x - 1)) lib' := by
  obtain ⟨p, hp, hcount⟩ := hs.sound.accounted x (by simp only [allOwned]; omega)
  obtain rfl : o = p := Option.some.inj (ho.symm.trans hp)
  have hrefs : o.xoRefcnt.toNat = 1 := by rw [hone]; rfl
  simp only [allOwned] at hcount
  obtain ⟨hslot, hcounts⟩ := slot_recount ho o.released rfl
  have hdetached : Detached (h.set x o.released) x :=
    (hs.detached (by omega) ho (fun y hy => (hbelow y hy).2)).recount ho o.released rfl
  obtain ⟨h', he, hf⟩ := xpcObjectDestroy_frees hdetached.rooted hdetached.live (Nat.lt_succ_self _)
  obtain ⟨lib', hnew, hs'⟩ : ∃ lib', NothingNew h h' ∧
      Kept h' (Function.update owned x (owned x - 1)) lib' := by
    refine hs.without (x := x) (fun y hy => ?_) (fun y hy => ?_)
    · have hy₁ : Relation.ReflTransGen (h.set x o.released).Slot x y := by rwa [hslot]
      refine ⟨hf.below y hy₁, hf.slotsTo_below hdetached.rooted hdetached.root hy₁, ?_⟩
      rcases Relation.reflTransGen_iff_eq_or_transGen.mp hy with rfl | hy
      · rw [Function.update_self]
        omega
      · have hyx : y ≠ x := by
          rintro rfl
          exact hs.acyclic y hy
        rw [Function.update_of_ne hyx, (hbelow y hy).1]
    · have hyx : y ≠ x := by
        rintro rfl
        exact hy .refl
      have hy₁ : ¬ Relation.ReflTransGen (h.set x o.released).Slot x y := by rwa [hslot]
      refine ⟨?_, ?_, Function.update_of_ne hyx _ owned⟩
      · rw [hf.other y hy₁, Heap.get_set ho, if_neg hyx]
      · rw [hf.slotsTo_other hy₁, hcounts]
  exact ⟨h', lib', he, hnew, hs'⟩

theorem Kept.release (hs : Kept h owned lib) (hx : 0 < owned x)
    (hlast : ∀ o, h.get x = some o → o.xoRefcnt = 1 →
      ∀ y, Relation.TransGen h.Slot x y → owned y = 0 ∧ h.slotsTo y = 1) :
    ∃ h' lib', xpcRelease h x = .ok h' ∧ NothingNew h h' ∧
      Kept h' (Function.update owned x (owned x - 1)) lib' := by
  obtain ⟨o, ho⟩ := hs.live_of_usable (Nat.lt_of_lt_of_le hx (Nat.le_add_right _ _))
  obtain ⟨p, hp, hcount⟩ := hs.sound.accounted x (by simp only [allOwned]; omega)
  obtain rfl : o = p := Option.some.inj (ho.symm.trans hp)
  simp only [allOwned] at hcount
  by_cases hone : o.xoRefcnt = 1
  · obtain ⟨h', lib', he, hnew, hs'⟩ := hs.destroy hx ho hone (hlast o ho hone)
    exact ⟨h', lib', by rw [xpcRelease_last ho hone, he], hnew, hs'⟩
  · have hpos : o.xoRefcnt - 1 > 0 := by
      have hne : o.xoRefcnt.toNat ≠ 1 := fun hn => hone (UInt32.toNat_inj.mp hn)
      apply UInt32.lt_iff_toNat_lt.mpr
      rw [Lifetimes.toNat_released (by omega)]
      change 0 < _
      omega
    refine ⟨_, lib, ?_, nothingNew_set ho _, hs.drop hx ho hone⟩
    simp [xpcRelease, Heap.deref_of_get ho, hpos]

/-! ## What is new in a heap -/

/-- The objects of the first heap are as they were; the new ones hold new ones only,
and have no buffers and no descriptors. -/
structure Extends (h h' : Heap (List ObjId)) : Prop where
  size_le : h.size ≤ h'.size
  old : ∀ y, y < h.size → h'.get y = h.get y
  closed : ∀ y z, h.size ≤ y → h'.Slot y z → h.size ≤ z
  bare : ∀ y o, h.size ≤ y → h'.get y = some o → Bare o

theorem Extends.refl (h : Heap (List ObjId)) : Extends h h := by
  refine ⟨Nat.le_refl _, fun _ _ => rfl, fun y z hy hyz => ?_, fun y o hy ho => ?_⟩
  · obtain ⟨o, ho, -⟩ := hyz
    exact absurd (Heap.lt_size_of_get ho) (Nat.not_lt.mpr hy)
  · exact absurd (Heap.lt_size_of_get ho) (Nat.not_lt.mpr hy)

theorem Extends.slot (he : Extends h h') {z : ObjId} (hy : y < h.size) (hyz : h'.Slot y z) :
    h.Slot y z := by
  obtain ⟨o, ho, hz⟩ := hyz
  exact ⟨o, by rw [← he.old y hy, ho], hz⟩

theorem Extends.trans {h'' : Heap (List ObjId)} (h₁ : Extends h h') (h₂ : Extends h' h'') :
    Extends h h'' := by
  refine ⟨Nat.le_trans h₁.size_le h₂.size_le, fun y hy => ?_, fun y z hy hyz => ?_,
    fun y o hy ho => ?_⟩
  · rw [h₂.old y (Nat.lt_of_lt_of_le hy h₁.size_le), h₁.old y hy]
  · by_cases hnew : h'.size ≤ y
    · exact Nat.le_trans h₁.size_le (h₂.closed y z hnew hyz)
    · exact h₁.closed y z hy (h₂.slot (Nat.not_le.mp hnew) hyz)
  · by_cases hnew : h'.size ≤ y
    · exact h₂.bare y o hnew ho
    · exact h₁.bare y o hy (by rw [← h₂.old y (Nat.not_le.mp hnew), ho])

theorem extends_alloc (h : Heap (List ObjId)) (hslots : o.slots = []) (hbare : Bare o) :
    Extends h (h.alloc o).1 := by
  have hnew : ∀ y p, h.size ≤ y → (h.alloc o).1.get y = some p → p = o := by
    intro y p hy hp
    rw [Heap.get_alloc] at hp
    split_ifs at hp with heq
    · exact (Option.some.inj hp).symm
    · exact absurd (Heap.lt_size_of_get hp) (Nat.not_lt.mpr hy)
  refine ⟨by simp, fun y hy => ?_, fun y z hy hyz => ?_, fun y p hy hp => ?_⟩
  · rw [Heap.get_alloc, if_neg (Nat.ne_of_lt hy)]
  · obtain ⟨p, hp, hz⟩ := hyz
    rw [hnew y p hy hp, hslots] at hz
    cases hz
  · rw [hnew y p hy hp]
    exact hbare

/-- From an old object only old objects are reached, on the old paths. -/
theorem Extends.reached (he : Extends h h') (hs : Kept h owned lib) (hx : x < h.size)
    (hxy : Relation.ReflTransGen h'.Slot x y) :
    y < h.size ∧ Relation.ReflTransGen h.Slot x y := by
  induction hxy with
  | refl => exact ⟨hx, .refl⟩
  | tail _ hyz ih =>
    have hyz := he.slot ih.1 hyz
    obtain ⟨p, hp⟩ := hs.live_of_slotsTo (Heap.slotsTo_pos_iff.mpr ⟨_, hyz⟩)
    exact ⟨Heap.lt_size_of_get hp, ih.2.tail hyz⟩

/-- Nothing new holds an old object. -/
theorem Extends.slotsTo_eq_zero (he : Extends h h') (hx : x < h.size) (hzero : h.slotsTo x = 0) :
    h'.slotsTo x = 0 := by
  by_contra hne
  obtain ⟨y, hy⟩ := Heap.slotsTo_pos_iff.mp (Nat.pos_of_ne_zero hne)
  by_cases hnew : h.size ≤ y
  · exact absurd hx (Nat.not_lt.mpr (he.closed y x hnew hy))
  · have hpos := Heap.slotsTo_pos_iff.mpr ⟨y, he.slot (Nat.not_le.mp hnew) hy⟩
    omega

/-! ## Giving objects to containers -/

/-- An object just made, which nothing holds yet. -/
structure Fresh (h : Heap (List ObjId)) (owned lib : ObjId → ℕ) (z : ObjId) : Prop where
  kept : Kept h (Function.update owned z 1) lib
  unowned : owned z = 0
  root : h.slotsTo z = 0

theorem Fresh.countsUpTo {z : ObjId} (hz : Fresh h owned lib z) : CountsUpTo h z 1 := by
  intro o ho
  have hpos : 0 < allOwned (Function.update owned z 1) lib z + h.slotsTo z := by
    simp only [allOwned, Function.update_self]
    omega
  obtain ⟨p, hp, hcount⟩ := hz.kept.sound.accounted z hpos
  obtain rfl : o = p := Option.some.inj (ho.symm.trans hp)
  have hheld := hz.kept.held z
  simp only [allOwned, Function.update_self, hz.root] at hcount hheld
  omega

/-- The reference that its creator got stays with the library. -/
theorem Fresh.give {z : ObjId} (hz : owned z = 0) (hs : Kept h (Function.update owned z 1) lib)
    (hslot : h.Slot d z) : Kept h owned (Function.update lib z (lib z + 1)) := by
  have howned : Function.update (Function.update owned z 1) z (1 - 1) = owned := by
    rw [Function.update_idem, Nat.sub_self, ← hz, Function.update_eq_self]
  have hmove := hs.move (by rw [Function.update_self]; exact Nat.one_pos)
    (Heap.slotsTo_pos_iff.mpr ⟨d, hslot⟩)
  rwa [Function.update_self, howned] at hmove

theorem Fresh.dictionarySet {z : ObjId} {ps : Pairs} {k : CString} (hz : Fresh h owned lib z)
    (hd : h.get d = some o) (ho : o.xoU = .dictionary ps) (hk : ps.lookup k = none)
    (hno : ¬ Relation.ReflTransGen h.Slot z d) :
    ∃ h' lib', xpcDictionarySetValue h d k z = .ok h' ∧ Kept h' owned lib' ∧ Adds h h' d [z] ∧
      ∃ o', h'.get d = some o' ∧ o'.xoU = .dictionary (ps ++ [(k, z)]) := by
  have husable : 0 < Function.update owned z 1 z + h.slotsTo z := by
    rw [Function.update_self]
    omega
  obtain ⟨h', he, hs', hadds, o', ho', hu'⟩ :=
    hz.kept.dictionarySet hd ho husable (.inr ⟨hk, hz.countsUpTo, hno⟩)
  rw [upsert_of_notMem (notMem_of_lookup_eq_none hk)] at hu'
  have hslot : h'.Slot d z := ⟨o', ho', by simp [XpcObject.slots, hu', Payload.slots]⟩
  exact ⟨h', _, he, Fresh.give hz.unowned hs' hslot, hadds, o', ho', hu'⟩

theorem Fresh.append {z a : ObjId} {es : List ObjId} (hz : Fresh h owned lib z)
    (ha : h.get a = some o) (ho : o.xoU = .array es) (hno : ¬ Relation.ReflTransGen h.Slot z a) :
    ∃ h' lib', Arrays.xpcArrayAppendValue h a z = .ok h' ∧ Kept h' owned lib' ∧ Adds h h' a [z] ∧
      ∃ o', h'.get a = some o' ∧ o'.xoU = .array (es ++ [z]) := by
  have husable : 0 < Function.update owned z 1 z + h.slotsTo z := by
    rw [Function.update_self]
    omega
  obtain ⟨h', he, hs', hadds, o', ho', hu'⟩ :=
    hz.kept.append ha ho husable ⟨hz.countsUpTo, hno⟩
  have hslot : h'.Slot a z := ⟨o', ho', by simp [XpcObject.slots, hu', Payload.slots]⟩
  exact ⟨h', _, he, Fresh.give hz.unowned hs' hslot, hadds, o', ho', hu'⟩

theorem Kept.fresh_alloc (hs : Kept h owned lib) (hslots : o.slots = []) (hone : o.xoRefcnt = 1)
    (hunsized : o.UnsizedArray) (hkeys : KeysDistinct o) : Fresh (h.alloc o).1 owned lib h.size := by
  have hzero := hs.outside (Nat.le_refl h.size)
  refine ⟨hs.alloc hslots hone hunsized hkeys, hzero.1, ?_⟩
  rw [Heap.slotsTo, Heap.total_alloc, hslots]
  exact hzero.2.2

theorem Kept.fresh_leaf (hs : Kept h owned lib) (v : Leaf) :
    Fresh (leafCreate h v).1 owned lib h.size :=
  hs.fresh_alloc rfl rfl (fun _ he => by cases he) (fun _ he => by cases he)

theorem extends_leaf (h : Heap (List ObjId)) {v : Leaf} (hv : Bufferless v) :
    Extends h (leafCreate h v).1 := by
  have hbare : Bare (⟨0, 1, v.size, .leaf v, v.sizeOk⟩ : XpcObject (List ObjId)) := hv
  exact extends_alloc h rfl hbare

/-- Nothing old is reached from what is new. -/
theorem Extends.not_reached {z : ObjId} (he : Extends h h') (hz : h.size ≤ z) (hd : d < h.size) :
    ¬ Relation.ReflTransGen h'.Slot z d := by
  intro hpath
  have hnew : ∀ {y}, Relation.ReflTransGen h'.Slot z y → h.size ≤ y := by
    intro y hy
    induction hy with
    | refl => exact hz
    | tail _ hyz ih => exact he.closed _ _ ih hyz
  exact absurd hd (Nat.not_lt.mpr (hnew hpath))

theorem Adds.bare {values : List ObjId} {k : ℕ} (ha : Adds h h' d values)
    (hbare : ∀ y o, k ≤ y → h.get y = some o → Bare o)
    (hd : ∀ o, h'.get d = some o → Bare o) (y : ObjId) (o : XpcObject (List ObjId)) (hy : k ≤ y)
    (ho : h'.get y = some o) : Bare o := by
  by_cases hyd : y = d
  · exact hd o (hyd ▸ ho)
  · obtain ⟨p, hp⟩ := (ha.live y o ho).resolve_left hyd
    obtain ⟨o₁, ho₁, hu, -⟩ := ha.keeps.get_of_get hyd hp
    obtain rfl : o = o₁ := Option.some.inj (ho.symm.trans ho₁)
    have hold := hbare y p hy hp
    rwa [Bare, ← hu] at hold

theorem Kept.dictionarySetLeaf {ps : Pairs} {k : CString} {v : Leaf} (hs : Kept h owned lib)
    (hd : h.get d = some o) (ho : o.xoU = .dictionary ps) (hv : Bufferless v)
    (hk : ps.lookup k = none) :
    ∃ h' lib', OpenXPC.dictionarySetLeaf h d k v = .ok h' ∧ Kept h' owned lib' ∧
      ∀ y p, h.size ≤ y → h'.get y = some p → Bare p := by
  have hext := extends_leaf h hv
  have hd₁ : (leafCreate h v).1.get d = some o := Heap.get_alloc_of_get hd _
  have hno := hext.not_reached (Nat.le_refl _) (Heap.lt_size_of_get hd)
  obtain ⟨h', lib', he, hs', hadds, o', ho', hu'⟩ := (hs.fresh_leaf v).dictionarySet hd₁ ho hk hno
  refine ⟨h', lib', he, hs', hadds.bare hext.bare (fun p hp => ?_)⟩
  obtain rfl : o' = p := Option.some.inj (ho'.symm.trans hp)
  exact bare_dictionary hu'

theorem Kept.arraySetLeaf {a : ObjId} {es : List ObjId} {v : Leaf} (hs : Kept h owned lib)
    (ha : h.get a = some o) (ho : o.xoU = .array es) (hv : Bufferless v) :
    ∃ h' lib', Arrays.arraySetLeaf h a xpcArrayAppend v = .ok h' ∧ Kept h' owned lib' ∧
      ∀ y p, h.size ≤ y → h'.get y = some p → Bare p := by
  have hext := extends_leaf h hv
  have ha₁ : (leafCreate h v).1.get a = some o := Heap.get_alloc_of_get ha _
  have hno := hext.not_reached (Nat.le_refl _) (Heap.lt_size_of_get ha)
  obtain ⟨h', lib', he, hs', hadds, o', ho', hu'⟩ := (hs.fresh_leaf v).append ha₁ ho hno
  have hset : Arrays.arraySetLeaf h a xpcArrayAppend v = .ok h' :=
    (if_pos rfl : Arrays.xpcArraySetValue _ a xpcArrayAppend h.size = _).trans he
  refine ⟨h', lib', hset, hs', hadds.bare hext.bare (fun p hp => ?_)⟩
  obtain rfl : o' = p := Option.some.inj (ho'.symm.trans hp)
  exact bare_array hu'

/-! ## Copying -/

/-- Setting a pair writes the dictionary and counts the value. -/
theorem dictionarySet_other {k : CString} (he : xpcDictionarySetValue h d k v = .ok h') (hyd : y ≠ d)
    (hyv : y ≠ v) : h'.get y = h.get y := by
  obtain ⟨o, ps, hd, -, hcase⟩ := xpcDictionarySetValue_cases he
  rcases hcase with ⟨qs, -, rfl⟩ | ⟨-, he⟩
  · rw [Heap.get_set hd, if_neg hyd]
  · obtain ⟨w, hw, he⟩ := bind_eq_ok.mp he
    cases he
    rw [Heap.get_set (Heap.get_of_deref hw), if_neg hyv, Heap.get_set hd, if_neg hyd]

/-- A new object goes into a new container. -/
theorem Extends.adds {h₁ : Heap (List ObjId)} {z : ObjId} (he : Extends h h₁) (ha : Adds h₁ h' d [z])
    (hother : ∀ y, y ≠ d → y ≠ z → h'.get y = h₁.get y) (hd : h.size ≤ d) (hz : h.size ≤ z)
    (hbare : ∀ o, h'.get d = some o → Bare o) : Extends h h' := by
  refine ⟨Nat.le_trans he.size_le ha.keeps.size_le, fun y hy => ?_, fun y u hy hyu => ?_,
    ha.bare he.bare hbare⟩
  · have hyd : y ≠ d := Nat.ne_of_lt (Nat.lt_of_lt_of_le hy hd)
    have hyz : y ≠ z := Nat.ne_of_lt (Nat.lt_of_lt_of_le hy hz)
    rw [hother y hyd hyz, he.old y hy]
  · rcases ha.slot hyu with hyu | ⟨-, hu⟩
    · exact he.closed y u hy hyu
    · rwa [List.mem_singleton.mp hu]

/-- A copy is a new object with an owner, or NULL, where nothing is made. -/
def Copied (h h' : Heap (List ObjId)) (owned : ObjId → ℕ) : Option ObjId → Prop
  | none => h' = h
  | some y => y = h.size ∧ Extends h h' ∧ ∃ lib, Fresh h' owned lib y

/-- A dictionary under construction, on top of what was there before. -/
structure Filling (h₀ h : Heap (List ObjId)) (owned : ObjId → ℕ) (pairs : Pairs) : Prop where
  grows : Extends h₀ h
  fresh : ∃ lib, Fresh h owned lib h₀.size
  container : ∃ o, h.get h₀.size = some o ∧ o.xoU = .dictionary pairs

theorem Filling.insert {h₀ h₁ : Heap (List ObjId)} {ps : Pairs} {k : CString} {z : ObjId}
    (hf : Filling h₀ h owned ps) (hk : ps.lookup k = none)
    (hc : Copied h h₁ (Function.update owned h₀.size 1) (some z))
    (he : xpcDictionarySetValue h₁ h₀.size k z = .ok h') :
    Filling h₀ h' owned (ps ++ [(k, z)]) := by
  obtain ⟨rfl, hext, lib₁, hz⟩ := hc
  obtain ⟨lib, hd⟩ := hf.fresh
  obtain ⟨o, ho, hu⟩ := hf.container
  have hlt := Heap.lt_size_of_get ho
  have ho₁ : h₁.get h₀.size = some o := by rw [hext.old _ hlt, ho]
  have hno := hext.not_reached (Nat.le_refl _) hlt
  obtain ⟨h₂, lib₂, he₂, hs₂, hadds, o₂, ho₂, hu₂⟩ := hz.dictionarySet ho₁ hu hk hno
  obtain rfl : h₂ = h' := Except.ok.inj (he₂.symm.trans he)
  have hbare : ∀ p, h₂.get h₀.size = some p → Bare p := by
    intro p hp
    obtain rfl : o₂ = p := Option.some.inj (ho₂.symm.trans hp)
    exact bare_dictionary hu₂
  refine ⟨(hf.grows.trans hext).adds hadds (fun y => dictionarySet_other he) (Nat.le_refl _)
    hf.grows.size_le hbare, ⟨lib₂, hs₂, hd.unowned, ?_⟩, o₂, ho₂, hu₂⟩
  -- the new slot holds the copy, which is not the dictionary
  by_contra hne
  obtain ⟨y, hy⟩ := Heap.slotsTo_pos_iff.mp (Nat.pos_of_ne_zero hne)
  rcases hadds.slot hy with hy | ⟨-, hmem⟩
  · have hpos := Heap.slotsTo_pos_iff.mpr ⟨y, hy⟩
    have hzero := hext.slotsTo_eq_zero hlt hd.root
    omega
  · exact absurd (List.mem_singleton.mp hmem) (Nat.ne_of_lt hlt)

theorem CopiedWhole.of_get_eq (hw : CopiedWhole h o) (hsame : ∀ e ∈ o.slots, h'.get e = h.get e) :
    CopiedWhole h' o := by
  unfold CopiedWhole at hw ⊢
  unfold XpcObject.slots at hsame
  cases hu : o.xoU with
  | leaf v =>
    rw [hu] at hw
    cases v <;> exact hw
  | dictionary ps => trivial
  | array es =>
    rw [hu] at hw hsame
    intro e he p hp
    exact hw e he p (by rw [← hsame e he, hp])

/-- Nothing is made of the object, or one object that is retained. -/
def CopiesWell (n : ℕ) : Prop :=
  ∀ {h h' : Heap (List ObjId)} {owned lib : ObjId → ℕ} {x : ObjId} {r : Option ObjId},
    Kept h owned lib →
    (∀ y o, Relation.ReflTransGen h.Slot x y → h.get y = some o → CopiedWhole h o) →
    xpcCopy n h x = .ok (h', r) → Copied h h' owned r

theorem Filling.copyPairs {n : ℕ} {h₀ : Heap (List ObjId)} {qs ps : Pairs} {b : Bool}
    (ih : CopiesWell n) (hs : Kept h₀ owned lib) (hf : Filling h₀ h owned ps)
    (hkeys : ((ps ++ qs).map Prod.fst).Nodup)
    (hwhole : ∀ q ∈ qs, q.2 < h₀.size ∧ ∀ y o, Relation.ReflTransGen h₀.Slot q.2 y →
      h₀.get y = some o → CopiedWhole h₀ o)
    (he : applyPairs (fun k v h => do
        let (h, copy) ← xpcCopy n h v
        let h ← dictCopyCb h₀.size k h copy
        .ok (h, true)) qs h = .ok (h', b)) : ∃ ps', Filling h₀ h' owned ps' := by
  induction qs generalizing h ps with
  | nil =>
    cases he
    exact ⟨ps, hf⟩
  | cons q qs ihq =>
    obtain ⟨k, x⟩ := q
    obtain ⟨⟨h₂, go⟩, happ, he⟩ := bind_eq_ok.mp he
    obtain ⟨⟨h₁, r⟩, hcopy, happ⟩ := bind_eq_ok.mp happ
    obtain ⟨h₃, hset, happ⟩ := bind_eq_ok.mp happ
    cases happ
    obtain ⟨hlt, hbelow⟩ := hwhole (k, x) List.mem_cons_self
    obtain ⟨lib₁, hd⟩ := hf.fresh
    have hcopied : Copied h h₁ (Function.update owned h₀.size 1) r := by
      refine ih hd.kept (fun y o hy ho => ?_) hcopy
      obtain ⟨hy₀, hy⟩ := hf.grows.reached hs hlt hy
      rw [hf.grows.old y hy₀] at ho
      refine (hbelow y o hy ho).of_get_eq (fun e he => hf.grows.old e ?_)
      obtain ⟨p, hp⟩ := hs.live_of_slotsTo (Heap.slotsTo_pos_iff.mpr ⟨y, o, ho, he⟩)
      exact Heap.lt_size_of_get hp
    cases r with
    | none => cases hset
    | some z =>
      have hk : ps.lookup k = none := by
        by_contra hne
        obtain ⟨u, hu⟩ := Option.ne_none_iff_exists'.mp hne
        rw [List.map_append, List.nodup_append] at hkeys
        exact hkeys.2.2 k (mem_of_lookup_eq_some hu) k List.mem_cons_self rfl
      refine ihq (hf.insert hk hcopied hset) ?_ ?_ he
      · simpa using hkeys
      · exact fun q hq => hwhole q (List.mem_cons_of_mem _ hq)

theorem Copied.grows {r : Option ObjId} (hc : Copied h h' owned r) : Extends h h' := by
  cases r with
  | none =>
    cases hc
    exact .refl h
  | some y => exact hc.2.1

theorem xpcCopy_uncopied {n : ℕ} {v : Leaf} {r : Option ObjId} (hx : h.get x = some o)
    (ho : o.xoU = .leaf v) (hv : ¬ v.Copyable) (he : xpcCopy n h x = .ok (h', r)) :
    h' = h ∧ r = none := by
  cases n with
  | zero => cases he
  | succ n =>
    have hleaf : copyLeaf h v = (h', r) := by
      simpa [xpcCopy, Heap.deref_of_get hx, ho] using he
    have hnone : copyLeaf h v = (h, none) := by
      cases v <;> first | rfl | exact absurd trivial hv
    obtain ⟨hh, hr⟩ := Prod.mk.inj (hleaf.symm.trans hnone)
    exact ⟨hh, hr⟩

/-- Where nothing is copied there is nothing to set. -/
theorem applyElems_uncopied {n i : ℕ} {a : ObjId} {es : List ObjId} {b : Bool}
    (hes : ∀ e ∈ es, ∃ p, h.get e = some p ∧ ∃ v, p.xoU = .leaf v ∧ ¬ v.Copyable)
    (he : Arrays.applyElems (fun idx v h => do
        let (h, copy) ← xpcCopy n h v
        let h ← arrayCopyCb a idx h copy
        .ok (h, true)) i es h = .ok (h', b)) : h' = h := by
  induction es generalizing i with
  | nil =>
    cases he
    rfl
  | cons e es ih =>
    obtain ⟨p, hp, v, hu, hv⟩ := hes e List.mem_cons_self
    obtain ⟨⟨h₃, go⟩, happ, hrest⟩ := bind_eq_ok.mp he
    obtain ⟨⟨h₁, r⟩, hcopy, happ⟩ := bind_eq_ok.mp happ
    obtain ⟨h₂, hset, happ⟩ := bind_eq_ok.mp happ
    cases happ
    obtain ⟨rfl, rfl⟩ := xpcCopy_uncopied hp hu hv hcopy
    obtain ⟨q, -, hset⟩ := bind_eq_ok.mp hset
    split_ifs at hset
    cases hset
    exact ih (fun e he => hes e (List.mem_cons_of_mem _ he)) hrest

theorem copied_leaf {v : Leaf} (hs : Kept h owned lib) (ho : o.xoU = .leaf v) (hwhole : CopiedWhole h o) :
    Copied h (copyLeaf h v).1 owned (copyLeaf h v).2 := by
  rw [CopiedWhole, ho] at hwhole
  have hmade : v.Copyable → Bufferless v → Copied h (copyLeaf h v).1 owned (copyLeaf h v).2 := by
    intro hc hb
    rw [copyLeaf_ok hc]
    exact ⟨rfl, extends_leaf h hb, lib, hs.fresh_leaf v⟩
  cases v with
  | null => rfl
  | double bits => rfl
  | fd file => rfl
  | uuid bytes => rfl
  | connection busname => rfl
  | string str => exact hwhole.elim
  | data bytes => exact hwhole.elim
  | bool value => exact hmade trivial trivial
  | int64 value => exact hmade trivial trivial
  | uint64 value => exact hmade trivial trivial
  | date interval => exact hmade trivial trivial
  | endpoint port => exact hmade trivial trivial

/-- The induction is on the depth of the object. -/
theorem copiesWell (n : ℕ) : CopiesWell n := by
  induction n with
  | zero =>
    intro h h' owned lib x r hs hwhole he
    cases he
  | succ n ih =>
    intro h h' owned lib x r hs hwhole he
    obtain ⟨o, ho, he⟩ := bind_eq_ok.mp he
    have hx := Heap.get_of_deref ho
    have hroot := hwhole x o .refl hx
    cases hu : o.xoU with
    | leaf v =>
      rw [hu] at he
      obtain ⟨rfl, rfl⟩ : (copyLeaf h v).1 = h' ∧ (copyLeaf h v).2 = r :=
        Prod.mk.inj (Except.ok.inj he)
      exact copied_leaf hs hu hroot
    | array es =>
      rw [hu] at he
      rw [CopiedWhole, hu] at hroot
      obtain ⟨⟨h₁, a⟩, hcreate, he⟩ := bind_eq_ok.mp he
      cases hcreate
      obtain ⟨⟨h₂, b⟩, happly, he⟩ := bind_eq_ok.mp he
      cases he
      let new : XpcObject (List ObjId) := ⟨0, 1, 0, .array [], trivial⟩
      have helems := (Arrays.xpcArrayApplyFun_of_get (Heap.get_alloc_of_get hx new) hu _ _).symm.trans
        happly
      have huncopied : ∀ e ∈ es, ∃ p, (h.alloc new).1.get e = some p ∧
          ∃ v, p.xoU = .leaf v ∧ ¬ v.Copyable := by
        intro e hmem
        have hslot : h.Slot x e := ⟨o, hx, by rwa [XpcObject.slots, hu]⟩
        obtain ⟨p, hp⟩ := hs.live_of_slotsTo (Heap.slotsTo_pos_iff.mpr ⟨x, hslot⟩)
        exact ⟨p, Heap.get_alloc_of_get hp new, hroot e hmem p hp⟩
      obtain rfl := applyElems_uncopied huncopied helems
      exact ⟨rfl, extends_alloc h rfl trivial, lib, hs.fresh_alloc rfl rfl (fun _ _ => rfl)
        (fun _ he => by cases he)⟩
    | dictionary ps =>
      rw [hu] at he
      obtain ⟨⟨h₁, d⟩, hcreate, he⟩ := bind_eq_ok.mp he
      cases hcreate
      obtain ⟨⟨h₂, b⟩, happly, he⟩ := bind_eq_ok.mp he
      cases he
      let new : XpcObject (List ObjId) := ⟨0, 1, 0, .dictionary [], trivial⟩
      have hpairs := (xpcDictionaryApplyFun_of_get (Heap.get_alloc_of_get hx new) hu _ _).symm.trans
        happly
      have hfresh : Fresh (h.alloc new).1 owned lib h.size :=
        hs.fresh_alloc rfl rfl (fun _ he => by cases he) (fun _ he => by cases he; exact List.nodup_nil)
      have hf : Filling h (h.alloc new).1 owned [] :=
        ⟨extends_alloc h rfl trivial, ⟨lib, hfresh⟩, new, by rw [Heap.get_alloc, if_pos rfl], rfl⟩
      have hbelow : ∀ q ∈ ps, q.2 < h.size ∧ ∀ y o, Relation.ReflTransGen h.Slot q.2 y →
          h.get y = some o → CopiedWhole h o := by
        intro q hq
        have hslot : h.Slot x q.2 := ⟨o, hx, by rw [XpcObject.slots, hu]; exact List.mem_map_of_mem hq⟩
        obtain ⟨p, hp⟩ := hs.live_of_slotsTo (Heap.slotsTo_pos_iff.mpr ⟨x, hslot⟩)
        exact ⟨Heap.lt_size_of_get hp, fun y o hy => hwhole y o (.head hslot hy)⟩
      obtain ⟨ps', hf'⟩ := hf.copyPairs ih hs (hs.keys x o hx ps hu) hbelow hpairs
      exact ⟨rfl, hf'.grows, hf'.fresh⟩

end OpenXPC.Ownership
