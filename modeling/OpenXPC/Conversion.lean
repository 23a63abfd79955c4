import OpenXPC.Destruction
import OpenXPC.PropertyLists
import OpenXPC.Trees

/-! # Converting property lists

`newXPCObject` builds the XPC object of a Foundation object. A container is created
empty; each child is converted, inserted, which retains it, and released. -/
namespace OpenXPC
open InsertionMap

def stopAt {α : Type} (r : Except Fault α) : Except Stop α := r.mapError .fault

namespace NSObject

def respondsToNewXPCObject : NSObject → Bool
  | .date => false
  | _ => true

mutual

/-- A number of another encoding has NULL as its conversion. -/
def newXPCObject (h : Heap (List ObjId)) :
    NSObject → Except Stop (Heap (List ObjId) × Option ObjId)
  | .string s => let (h, x) := xpcStringCreate h s.utf8String; .ok (h, some x)
  | .data bytes => let (h, x) := xpcDataCreate h bytes; .ok (h, some x)
  | .fileHandle file => let (h, x) := xpcFdCreate h file; .ok (h, some x)
  | .number (.bool b) => let (h, x) := xpcBoolCreate h b; .ok (h, some x)
  | .number (.unsignedLong u) => let (h, x) := xpcUint64Create h u; .ok (h, some x)
  | .number (.long i) => let (h, x) := xpcInt64Create h i; .ok (h, some x)
  | .number (.double d) => let (h, x) := xpcDoubleCreate h d; .ok (h, some x)
  | .number (.other _) => .ok (h, none)
  | .date => .error .unrecognizedSelector
  | .array objects => do
    let (h, arr) ← stopAt (Arrays.xpcArrayCreate h [])
    let h ← addObjects h arr objects
    .ok (h, some arr)
  | .dictionary entries => do
    let (h, xpc) ← stopAt (xpcDictionaryCreate h [])
    let h ← addEntries h xpc entries
    .ok (h, some xpc)

def addObjects (h : Heap (List ObjId)) (arr : ObjId) :
    List NSObject → Except Stop (Heap (List ObjId))
  | [] => .ok h
  | value :: objects => do
    let (h, xpc) ← newXPCObject h value
    match xpc with
    | none => .error (.fault .nullValue)
    | some xpc =>
      let h ← stopAt (Arrays.xpcArraySetValue h arr xpcArrayAppend xpc)
      let h ← stopAt (xpcRelease h xpc)
      addObjects h arr objects

/-- A value without a conversion is logged and left out. -/
def addEntries (h : Heap (List ObjId)) (xpc : ObjId) :
    List (NSString × NSObject) → Except Stop (Heap (List ObjId))
  | [] => .ok h
  | (key, value) :: entries => do
    if value.respondsToNewXPCObject then
      let (h, valxpc) ← newXPCObject h value
      match valxpc with
      | none => .error (.fault .nullValue)
      | some valxpc =>
        let h ← stopAt (xpcDictionarySetValue h xpc key.utf8String valxpc)
        let h ← stopAt (xpcRelease h valxpc)
        addEntries h xpc entries
    else
      addEntries h xpc entries

end

mutual

/-- The tree has the shape of the object, with the same keys and, at each leaf, the
type and the payload of the value; `text` compares the strings. -/
def Isomorphic (text : NSString → CString → Prop) : NSObject → Tree → Prop
  | .string s, .leaf (.string c) => text s c
  | .data bytes, .leaf v => v = .data bytes
  | .fileHandle file, .leaf v => v = .fd file
  | .number (.bool b), .leaf v => v = .bool b
  | .number (.unsignedLong u), .leaf v => v = .uint64 u
  | .number (.long i), .leaf v => v = .int64 i
  | .number (.double d), .leaf v => v = .double d
  | .array objects, .array ts => IsomorphicObjects text objects ts
  | .dictionary entries, .dictionary ps => IsomorphicEntries text entries ps
  | _, _ => False

def IsomorphicObjects (text : NSString → CString → Prop) : List NSObject → List Tree → Prop
  | [], [] => True
  | v :: vs, t :: ts => Isomorphic text v t ∧ IsomorphicObjects text vs ts
  | _, _ => False

def IsomorphicEntries (text : NSString → CString → Prop) :
    List (NSString × NSObject) → List (CString × Tree) → Prop
  | [], [] => True
  | (k, v) :: es, (j, t) :: ps =>
      (k.utf8String = j ∧ Isomorphic text v t) ∧ IsomorphicEntries text es ps
  | _, _ => False

end

end NSObject

/-! ## Owning the result -/

section Releasing

variable {h : Heap (List ObjId)} {c x : ObjId} {o w : XpcObject (List ObjId)}

theorem Heap.set_of_get (hx : h.get x = some o) (w : XpcObject (List ObjId)) :
    (h.set x w).set x o = h := by
  have hcell : h.objs[x]? = some (some o) := Option.join_eq_some_iff.mp hx
  obtain ⟨hlt, hval⟩ := List.getElem?_eq_some_iff.mp hcell
  simp only [Heap.set, List.set_set, ← hval, List.set_getElem_self]

/-- The release takes back what the insertion has retained. -/
theorem xpcRetain_release (hx : h.get x = some o) (hone : o.xoRefcnt = 1) :
    ∃ h', xpcRetain h x = .ok h' ∧ xpcRelease h' x = .ok h := by
  refine ⟨_, xpcRetain_of_get hx, ?_⟩
  have hset : (h.set x o.retained).get x = some o.retained := by rw [Heap.get_set hx, if_pos rfl]
  have hback : o.retained.released = o := by
    simp [XpcObject.retained, XpcObject.released]
  have hlive : o.retained.xoRefcnt - 1 > 0 := by
    change o.xoRefcnt + 1 - 1 > 0
    rw [hone]
    decide
  rw [xpcRelease, Heap.deref_of_get hset, ok_bind, if_pos hlive, hback, Heap.set_of_get hx]

end Releasing

/-- What is new between the two heaps are the object `h.size` and what is below it,
each with a count of one; nothing else has changed. -/
structure Grows (h h' : Heap (List ObjId)) : Prop where
  size_lt : h.size < h'.size
  old : ∀ {y}, y < h.size → h'.get y = h.get y
  count : ∀ {y}, h.size ≤ y → y < h'.size → ∃ o, h'.get y = some o ∧ o.xoRefcnt = 1
  reached : ∀ {y}, h.size ≤ y → y < h'.size → Relation.ReflTransGen h'.Slot h.size y

namespace Grows

variable {h₀ h h₁ : Heap (List ObjId)} {o o' : XpcObject (List ObjId)}

theorem alloc (h : Heap (List ObjId)) (hone : o.xoRefcnt = 1) : Grows h (h.alloc o).1 := by
  have hnew : ∀ {y}, h.size ≤ y → y < (h.alloc o).1.size → y = h.size := by
    intro y hle hlt
    rw [Heap.size_alloc] at hlt
    omega
  refine ⟨by simp, fun hlt => ?_, fun hle hlt => ?_, fun hle hlt => ?_⟩
  · rw [Heap.get_alloc, if_neg (Nat.ne_of_lt hlt)]
  · rw [hnew hle hlt]
    exact ⟨o, by rw [Heap.get_alloc, if_pos rfl], hone⟩
  · rw [hnew hle hlt]

theorem keeps (hg : Grows h h₁) : h.Keeps h₁ := by
  refine ⟨Nat.le_of_lt hg.size_lt, fun {y o} hy => ⟨o, ?_, rfl, rfl⟩⟩
  rw [hg.old (Heap.lt_size_of_get hy), hy]

/-- A slot for the object just made is added to the container under construction. -/
theorem extend (hg : Grows h₀ h) (hc : Grows h h₁) (ho : h₁.get h₀.size = some o)
    (hcount : o'.xoRefcnt = o.xoRefcnt) (hslots : o'.slots = o.slots ++ [h.size]) :
    Grows h₀ (h₁.set h₀.size o') := by
  have hlt := hg.size_lt
  have hlt₁ := hc.size_lt
  have hother : ∀ {y}, y ≠ h₀.size → (h₁.set h₀.size o').get y = h₁.get y := by
    intro y hy
    rw [Heap.get_set ho, if_neg hy]
  have hroot : (h₁.set h₀.size o').get h₀.size = some o' := by rw [Heap.get_set ho, if_pos rfl]
  have hslot : ∀ {x y}, h₁.Slot x y → (h₁.set h₀.size o').Slot x y := by
    intro x y hxy
    obtain ⟨p, hp, hy⟩ := hxy
    by_cases hx : x = h₀.size
    · subst hx
      obtain rfl : o = p := Option.some.inj (ho.symm.trans hp)
      exact ⟨o', hroot, by rw [hslots]; exact List.mem_append_left _ hy⟩
    · exact ⟨p, by rw [hother hx, hp], hy⟩
  have hearlier : ∀ {x y}, h.Slot x y → h₁.Slot x y := by
    intro x y hxy
    obtain ⟨p, hp, hy⟩ := hxy
    exact ⟨p, by rw [hc.old (Heap.lt_size_of_get hp), hp], hy⟩
  constructor
  · rw [Heap.size_set]
    omega
  · intro y hy
    rw [hother (Nat.ne_of_lt hy), hc.old (by omega), hg.old hy]
  · intro y hle hy
    rw [Heap.size_set] at hy
    have hone : ∃ p, h₁.get y = some p ∧ p.xoRefcnt = 1 := by
      by_cases hyh : y < h.size
      · rw [hc.old hyh]
        exact hg.count hle hyh
      · exact hc.count (by omega) hy
    obtain ⟨p, hp, hpone⟩ := hone
    by_cases hyd : y = h₀.size
    · subst hyd
      obtain rfl : o = p := Option.some.inj (ho.symm.trans hp)
      exact ⟨o', hroot, hcount.trans hpone⟩
    · exact ⟨p, by rw [hother hyd, hp], hpone⟩
  · intro y hle hy
    rw [Heap.size_set] at hy
    by_cases hyh : y < h.size
    · exact Relation.ReflTransGen.mono (fun _ _ hxy => hslot (hearlier hxy)) _ _ (hg.reached hle hyh)
    · have hchild : (h₁.set h₀.size o').Slot h₀.size h.size := ⟨o', hroot, by simp [hslots]⟩
      have hbelow := hc.reached (by omega) hy
      exact .head hchild (Relation.ReflTransGen.mono (fun _ _ hxy => hslot hxy) _ _ hbelow)

end Grows

/-- The tree was built on top of the heap: its nodes are the new objects, one each. -/
structure Builds (h h' : Heap (List ObjId)) (t : Tree) : Prop where
  tree : TreeFrom h' h.size h.size t
  grows : Grows h h'
  nodes : h'.size = h.size + t.nodes

theorem builds_leafCreate (h : Heap (List ObjId)) (v : Leaf) :
    Builds h (leafCreate h v).1 (.leaf v) where
  tree := treeFrom_leafCreate h v
  grows := Grows.alloc h rfl
  nodes := Heap.size_alloc h _

/-- An array under construction, with the trees of its elements. -/
structure BuildsElems (h₀ h : Heap (List ObjId)) (acc : List Tree) : Prop where
  elems : ∃ o es, h.get h₀.size = some o ∧ o.xoU = .array es ∧
    List.Forall₂ (TreeFrom h (h₀.size + 1)) es acc
  grows : Grows h₀ h
  nodes : h.size = h₀.size + Tree.nodesElems acc + 1

/-- A dictionary under construction, with the trees of its values. -/
structure BuildsPairs (h₀ h : Heap (List ObjId)) (acc : List (CString × Tree)) : Prop where
  pairs : ∃ o qs, h.get h₀.size = some o ∧ o.xoU = .dictionary qs ∧
    Related (TreeFrom h (h₀.size + 1)) qs acc
  grows : Grows h₀ h
  nodes : h.size = h₀.size + Tree.nodesPairs acc + 1

section Building

variable {h₀ h h₁ : Heap (List ObjId)} {t : Tree}

theorem buildsElems_create (h : Heap (List ObjId)) :
    ∃ h', Arrays.xpcArrayCreate h [] = .ok (h', h.size) ∧ BuildsElems h h' [] := by
  refine ⟨_, rfl, ⟨⟨0, 1, 0, .array [], trivial⟩, [], ?_, rfl, .nil⟩, Grows.alloc h rfl, ?_⟩
  · exact (Heap.get_alloc h _ _).trans (if_pos rfl)
  · exact Heap.size_alloc h _

theorem buildsPairs_create (h : Heap (List ObjId)) :
    ∃ h', xpcDictionaryCreate h [] = .ok (h', h.size) ∧ BuildsPairs h h' [] := by
  refine ⟨_, rfl, ⟨⟨0, 1, 0, .dictionary [], trivial⟩, [], ?_, rfl, .nil⟩, Grows.alloc h rfl, ?_⟩
  · exact (Heap.get_alloc h _ _).trans (if_pos rfl)
  · exact Heap.size_alloc h _

/-- The root of a tree just built, as the setter and the release find it once the
container has been written. -/
theorem Builds.root_of_set (hb : Builds h h₁ t) {d : ObjId} (hd : d < h.size)
    {o : XpcObject (List ObjId)} (ho : h₁.get d = some o) (o' : XpcObject (List ObjId)) :
    ∃ w, (h₁.set d o').get h.size = some w ∧ w.xoRefcnt = 1 := by
  obtain ⟨w, hw, hone⟩ := hb.grows.count (Nat.le_refl _) hb.grows.size_lt
  exact ⟨w, by rw [Heap.get_set ho, if_neg (Nat.ne_of_gt hd), hw], hone⟩

theorem BuildsElems.append {acc : List Tree} (ha : BuildsElems h₀ h acc) (hb : Builds h h₁ t) :
    ∃ h₂, Arrays.xpcArraySetValue h₁ h₀.size xpcArrayAppend h.size = .ok h₂ ∧
      ∃ h₃, xpcRelease h₂ h.size = .ok h₃ ∧ BuildsElems h₀ h₃ (acc ++ [t]) := by
  obtain ⟨o, es, ho, hu, hes⟩ := ha.elems
  have hlt := ha.grows.size_lt
  have ho₁ : h₁.get h₀.size = some o := by rw [hb.grows.old hlt, ho]
  have hslots : (o.withArr (es ++ [h.size])).slots = o.slots ++ [h.size] := by
    simp [XpcObject.withArr, XpcObject.slots, Payload.slots, hu]
  obtain ⟨w, hw, hone⟩ := hb.root_of_set hlt ho₁ (o.withArr (es ++ [h.size]))
  obtain ⟨h₂, hretain, hrelease⟩ := xpcRetain_release hw hone
  refine ⟨h₂, ?_, _, hrelease, ?_, ha.grows.extend hb.grows ho₁ rfl hslots, ?_⟩
  · simp only [Arrays.xpcArraySetValue, if_pos, Arrays.xpcArrayAppendValue, Heap.deref_of_get ho₁,
      XpcObject.arr_of_xoU hu, ok_bind, hretain]
  · refine ⟨o.withArr (es ++ [h.size]), _, by rw [Heap.get_set ho₁, if_pos rfl], rfl, ?_⟩
    have hkeep := Heap.keepsBut_set ho₁ (o.withArr (es ++ [h.size]))
    have hold := hes.imp (fun _ _ hx => hx.keeps (Nat.le_refl _) hb.grows.keeps)
    have hnew := List.rel_append hold (.cons (hb.tree.keeps hlt (Heap.Keeps.refl h₁)) .nil)
    exact hnew.imp (fun _ _ hx => hx.keepsBut (Nat.lt_succ_self _) hkeep)
  · rw [Heap.size_set, hb.nodes, ha.nodes, Tree.nodesElems_append]
    simp only [Tree.nodesElems]
    omega

/-- The key is not among those inserted before. -/
theorem BuildsPairs.insert {acc : List (CString × Tree)} (hd : BuildsPairs h₀ h acc)
    (hb : Builds h h₁ t) {k : CString} (hk : k ∉ acc.map Prod.fst) :
    ∃ h₂, xpcDictionarySetValue h₁ h₀.size k h.size = .ok h₂ ∧
      ∃ h₃, xpcRelease h₂ h.size = .ok h₃ ∧ BuildsPairs h₀ h₃ (acc ++ [(k, t)]) := by
  obtain ⟨o, qs, ho, hu, hqs⟩ := hd.pairs
  have hlt := hd.grows.size_lt
  have ho₁ : h₁.get h₀.size = some o := by rw [hb.grows.old hlt, ho]
  have hfresh : replace? k h.size qs = none := by
    rw [replace?_eq_none_iff, hqs.keys]
    exact hk
  have hslots : (o.withPairs (qs ++ [(k, h.size)]) (o.xoSize + 1)).slots = o.slots ++ [h.size] := by
    simp [XpcObject.withPairs, XpcObject.slots, Payload.slots, hu]
  obtain ⟨w, hw, hone⟩ :=
    hb.root_of_set hlt ho₁ (o.withPairs (qs ++ [(k, h.size)]) (o.xoSize + 1))
  obtain ⟨h₂, hretain, hrelease⟩ := xpcRetain_release hw hone
  refine ⟨h₂, ?_, _, hrelease, ?_, hd.grows.extend hb.grows ho₁ rfl hslots, ?_⟩
  · simp only [xpcDictionarySetValue, Heap.deref_of_get ho₁, XpcObject.dict_of_xoU hu, ok_bind,
      hfresh, hretain]
  · refine ⟨o.withPairs (qs ++ [(k, h.size)]) (o.xoSize + 1), _,
      by rw [Heap.get_set ho₁, if_pos rfl], rfl, ?_⟩
    have hkeep := Heap.keepsBut_set ho₁ (o.withPairs (qs ++ [(k, h.size)]) (o.xoSize + 1))
    have hold := hqs.mono (fun _ _ _ hx => hx.keeps (Nat.le_refl _) hb.grows.keeps)
    have hlast : TreeFrom h₁ (h₀.size + 1) h.size t := hb.tree.keeps hlt (Heap.Keeps.refl h₁)
    exact (hold.append k hlast).mono (fun _ _ _ hx => hx.keepsBut (Nat.lt_succ_self _) hkeep)
  · rw [Heap.size_set, hb.nodes, hd.nodes, Tree.nodesPairs_append]
    simp only [Tree.nodesPairs]
    omega

theorem BuildsElems.builds {ts : List Tree} (ha : BuildsElems h₀ h ts) :
    Builds h₀ h (.array ts) := by
  obtain ⟨o, es, ho, hu, hes⟩ := ha.elems
  refine ⟨treeFrom_array.mpr ⟨Nat.le_refl _, o, es, ho, hu, ?_⟩, ha.grows, ?_⟩
  · exact hes.imp (fun _ _ hx => hx.keeps (Nat.le_succ _) (Heap.Keeps.refl h))
  · rw [ha.nodes, Tree.nodes, Nat.add_assoc]

theorem BuildsPairs.builds {ps : List (CString × Tree)} (hd : BuildsPairs h₀ h ps) :
    Builds h₀ h (.dictionary ps) := by
  obtain ⟨o, qs, ho, hu, hqs⟩ := hd.pairs
  refine ⟨treeFrom_dictionary.mpr ⟨Nat.le_refl _, o, qs, ho, hu, ?_⟩, hd.grows, ?_⟩
  · exact hqs.mono (fun _ _ _ hx => hx.keeps (Nat.le_succ _) (Heap.Keeps.refl h))
  · rw [hd.nodes, Tree.nodes, Nat.add_assoc]

end Building

/-! ## Converting supported objects -/

namespace NSObject

/-- The string as far as its C string goes. -/
abbrev UpToNul (s : NSString) (c : CString) : Prop := c = s.utf8String

theorem Supported.responds {v : NSObject} (hv : v.Supported) : v.respondsToNewXPCObject = true := by
  cases v <;> first | rfl | exact hv.elim

section Steps

variable {h h₁ h₂ h₃ : Heap (List ObjId)} {c x : ObjId} {v : NSObject}

theorem addObjects_cons (hconv : v.newXPCObject h = .ok (h₁, some x))
    (hset : Arrays.xpcArraySetValue h₁ c xpcArrayAppend x = .ok h₂)
    (hrelease : xpcRelease h₂ x = .ok h₃) (vs : List NSObject) :
    addObjects h c (v :: vs) = addObjects h₃ c vs := by
  rw [addObjects, hconv]
  change (stopAt (Arrays.xpcArraySetValue h₁ c xpcArrayAppend x) >>= _) = _
  rw [hset]
  change (stopAt (xpcRelease h₂ x) >>= _) = _
  rw [hrelease]
  rfl

theorem addEntries_cons (hv : v.respondsToNewXPCObject = true)
    (hconv : v.newXPCObject h = .ok (h₁, some x)) {k : NSString}
    (hset : xpcDictionarySetValue h₁ c k.utf8String x = .ok h₂) (es : List (NSString × NSObject)) :
    addEntries h c ((k, v) :: es) =
      (stopAt (xpcRelease h₂ x) >>= fun h₃ => addEntries h₃ c es) := by
  rw [addEntries, if_pos hv, hconv]
  change (stopAt (xpcDictionarySetValue h₁ c k.utf8String x) >>= _) = _
  rw [hset]
  rfl

end Steps

mutual

theorem newXPCObject_builds (h : Heap (List ObjId)) : ∀ v : NSObject, v.Supported →
    ∃ h' t, v.newXPCObject h = .ok (h', some h.size) ∧ v.Isomorphic UpToNul t ∧ Builds h h' t
  | .string s, _ => ⟨_, .leaf (.string s.utf8String), rfl, rfl, builds_leafCreate h _⟩
  | .data bytes, _ => ⟨_, .leaf (.data bytes), rfl, rfl, builds_leafCreate h _⟩
  | .fileHandle file, _ => ⟨_, .leaf (.fd file), rfl, rfl, builds_leafCreate h _⟩
  | .number (.bool b), _ => ⟨_, .leaf (.bool b), rfl, rfl, builds_leafCreate h _⟩
  | .number (.unsignedLong u), _ => ⟨_, .leaf (.uint64 u), rfl, rfl, builds_leafCreate h _⟩
  | .number (.long i), _ => ⟨_, .leaf (.int64 i), rfl, rfl, builds_leafCreate h _⟩
  | .number (.double d), _ => ⟨_, .leaf (.double d), rfl, rfl, builds_leafCreate h _⟩
  | .array objects, hv => by
    obtain ⟨h₁, hcreate, ha⟩ := buildsElems_create h
    obtain ⟨h', ts, hadd, hiso, ha'⟩ := addObjects_builds objects hv ha
    refine ⟨h', .array ts, ?_, hiso, ha'.builds⟩
    rw [newXPCObject, hcreate]
    change (addObjects h₁ h.size objects >>= _) = _
    rw [hadd]
    rfl
  | .dictionary entries, hv => by
    obtain ⟨h₁, hcreate, hd⟩ := buildsPairs_create h
    have hkeys : (([] : List (CString × Tree)).map Prod.fst ++
        entries.map (fun e => e.1.utf8String)).Nodup := hv.1
    obtain ⟨h', ps, hadd, hiso, hd'⟩ := addEntries_builds entries hv.2 hkeys hd
    refine ⟨h', .dictionary ps, ?_, hiso, hd'.builds⟩
    rw [newXPCObject, hcreate]
    change (addEntries h₁ h.size entries >>= _) = _
    rw [hadd]
    rfl

theorem addObjects_builds {h₀ h : Heap (List ObjId)} {acc : List Tree} :
    ∀ vs : List NSObject, SupportedObjects vs → BuildsElems h₀ h acc →
      ∃ h' ts, addObjects h h₀.size vs = .ok h' ∧ IsomorphicObjects UpToNul vs ts ∧
        BuildsElems h₀ h' (acc ++ ts)
  | [], _, ha => ⟨h, [], rfl, trivial, by rwa [List.append_nil]⟩
  | v :: vs, hvs, ha => by
    obtain ⟨h₁, t, hconv, hiso, hb⟩ := newXPCObject_builds h v hvs.1
    obtain ⟨h₂, hset, h₃, hrelease, ha₃⟩ := ha.append hb
    obtain ⟨h', ts, hadd, hisos, ha'⟩ := addObjects_builds vs hvs.2 ha₃
    refine ⟨h', t :: ts, ?_, ⟨hiso, hisos⟩, by simpa using ha'⟩
    rw [addObjects_cons hconv hset hrelease, hadd]

theorem addEntries_builds {h₀ h : Heap (List ObjId)} {acc : List (CString × Tree)} :
    ∀ es : List (NSString × NSObject), SupportedEntries es →
      (acc.map Prod.fst ++ es.map (fun e => e.1.utf8String)).Nodup → BuildsPairs h₀ h acc →
      ∃ h' ps, addEntries h h₀.size es = .ok h' ∧ IsomorphicEntries UpToNul es ps ∧
        BuildsPairs h₀ h' (acc ++ ps)
  | [], _, _, hd => ⟨h, [], rfl, trivial, by rwa [List.append_nil]⟩
  | (k, v) :: es, hes, hkeys, hd => by
    obtain ⟨h₁, t, hconv, hiso, hb⟩ := newXPCObject_builds h v hes.1
    have hfresh : k.utf8String ∉ acc.map Prod.fst := by
      intro hmem
      exact (List.nodup_append.mp hkeys).2.2 _ hmem _ List.mem_cons_self rfl
    obtain ⟨h₂, hset, h₃, hrelease, hd₃⟩ := hd.insert hb hfresh
    obtain ⟨h', ps, hadd, hisos, hd'⟩ := addEntries_builds es hes.2 (by simpa using hkeys) hd₃
    refine ⟨h', (k.utf8String, t) :: ps, ?_, ⟨⟨rfl, hiso⟩, hisos⟩, by simpa using hd'⟩
    rw [addEntries_cons hes.1.responds hconv hset, hrelease]
    exact hadd

end

/-- A supported object is converted into a tree of the same shape. Its nodes are all
the objects made, as many as the tree has, and each has a count of one. -/
theorem newXPCObject_ownedOnce (h : Heap (List ObjId)) (v : NSObject) (hv : v.Supported) :
    ∃ h' t, v.newXPCObject h = .ok (h', some h.size) ∧ v.Isomorphic UpToNul t ∧
      TreeAt h' h.size t ∧ h'.size = h.size + t.nodes ∧
      (∀ y, Relation.ReflTransGen h'.Slot h.size y ↔ h.size ≤ y ∧ y < h'.size) ∧
      (∀ y, Relation.ReflTransGen h'.Slot h.size y →
        ∃ o, h'.get y = some o ∧ o.xoRefcnt = 1) ∧
      ∀ y < h.size, h'.get y = h.get y := by
  obtain ⟨h', t, hconv, hiso, hb⟩ := newXPCObject_builds h v hv
  have hbelow : ∀ y, Relation.ReflTransGen h'.Slot h.size y → h.size ≤ y ∧ y < h'.size := by
    intro y hy
    obtain ⟨u, hu⟩ := hb.tree.reached hy
    obtain ⟨o, ho⟩ := hu.live
    exact ⟨hu.le, Heap.lt_size_of_get ho⟩
  refine ⟨h', t, hconv, hiso, hb.tree.keeps (Nat.zero_le _) (Heap.Keeps.refl h'), hb.nodes, ?_, ?_, ?_⟩
  · exact fun y => ⟨hbelow y, fun hy => hb.grows.reached hy.1 hy.2⟩
  · intro y hy
    obtain ⟨hle, hlt⟩ := hbelow y hy
    exact hb.grows.count hle hlt
  · exact fun y hy => hb.grows.old hy

/-- The dictionary `{k = (0, "j")}`. -/
def smallPlist : NSObject :=
  .dictionary [(⟨[107]⟩, .array [.number (.long 0), .string ⟨[106]⟩])]

theorem smallPlist_ownedOnce : ∃ h' t, smallPlist.newXPCObject ⟨[]⟩ = .ok (h', some 0) ∧
    smallPlist.Isomorphic UpToNul t ∧ TreeAt h' 0 t ∧ h'.size = 0 + t.nodes ∧
    (∀ y, Relation.ReflTransGen h'.Slot 0 y ↔ 0 ≤ y ∧ y < h'.size) ∧
    (∀ y, Relation.ReflTransGen h'.Slot 0 y → ∃ o, h'.get y = some o ∧ o.xoRefcnt = 1) ∧
    ∀ y < 0, h'.get y = (⟨[]⟩ : Heap (List ObjId)).get y :=
  newXPCObject_ownedOnce ⟨[]⟩ smallPlist (by simp [smallPlist, Supported, SupportedObjects,
    SupportedEntries])

/-- The string `k\0j` becomes the string `k`. -/
theorem string_cutAtNul : (string ⟨[107, 0, 106]⟩).Supported ∧
    ¬ ∃ h' x t, (string ⟨[107, 0, 106]⟩).newXPCObject ⟨[]⟩ = .ok (h', some x) ∧
      (string ⟨[107, 0, 106]⟩).Isomorphic (fun s c => c.bytes = s.utf8) t ∧ TreeAt h' x t := by
  refine ⟨trivial, ?_⟩
  rintro ⟨h', x, t, hconv, hiso, ht⟩
  cases hconv
  have hk := (treeFrom_leafCreate ⟨[]⟩ (.string keyK)).keeps (Nat.zero_le _) (Heap.Keeps.refl _)
  obtain rfl : t = .leaf (.string keyK) := ht.unique hk
  cases hiso

end NSObject
end OpenXPC
