import OpenXPC.LinkedArrays
import OpenXPC.WellFormedQueues

/-! # Replacing an element of an array

Setting an index that is below the size of an array and below the length of its queue
should put the value in the place of the element there. The call of `TAILQ_INSERT_AFTER`
has the two exchanged, so the element there is freed while the queue still leads to it,
and nothing leads to the value. Any other index changes nothing. The size of an array is
whatever it happens to be. -/
namespace OpenXPC.LinkedArrays
open TailQueue Links

/-- The elements after a set of an index that does not mean appending. -/
def elemsAfterSet (es : List ObjId) (size index : ℕ) (value : ObjId) : List ObjId :=
  if index < size then es.set index value else es

/-- What a set of an index should leave of an array of the elements and the size. -/
structure SetsIndex (m m' : LinkedHeap) (xarray : ObjId) (es : List ObjId) (size index : ℕ)
    (value : ObjId) : Prop where
  wellFormed : m'.links.WellFormed xarray (elemsAfterSet es size index value)
  unchanged : ¬ (index < size ∧ index < es.length) → m' = m
  -- the element that was there is in the queue no more, and freed
  unlinked : ∀ old, index < size → es[index]? = some old →
    old ∉ elemsAfterSet es size index value ∧ m'.heap.get old = none
  others : ∀ x o, es[index]? ≠ some x → m.heap.get x = some o → ∃ o', m'.heap.get x = some o' ∧
    o'.xoU = o.xoU ∧ o'.xoSize = o.xoSize
  append : ∀ w, w ∉ elemsAfterSet es size index value → IsArray m'.heap xarray →
    (∃ o, m'.heap.get w = some o) → ∃ m'', xpcArrayAppendValue m' xarray w = .ok m'' ∧
      m''.links.WellFormed xarray (elemsAfterSet es size index value ++ [w])

section Setting

variable {m m' : LinkedHeap} {a v i n : ℕ} {es : List ObjId} {o : XpcObject Unit}

/-- An object that is not in the queue lands at its end. -/
theorem append_wellFormed (hq : m.links.WellFormed a es) (ha : IsArray m.heap a) (hv : v ∉ es)
    (hlive : ∃ o, m.heap.get v = some o) :
    ∃ m', xpcArrayAppendValue m a v = .ok m' ∧ m'.links.WellFormed a (es ++ [v]) := by
  obtain ⟨o, ho⟩ := hlive
  obtain ⟨m', he, -, -, hlinks⟩ := xpcArrayAppendValue_ok ha ho
  refine ⟨m', he, ?_⟩
  rw [hlinks]
  exact hq.insertTail hv

/-- Beyond the size or the length. -/
theorem setsIndex_refl (hq : m.links.WellFormed a es) (hi : ¬ (i < n ∧ i < es.length)) :
    SetsIndex m m a es n i v := by
  have hsame : elemsAfterSet es n i v = es := by
    unfold elemsAfterSet
    split_ifs with hin
    · exact List.set_eq_of_length_le (Nat.not_lt.mp (fun hlt => hi ⟨hin, hlt⟩))
    · rfl
  constructor
  · rwa [hsame]
  · exact fun _ => rfl
  · intro old hin hold
    exact absurd ⟨hin, (List.getElem?_eq_some_iff.mp hold).1⟩ hi
  · exact fun x o _ ho => ⟨o, ho, rfl, rfl⟩
  · intro w hw ha hlive
    rw [hsame] at hw ⊢
    exact append_wellFormed hq ha hw hlive

theorem split_at {old : ObjId} (hold : es[i]? = some old) :
    es = es.take i ++ old :: es.drop (i + 1) ∧ es.set i v = es.take i ++ v :: es.drop (i + 1) := by
  obtain ⟨hlt, rfl⟩ := List.getElem?_eq_some_iff.mp hold
  constructor
  · simp
  · rw [List.set_eq_take_append_cons_drop, if_pos hlt]

/-- What is left in range: the element there is freed, and the links are those of the
exchanged elements. -/
theorem xpcArraySetValue_misplaces {old : ObjId} (ha : m.heap.get a = some o) (hu : o.xoU = .array ())
    (hq : m.links.WellFormed a es) (hlive : ∀ x ∈ es, ∃ p, m.heap.get x = some p)
    (hv : ∃ p, m.heap.get v = some p) (hnew : v ∉ es) (hi : i ≠ xpcArrayAppend)
    (hin : i < o.xoSize) (hold : es[i]? = some old) :
    ∃ m', xpcArraySetValue m a i v = .ok m' ∧ Misplaced m.links m'.links a old v ∧
      m'.heap.get old = none := by
  have hd : derefArray m a = .ok o := by
    simp [derefArray, Heap.deref_of_get ha, XpcObject.arr_of_xoU hu]
  have hnth : m.links.nth i (m.links.tqhFirst a) = some old := (hq.chain.nth i).trans hold
  obtain ⟨w, hw⟩ := hv
  obtain ⟨p, hp⟩ := hlive old (List.mem_of_getElem? hold)
  obtain ⟨p', hp', -⟩ := (keeps_of_xpcRetain (xpcRetain_of_get hw)).get_of_get hp
  have hne : v ≠ old := by
    rintro rfl
    exact hnew (List.mem_of_getElem? hold)
  let m' : LinkedHeap :=
    ⟨(m.heap.set v w.retained).free old, (m.links.insertAfter a v old).remove a old⟩
  refine ⟨m', ?_, misplaced m.links a hne, ?_⟩
  · rw [xpcArraySetValue, if_neg hi, hd, ok_bind, if_neg (Nat.not_le.mpr hin), hnth]
    simp only [xpcRetain_of_get hw, ok_bind, Heap.deref_of_get hp']
    rfl
  · exact (Heap.get_free _ old old).trans (if_pos rfl)

/-- Of a value with nothing behind it the array keeps the elements up to the one that is
freed, and that one. -/
theorem xpcArraySetValue_keepsFreed {old : ObjId} (ha : m.heap.get a = some o) (hu : o.xoU = .array ())
    (hq : m.links.WellFormed a es) (hlive : ∀ x ∈ es, ∃ p, m.heap.get x = some p)
    (hv : ∃ p, m.heap.get v = some p) (hnew : v ∉ es) (hi : i ≠ xpcArrayAppend)
    (hin : i < o.xoSize) (hold : es[i]? = some old) (hend : m.links.tqeNext v = none) :
    ∃ m', xpcArraySetValue m a i v = .ok m' ∧ m'.links.Chain (.first a) (es.take (i + 1)) ∧
      m'.heap.get old = none := by
  obtain ⟨m', he, hmis, hfreed⟩ := xpcArraySetValue_misplaces ha hu hq hlive hv hnew hi hin hold
  have hchain := hq.chain
  rw [(split_at (v := v) hold).1] at hchain
  refine ⟨m', he, ?_, hfreed⟩
  rw [List.take_add_one, hold]
  exact hmis.chain hchain hend

/-- The value gets the place of the element at the index if and only if there is nothing
to replace: for any size that the array states, beyond it or beyond the queue nothing
changes, and in range the queue leads to the freed element. -/
theorem xpcArraySetValue_setsIndex_iff (ha : m.heap.get a = some o) (hu : o.xoU = .array ())
    (hq : m.links.WellFormed a es) (hlive : ∀ x ∈ es, ∃ p, m.heap.get x = some p)
    (hv : ∃ p, m.heap.get v = some p) (hnew : v ∉ es) (hi : i ≠ xpcArrayAppend) :
    (∃ m', xpcArraySetValue m a i v = .ok m' ∧ SetsIndex m m' a es o.xoSize i v) ↔
      ¬ (i < o.xoSize ∧ i < es.length) := by
  constructor
  · rintro ⟨m', he, hset⟩ ⟨hin, hlen⟩
    have hold : es[i]? = some es[i] := List.getElem?_eq_getElem hlen
    obtain ⟨m'', he', hmis, -⟩ := xpcArraySetValue_misplaces ha hu hq hlive hv hnew hi hin hold
    obtain rfl : m' = m'' := Except.ok.inj (he.symm.trans he')
    obtain ⟨hes, hes'⟩ := split_at (v := v) hold
    have hne : v ≠ es[i] := by
      intro heq
      exact hnew (heq ▸ List.getElem_mem hlen)
    have hbefore := hq.chain
    rw [hes] at hbefore
    have hafter := hset.wellFormed.chain
    rw [elemsAfterSet, if_pos hin, hes'] at hafter
    exact hmis.not_chain hbefore hne hafter
  · intro hout
    refine ⟨m, ?_, setsIndex_refl hq hout⟩
    have hd : derefArray m a = .ok o := by
      simp [derefArray, Heap.deref_of_get ha, XpcObject.arr_of_xoU hu]
    rw [xpcArraySetValue, if_neg hi, hd, ok_bind]
    by_cases hin : i < o.xoSize
    · have hnone : es[i]? = none := List.getElem?_eq_none (Nat.not_lt.mp fun hlt => hout ⟨hin, hlt⟩)
      have hnth : m.links.nth i (m.links.tqhFirst a) = none := (hq.chain.nth i).trans hnone
      rw [if_neg (Nat.not_le.mpr hin), hnth]
    · rw [if_pos (Nat.not_lt.mp hin)]

end Setting

/-- An array of two booleans that states its size, and a third boolean. -/
def twoBools : LinkedHeap where
  heap := ⟨[some ⟨0, 1, 2, .array (), trivial⟩, some ⟨0, 2, 1, .leaf (.bool true), trivial⟩,
    some ⟨0, 2, 1, .leaf (.bool false), trivial⟩, some ⟨0, 1, 1, .leaf (.bool true), trivial⟩]⟩
  links := ((Links.init ⟨fun _ => none, .first, fun _ => none, .first⟩ 0).insertTail 0 1).insertTail 0 2

theorem twoBools_wellFormed : twoBools.links.WellFormed 0 [1, 2] :=
  ((Links.wellFormed_init _ 0).insertTail (e := 1) (by simp)).insertTail (e := 2) (by decide)

theorem twoBools_live : ∀ x ∈ [1, 2], ∃ p, twoBools.heap.get x = some p := by
  intro x hx
  rcases List.mem_pair.mp hx with rfl | rfl
  · exact ⟨_, rfl⟩
  · exact ⟨_, rfl⟩

theorem twoBools_beyond :
    ∃ m', xpcArraySetValue twoBools 0 2 3 = .ok m' ∧ SetsIndex twoBools m' 0 [1, 2] 2 2 3 :=
  (xpcArraySetValue_setsIndex_iff (o := ⟨0, 1, 2, .array (), trivial⟩) rfl rfl twoBools_wellFormed
    twoBools_live ⟨_, rfl⟩ (by decide) (by decide)).mpr (by decide)

/-- After the set of the last index the queue still ends with the old element, which is
freed, and its head takes the cell of the value for the last. -/
theorem last_misplaced :
    (∃ m', xpcArraySetValue twoBools 0 1 3 = .ok m' ∧ m'.links.Chain (.first 0) [1, 2] ∧
      m'.heap.get 2 = none ∧ m'.links.tqhLast 0 = .next 3) ∧
    ¬ ∃ m', xpcArraySetValue twoBools 0 1 3 = .ok m' ∧ SetsIndex twoBools m' 0 [1, 2] 2 1 3 := by
  refine ⟨⟨_, rfl, ⟨rfl, rfl, rfl⟩, rfl, rfl⟩, ?_⟩
  rintro ⟨m', he, hset⟩
  have hwell := hset.wellFormed
  cases he
  exact absurd hwell.chain.2.1 (by decide)

end OpenXPC.LinkedArrays
