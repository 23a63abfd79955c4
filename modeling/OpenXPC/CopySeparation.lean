import OpenXPC.BlockReaders
import OpenXPC.Copying
import OpenXPC.GuardedRuns

/-! # Copies and their originals

A copy shares no block with its original, and what is done to it later is done to blocks
that were not there when it was made. -/
namespace OpenXPC.Blocks
open GuardedRuns InsertionMap Memory Stores TailQueue

/-! ## Copies of trees -/

section Copying

variable {m m' m'' s : Memory} {x d a v : ObjId} {o w : ObjectBlock} {k : CString} {n : ℕ} {t : Tree}

/-- The call returns an object. -/
def Copied (n : ℕ) (m : Memory) (x : ObjId) : Prop :=
  ∃ m' y o, xpcCopy n m x = .ok (m', some y) ∧ m'.objects.get y = some o

/-- Objects keep their unions, whatever happens to their links and counts. -/
def SameUnions (m m' : Memory) : Prop := ∀ x o, m.objects.get x = some o →
  ∃ o', m'.objects.get x = some o' ∧ o'.xoU = o.xoU ∧ o'.xoSize = o.xoSize

theorem SameUnions.trans (h₁ : SameUnions m m') (h₂ : SameUnions m' m'') : SameUnions m m'' := by
  intro x o ho
  obtain ⟨o₁, ho₁, hu₁, hs₁⟩ := h₁ x o ho
  obtain ⟨o₂, ho₂, hu₂, hs₂⟩ := h₂ x o₁ ho₁
  exact ⟨o₂, ho₂, hu₂.trans hu₁, hs₂.trans hs₁⟩

theorem sameUnions_setObject (hx : m.objects.get x = some w) (hu : o.xoU = w.xoU)
    (hs : o.xoSize = w.xoSize) : SameUnions m (m.setObject x o) := by
  intro y p hy
  rw [setObject, Store.get_set hx]
  by_cases hyx : y = x
  · subst hyx
    obtain rfl : w = p := Option.some.inj (hx.symm.trans hy)
    exact ⟨o, if_pos rfl, hu, hs⟩
  · exact ⟨p, (if_neg hyx).trans hy, rfl, rfl⟩

theorem store_next_ok (hx : m.objects.get x = some o) (p : Option ObjId) :
    ∃ m', m.store (.next x) p = .ok m' ∧ SameUnions m m' :=
  ⟨_, store_next_of_get hx p, sameUnions_setObject hx rfl rfl⟩

theorem setPrev_ok (hx : m.objects.get x = some o) (c : Cell ObjId ObjId) :
    ∃ m', m.setPrev x c = .ok m' ∧ SameUnions m m' :=
  ⟨_, setPrev_of_get hx c, sameUnions_setObject hx rfl rfl⟩

theorem xpcRetain_ok (hx : m.objects.get x = some o) :
    ∃ m', xpcRetain m x = .ok m' ∧ m'.pairs = m.pairs ∧ SameUnions m m' := by
  refine ⟨_, xpcRetain_of_get hx, ?_, sameUnions_setObject hx ?_ ?_⟩ <;> rfl

theorem get_setObject_of_get (hx : m.objects.get x = some w) (hv : m.objects.get v = some o)
    (p : ObjectBlock) : ∃ o, (m.setObject x p).objects.get v = some o := by
  rw [setObject, Store.get_set hx]
  split_ifs
  · exact ⟨p, rfl⟩
  · exact ⟨o, hv⟩

/-! ### Arrays -/

/-- The object is an array of size zero, and its queue ends in a cell that can be written. -/
def LiveArray (m : Memory) (a : ObjId) : Prop :=
  ∃ o first last, m.objects.get a = some o ∧ o.xoU = .array first last ∧ o.xoSize = 0 ∧
    (last = .first a ∨ ∃ e p, last = .next e ∧ m.objects.get e = some p)

theorem LiveArray.sameUnions (ha : LiveArray m a) (hm : SameUnions m m') : LiveArray m' a := by
  obtain ⟨o, first, last, ho, hu, hsize, hlast⟩ := ha
  obtain ⟨o', ho', hu', hsize'⟩ := hm a o ho
  refine ⟨o', first, last, ho', hu'.trans hu, hsize'.trans hsize, ?_⟩
  rcases hlast with hlast | ⟨e, p, hlast, he⟩
  · exact .inl hlast
  · obtain ⟨p', hp', -⟩ := hm e p he
    exact .inr ⟨e, p', hlast, hp'⟩

theorem LiveArray.extends (ha : LiveArray m a) (he : Extends m m') : LiveArray m' a :=
  ha.sameUnions (fun _ o ho => ⟨o, he.objects.get ho, rfl, rfl⟩)

/-- The cell at the end of the queue is written, and then the end is moved to the value. -/
theorem LiveArray.link (ha : LiveArray m a) (hv : m.objects.get v = some w) :
    ∃ last m₁ m', m.tqhLast a = .ok last ∧ m.store last (some v) = .ok m₁ ∧
      m₁.setLast a (.next v) = .ok m' ∧ LiveArray m' a ∧ ∃ w, m'.objects.get v = some w := by
  obtain ⟨o, first, last, ho, hu, hsize, hlast⟩ := ha
  have hstored : ∃ m₁ o₁ f l w₁, m.store last (some v) = .ok m₁ ∧ m₁.objects.get a = some o₁ ∧
      o₁.xoU = .array f l ∧ o₁.xoSize = 0 ∧ m₁.objects.get v = some w₁ := by
    rcases hlast with rfl | ⟨e, p, rfl, he⟩
    · obtain ⟨w₁, hw₁⟩ := get_setObject_of_get ho hv { o with xoU := .array (some v) (.first a) }
      exact ⟨_, _, _, _, w₁, store_first_of_get ho hu _, (Store.get_set ho _ a).trans (if_pos rfl),
        rfl, hsize, hw₁⟩
    · have hsame := sameUnions_setObject
        (o := { p with xoLink := { p.xoLink with tqeNext := some (some v) } }) he rfl rfl
      obtain ⟨o₁, ho₁, hu₁, hs₁⟩ := hsame a o ho
      obtain ⟨w₁, hw₁, -⟩ := hsame v w hv
      exact ⟨_, o₁, first, _, w₁, store_next_of_get he _, ho₁, hu₁.trans hu, hs₁.trans hsize, hw₁⟩
  obtain ⟨m₁, o₁, f, l, w₁, hstore, ho₁, hu₁, hs₁, hw₁⟩ := hstored
  obtain ⟨w', hw'⟩ := get_setObject_of_get ho₁ hw₁ { o₁ with xoU := .array f (.next v) }
  refine ⟨last, m₁, _, tqhLast_of_get ho hu, hstore, setLast_of_get ho₁ hu₁ _, ?_, w', hw'⟩
  exact ⟨_, f, .next v, (Store.get_set ho₁ _ a).trans (if_pos rfl), rfl, hs₁, .inr ⟨v, w', rfl, hw'⟩⟩

theorem LiveArray.append (ha : LiveArray m a) (hv : m.objects.get v = some w) :
    ∃ m', xpcArrayAppendValue m a v = .ok m' ∧ LiveArray m' a := by
  obtain ⟨m₁, hstore, hsame₁⟩ := store_next_ok hv none
  obtain ⟨w₁, hw₁, -⟩ := hsame₁ v w hv
  have ha₁ := ha.sameUnions hsame₁
  obtain ⟨o₁, first, last, ho₁, hu₁, -⟩ := id ha₁
  obtain ⟨m₂, hprev, hsame₂⟩ := setPrev_ok hw₁ last
  obtain ⟨w₂, hw₂, -⟩ := hsame₂ v w₁ hw₁
  obtain ⟨last', m₃, m₄, hlast, hlink, hset, ha₄, w₄, hw₄⟩ := (ha₁.sameUnions hsame₂).link hw₂
  obtain ⟨m₅, hretain, -, hsame₅⟩ := xpcRetain_ok hw₄
  refine ⟨m₅, ?_, ha₄.sameUnions hsame₅⟩
  simp only [xpcArrayAppendValue, insertTail, hstore, ok_bind, tqhLast_of_get ho₁ hu₁, hprev, hlast,
    hlink, hset, hretain]

theorem LiveArray.setValue (ha : LiveArray m a) (hv : m.objects.get v = some w) (i : ℕ) :
    ∃ m', xpcArraySetValue m a i v = .ok m' ∧ LiveArray m' a := by
  by_cases hi : i = xpcArrayAppend
  · obtain ⟨m', happend, ha'⟩ := ha.append hv
    exact ⟨m', by rw [xpcArraySetValue, if_pos hi, happend], ha'⟩
  · obtain ⟨o, first, last, ho, hu, hsize, -⟩ := id ha
    refine ⟨m, ?_, ha⟩
    simp only [xpcArraySetValue, if_neg hi, deref_of_get ho, ok_bind, hu, XpcU.arrayHead, hsize,
      ge_iff_le, Nat.zero_le, if_true]

/-! ### Dictionaries -/

theorem findPair_ok {head : List ℕ} (hl : m.PairsLive head) (k : CString) :
    ∃ r, findPair m k head = .ok r := by
  induction head with
  | nil => exact ⟨none, rfl⟩
  | cons p head ih =>
    obtain ⟨pair, hp⟩ := hl p List.mem_cons_self
    rw [findPair, deref_of_get hp, ok_bind]
    split_ifs
    · exact ⟨some p, rfl⟩
    · exact ih (fun q hq => hl q (List.mem_cons_of_mem p hq))

/-- The object is a dictionary whose pairs are live. -/
def LiveDictionary (m : Memory) (d : ObjId) : Prop :=
  ∃ o head, m.objects.get d = some o ∧ o.xoU = .dict head ∧ m.PairsLive head

theorem LiveDictionary.extends (hd : LiveDictionary m d) (he : Extends m m') :
    LiveDictionary m' d := by
  obtain ⟨o, head, ho, hu, hl⟩ := hd
  refine ⟨o, head, he.objects.get ho, hu, fun p hp => ?_⟩
  obtain ⟨pair, hpair⟩ := hl p hp
  exact ⟨pair, he.pairs.get hpair⟩

theorem LiveDictionary.setValue (hd : LiveDictionary m d) (hv : m.objects.get v = some w)
    (k : CString) : ∃ m', xpcDictionarySetValue m d k v = .ok m' ∧ LiveDictionary m' d := by
  obtain ⟨o, head, ho, hu, hl⟩ := hd
  obtain ⟨r, hfind⟩ := findPair_ok hl k
  have hhead : o.xoU.dictHead = .ok head := by rw [hu, XpcU.dictHead]
  cases r with
  | some p =>
    obtain ⟨-, pair, hp⟩ := findPair_mem hfind
    refine ⟨{ m with pairs := m.pairs.set p { pair with value := v } }, ?_, o, head, ho, hu, ?_⟩
    · simp only [xpcDictionarySetValue, deref_of_get ho, ok_bind, hhead, hfind, deref_of_get hp]
    · intro q hq
      obtain ⟨pair', hq'⟩ := hl q hq
      rw [Store.get_set hp]
      split_ifs
      · exact ⟨_, rfl⟩
      · exact ⟨pair', hq'⟩
  | none =>
    let o₁ : ObjectBlock :=
      { o with xoSize := o.xoSize + 1, xoU := .dict (head ++ [m.pairs.size]) }
    let m₁ : Memory := { m with pairs := m.pairs.alloc { key := k, value := v } }
    have ho₁ : m₁.objects.get d = some o := ho
    obtain ⟨w₁, hw₁⟩ := get_setObject_of_get ho₁ (show m₁.objects.get v = some w from hv) o₁
    have hd₁ : (m₁.setObject d o₁).objects.get d = some o₁ :=
      (Store.get_set ho₁ o₁ d).trans (if_pos rfl)
    obtain ⟨m₂, hretain, hpairs, hsame⟩ := xpcRetain_ok hw₁
    obtain ⟨o₂, ho₂, hu₂, -⟩ := hsame d o₁ hd₁
    refine ⟨m₂, ?_, o₂, _, ho₂, hu₂, ?_⟩
    · simp only [xpcDictionarySetValue, deref_of_get ho, ok_bind, hhead, hfind]
      exact hretain
    · rw [PairsLive, hpairs]
      refine List.forall_mem_append.mpr ⟨fun q hq => ?_, ?_⟩
      · obtain ⟨pair, hq'⟩ := hl q hq
        exact ⟨pair, Store.get_alloc_of_get hq' _⟩
      · exact List.forall_mem_singleton.mpr ⟨_, Store.get_alloc_size _ _⟩

/-! ### The copy of a tree -/

theorem applyPairs_ok {f : CString → ObjId → Memory → Except Fault (Memory × Bool)} {I : Memory → Prop}
    {head : List ℕ} (hs : I s) (hstep : ∀ p ∈ head, ∀ s, I s → ∃ pair s', s.pairs.get p = some pair ∧
      f pair.key pair.value s = .ok (s', true) ∧ I s') :
    ∃ s', applyPairs id f head s = .ok (s', true) ∧ I s' := by
  induction head generalizing s with
  | nil => exact ⟨s, rfl, hs⟩
  | cons p head ih =>
    obtain ⟨pair, s₁, hp, he, hs₁⟩ := hstep p List.mem_cons_self s hs
    obtain ⟨s₂, hrest, hs₂⟩ := ih hs₁ (fun q hq => hstep q (List.mem_cons_of_mem p hq))
    exact ⟨s₂, by simp [applyPairs, deref_of_get hp, he, hrest], hs₂⟩

theorem applyElems_ok {f : ℕ → ObjId → Memory → Except Fault (Memory × Bool)} {I : Memory → Prop}
    {first : Option ObjId} {es : List ObjId} {i : ℕ} (hq : m.Queue first es) (hn : es.length ≤ n)
    (hs : I s) (hI : ∀ s, I s → Extends m s)
    (hstep : ∀ v ∈ es, ∀ i s, I s → ∃ s', f i v s = .ok (s', true) ∧ I s') :
    ∃ s', applyElems id f n i first s = .ok (s', true) ∧ I s' := by
  induction es generalizing first n i s with
  | nil =>
    cases hq
    exact ⟨s, by cases n <;> rfl, hs⟩
  | cons e es ih =>
    obtain ⟨rfl, next, hnext, hrest⟩ := hq
    obtain ⟨n, rfl⟩ := Nat.exists_eq_add_one.mpr (Nat.lt_of_lt_of_le (Nat.succ_pos _) hn)
    obtain ⟨s₁, he, hs₁⟩ := hstep e List.mem_cons_self i s hs
    have hnext₁ : (id s₁).tqeNext e = .ok next := (hI s₁ hs₁).tqeNext hnext
    obtain ⟨s₂, hloop, hs₂⟩ := @ih s₁ n next (i + 1) hrest (Nat.le_of_succ_le_succ hn) hs₁
      (fun v hv => hstep v (List.mem_cons_of_mem e hv))
    exact ⟨s₂, by simp only [applyElems, he, ok_bind, if_true, hnext₁, hloop], hs₂⟩

theorem dictCopyCb_ok (hd : LiveDictionary s d) (hc : Copied n s v) (k : CString) :
    ∃ s', dictCopyCb (xpcCopy n) d k v s = .ok (s', true) ∧ LiveDictionary s' d := by
  obtain ⟨s₁, y, w, hcopy, hy⟩ := hc
  obtain ⟨s₂, hset, hd₂⟩ := (hd.extends (extends_xpcCopy s v s₁ _ hcopy).1).setValue hy k
  exact ⟨s₂, by simp [dictCopyCb, hcopy, hset], hd₂⟩

theorem arrayCopyCb_ok (ha : LiveArray s a) (hc : Copied n s v) (i : ℕ) :
    ∃ s', arrayCopyCb (xpcCopy n) a i v s = .ok (s', true) ∧ LiveArray s' a := by
  obtain ⟨s₁, y, w, hcopy, hy⟩ := hc
  obtain ⟨s₂, hset, ha₂⟩ := (ha.extends (extends_xpcCopy s v s₁ _ hcopy).1).setValue hy i
  exact ⟨s₂, by simp [arrayCopyCb, hcopy, hset], ha₂⟩

theorem copied_leaf {c : Leaf} (hx : m.objects.get x = some o)
    (hu : m.payload o.xoU = some (.leaf c)) (hc : c.Copyable) : Copied (n + 1) m x := by
  cases hkind : o.xoU with
  | scalar v word =>
    rw [hkind, Memory.payload, Option.some.injEq, Payload.leaf.injEq] at hu
    have hcopy : xpcCopy (n + 1) m x = .ok (copyScalar m v word) := by
      simp only [xpcCopy, deref_of_get hx, ok_bind, hkind]
    rw [← hu] at hc
    cases v with
    | null | double _ | fd _ | uuid _ | connection _ => exact hc.elim
    | _ => exact ⟨_, _, _, hcopy, Store.get_alloc_size _ _⟩
  | str s =>
    rw [hkind] at hu
    obtain ⟨string, hs, -⟩ := Option.map_eq_some_iff.mp hu
    have hdup : (strdup m string).1.strings.get (strdup m string).2 = some string :=
      Store.get_alloc_size _ _
    have hcopy : xpcCopy (n + 1) m x = .ok ((xpcStringCreate (strdup m string).1 string).1,
        some (xpcStringCreate (strdup m string).1 string).2) := by
      simp only [xpcCopy, deref_of_get hx, ok_bind, hkind, deref_of_get hs, deref_of_get hdup]
    exact ⟨_, _, _, hcopy, Store.get_alloc_size _ _⟩
  | data ptr =>
    rw [hkind] at hu
    obtain ⟨bytes, hd, -⟩ := Option.map_eq_some_iff.mp hu
    have hcopy : xpcCopy (n + 1) m x = .ok ((xpcDataCreate m (bytes.take o.xoSize)).1,
        some (xpcDataCreate m (bytes.take o.xoSize)).2) := by
      simp only [xpcCopy, deref_of_get hx, ok_bind, hkind, deref_of_get hd]
    exact ⟨_, _, _, hcopy, Store.get_alloc_size _ _⟩
  | array first last =>
    rw [hkind] at hu
    obtain ⟨es, -, hu⟩ := payload_array.mp hu
    cases hu
  | dict head =>
    rw [hkind] at hu
    obtain ⟨qs, -, hu⟩ := payload_dict.mp hu
    cases hu

/-- The values are copied into the new dictionary, in memories that come later. -/
theorem copied_dictionary {head : List ℕ} {qs : Pairs} (hx : m.objects.get x = some o)
    (hu : o.xoU = .dict head) (hqs : m.readPairs head = .ok qs)
    (hcopy : ∀ q ∈ qs, ∀ s, Extends m s → Copied n s q.2) : Copied (n + 1) m x := by
  let m₁ := (xpcDictionaryCreate m).1
  have he₁ : Extends m m₁ := extends_xpcDictionaryCreate (.refl m)
  have hlive : LiveDictionary m₁ m.objects.size :=
    ⟨_, [], Store.get_alloc_size _ _, rfl, List.forall_mem_nil _⟩
  have hstep : ∀ p ∈ head, ∀ s, Extends m s ∧ LiveDictionary s m.objects.size → ∃ pair s',
      s.pairs.get p = some pair ∧
        dictCopyCb (xpcCopy n) m.objects.size pair.key pair.value s = .ok (s', true) ∧
        Extends m s' ∧ LiveDictionary s' m.objects.size := by
    rintro p hp s ⟨he, hd⟩
    obtain ⟨pair, hpair, hmem⟩ := readPairs_mem hqs hp
    obtain ⟨s', hcb, hd'⟩ := dictCopyCb_ok hd (hcopy _ hmem s he) pair.key
    exact ⟨pair, s', he.pairs.get hpair, hcb,
      extends_dictCopyCb extends_xpcCopy he (Nat.le_refl _) hcb, hd'⟩
  obtain ⟨s, happly, -, o', -, ho', -⟩ := applyPairs_ok ⟨he₁, hlive⟩ hstep
  have hloop : xpcDictionaryApplyFun id x (dictCopyCb (xpcCopy n) m.objects.size) m₁ =
      .ok (s, true) := by
    have hx₁ : deref (id m₁).objects x = .ok o := deref_of_get (he₁.objects.get hx)
    rw [xpcDictionaryApplyFun, hx₁, ok_bind, hu]
    exact happly
  refine ⟨s, m.objects.size, o', ?_, ho'⟩
  rw [xpcCopy, deref_of_get hx, ok_bind, hu]
  change (xpcDictionaryApplyFun id x _ m₁ >>= _) = _
  rw [hloop]
  rfl

theorem copied_array {first : Option ObjId} {last : Cell ObjId ObjId} {es : List ObjId}
    (hx : m.objects.get x = some o) (hu : o.xoU = .array first last) (hq : m.Queue first es)
    (hlen : es.length ≤ m.objects.size) (hcopy : ∀ v ∈ es, ∀ s, Extends m s → Copied n s v) :
    Copied (n + 1) m x := by
  let m₁ := (xpcArrayCreate m).1
  have he₁ : Extends m m₁ := extends_xpcArrayCreate (.refl m)
  have hlive : LiveArray m₁ m.objects.size :=
    ⟨_, none, _, Store.get_alloc_size _ _, rfl, rfl, .inl rfl⟩
  have hstep : ∀ v ∈ es, ∀ i s, Extends m s ∧ LiveArray s m.objects.size → ∃ s',
      arrayCopyCb (xpcCopy n) m.objects.size i v s = .ok (s', true) ∧
        Extends m s' ∧ LiveArray s' m.objects.size := by
    rintro v hv i s ⟨he, ha⟩
    obtain ⟨s', hcb, ha'⟩ := arrayCopyCb_ok ha (hcopy v hv s he) i
    exact ⟨s', hcb, extends_arrayCopyCb extends_xpcCopy he (Nat.le_refl _) hcb, ha'⟩
  obtain ⟨s, happly, -, o', -, -, ho', -⟩ := applyElems_ok (i := 0) hq
    (Nat.le_trans hlen he₁.objects.size_le) ⟨he₁, hlive⟩ (fun _ hs => hs.1) hstep
  have hloop : xpcArrayApplyFun id x (arrayCopyCb (xpcCopy n) m.objects.size) m₁ =
      .ok (s, true) := by
    have hx₁ : deref (id m₁).objects x = .ok o := deref_of_get (he₁.objects.get hx)
    rw [xpcArrayApplyFun, hx₁, ok_bind, hu]
    exact happly
  refine ⟨s, m.objects.size, o', ?_, ho'⟩
  rw [xpcCopy, deref_of_get hx, ok_bind, hu]
  change (xpcArrayApplyFun id x _ m₁ >>= _) = _
  rw [hloop]
  rfl

/-- Every tree of the types that are handled is copied. -/
theorem copied_of_treeAt (ht : TreeAt m.view x t) (hc : t.Copyable) (hn : t.height < n) :
    Copied n m x := by
  induction t generalizing n m x with
  | leaf c =>
    obtain ⟨-, w, hw, hu⟩ := treeFrom_leaf.mp ht
    rw [get_view] at hw
    obtain ⟨o, ho, hpay, -⟩ := object_eq_some.mp hw
    obtain ⟨n, rfl⟩ := Nat.exists_eq_add_one.mpr (Nat.zero_lt_of_lt hn)
    exact copied_leaf ho (hpay.trans (congrArg some hu)) (Tree.all_leaf.mp hc)
  | array ts ih =>
    obtain ⟨-, w, es, hw, hu, hes⟩ := treeFrom_array.mp ht
    rw [get_view] at hw
    obtain ⟨o, ho, hpay, -⟩ := object_eq_some.mp hw
    obtain ⟨n, rfl⟩ := Nat.exists_eq_add_one.mpr (Nat.zero_lt_of_lt hn)
    obtain ⟨first, last, hkind, hqueue, hlen⟩ :=
      xoU_of_payload_array (hpay.trans (congrArg some hu))
    refine copied_array ho hkind hqueue hlen (fun v hv s hs => ?_)
    obtain ⟨u, hu, hvu⟩ := exists_right_of_forall₂ hes hv
    have hheight := Tree.height_lt_of_mem hu
    exact ih u hu (hvu.keeps (Nat.le_refl 0) hs.keeps) ((Tree.all_array.mp hc).2 u hu) (by omega)
  | dictionary ps ih =>
    obtain ⟨-, w, qs, hw, hu, hqs⟩ := treeFrom_dictionary.mp ht
    rw [get_view] at hw
    obtain ⟨o, ho, hpay, -⟩ := object_eq_some.mp hw
    obtain ⟨n, rfl⟩ := Nat.exists_eq_add_one.mpr (Nat.zero_lt_of_lt hn)
    obtain ⟨head, hkind, hread⟩ := xoU_of_payload_dictionary (hpay.trans (congrArg some hu))
    refine copied_dictionary ho hkind hread (fun q hq s hs => ?_)
    obtain ⟨p, hp, -, hqp⟩ := exists_right_of_forall₂ hqs hq
    have hheight := Tree.height_lt_of_mem_pairs hp
    exact ih p hp (hqp.keeps (Nat.le_refl 0) hs.keeps) ((Tree.all_dictionary.mp hc).2 p hp) (by omega)

end Copying

/-! ## Operations on a copy -/

/-- The constructors, the setters and further copies. -/
inductive Operation
  | leaf (word : UInt64) (v : Leaf)
  | dictionary
  | array
  | copy (n : ℕ) (x : ObjId)
  | dictionarySet (d : ObjId) (k : CString) (v : ObjId)
  | dictionarySetLeaf (d : ObjId) (k : CString) (word : UInt64) (v : Leaf)
  | arraySet (a : ObjId) (i : ℕ) (v : ObjId)
  | arraySetLeaf (a : ObjId) (i : ℕ) (word : UInt64) (v : Leaf)
  | arrayAppend (a v : ObjId)

/-- The object belongs to the copy `y`, or has been made since. -/
def Own (y mark : ObjId) (m : Memory) (z : ObjId) : Prop :=
  m.Reaches (.object y) (.object z) ∨ mark ≤ z

def Operation.exec (m : Memory) : Operation → Except Fault Memory
  | .leaf word v => .ok (leafCreate m word v).1
  | .dictionary => .ok (xpcDictionaryCreate m).1
  | .array => .ok (xpcArrayCreate m).1
  | .copy n x => do
    let (m, _) ← xpcCopy n m x
    .ok m
  | .dictionarySet d k v => xpcDictionarySetValue m d k v
  | .dictionarySetLeaf d k word v =>
    let (m, xotmp) := leafCreate m word v
    xpcDictionarySetValue m d k xotmp
  | .arraySet a i v => xpcArraySetValue m a i v
  | .arraySetLeaf a i word v =>
    let (m, xotmp) := leafCreate m word v
    xpcArraySetValue m a i xotmp
  | .arrayAppend a v => xpcArrayAppendValue m a v

/-- Containers of the copy or made since are written, with values that are. -/
def machine (y mark : ObjId) : Machine Memory Operation Fault where
  allowed m
    | .leaf _ _ | .dictionary | .array | .copy _ _ => True
    | .dictionarySet d _ v => Own y mark m d ∧ Own y mark m v
    | .dictionarySetLeaf d _ _ _ => Own y mark m d
    | .arraySet a _ v | .arrayAppend a v => Own y mark m a ∧ Own y mark m v
    | .arraySetLeaf a _ _ _ => Own y mark m a
  exec m op := op.exec m

section Runs

variable {m m' s s' : Memory} {x y z mark : ObjId} {b : Block} {t : Tree} {op : Operation}

theorem Own.new (hz : Own y mark s z) (he : Extends m s) (hy : m.objects.size ≤ y)
    (hmark : m.objects.size ≤ mark) : m.objects.size ≤ z := by
  rcases hz with hreach | hlate
  · exact Nat.not_lt.mp (he.reaches (b := .object y) (Nat.not_lt.mpr hy) hreach)
  · exact Nat.le_trans hmark hlate

/-- One operation writes to no block of the memory that was copied from. -/
theorem extends_exec (he : Extends m s) (hy : m.objects.size ≤ y) (hmark : m.objects.size ≤ mark)
    (ha : (machine y mark).allowed s op) (hop : op.exec s = .ok s') : Extends m s' := by
  cases op with
  | leaf word v =>
    cases hop
    exact (extends_leafCreate he word v).1
  | dictionary =>
    cases hop
    exact extends_xpcDictionaryCreate he
  | array =>
    cases hop
    exact extends_xpcArrayCreate he
  | copy n x =>
    obtain ⟨⟨s₁, r⟩, hcopy, hop⟩ := bind_eq_ok.mp hop
    cases hop
    exact he.trans (extends_xpcCopy _ _ _ _ hcopy).1
  | dictionarySet d k v =>
    exact extends_xpcDictionarySetValue he (ha.1.new he hy hmark) (ha.2.new he hy hmark) hop
  | dictionarySetLeaf d k word v =>
    obtain ⟨he₁, hv⟩ := extends_leafCreate he word v
    exact extends_xpcDictionarySetValue he₁ (Own.new ha he hy hmark) hv hop
  | arraySet a i v =>
    exact extends_xpcArraySetValue he (ha.1.new he hy hmark) (ha.2.new he hy hmark) hop
  | arraySetLeaf a i word v =>
    obtain ⟨he₁, hv⟩ := extends_leafCreate he word v
    exact extends_xpcArraySetValue he₁ (Own.new ha he hy hmark) hv hop
  | arrayAppend a v =>
    exact extends_xpcArrayAppendValue he (ha.1.new he hy hmark) (ha.2.new he hy hmark) hop

theorem Run.extends {tr : List (Operation × Except Fault Memory)} (he : Extends m s)
    (hy : m.objects.size ≤ y) (hmark : m.objects.size ≤ mark) (hr : Run (machine y mark) s tr) :
    ∀ p ∈ tr, ∀ s', p.2 = .ok s' → Extends m s' :=
  hr.reached (I := fun s => Extends m s) (fun _ _ _ he ha hop => extends_exec he hy hmark ha hop) he

/-- No block that is reached from the copy is reached from the original. -/
def Separate (m : Memory) (x y : ObjId) : Prop :=
  ∀ b, m.Reaches (.object y) b → ¬ m.Reaches (.object x) b

/-- Every object that was reached from the original is read as before. -/
def Intact (m : Memory) (x : ObjId) (s : Memory) : Prop :=
  ∀ z, m.Reaches (.object x) (.object z) → Unchanged m s z

theorem separate_of_extends (he : Extends m s) (ht : TreeAt m.view x t) (hy : m.objects.size ≤ y) :
    Separate s x y := by
  intro b hyb hxb
  have hx : m.Sound (.object x) := ⟨t, ht⟩
  have hold : m.Has b := (hx.reaches (hx.reaches_extends he hxb)).has
  exact he.reaches (b := .object y) (Nat.not_lt.mpr hy) hyb hold

theorem intact_of_extends (he : Extends m s) (ht : TreeAt m.view x t) : Intact m x s := by
  intro z hz
  have hx : m.Sound (.object x) := ⟨t, ht⟩
  obtain ⟨u, hu⟩ := hx.reaches hz
  exact he.unchanged hu

/-- A copy shares no block with its original, and whatever is done to the copy later,
they share none and the original reads as it did. -/
theorem xpcCopy_separated {n : ℕ} (ht : TreeAt m.view x t) (hc : t.Copyable) (hn : t.height < n) :
    ∃ m' y, xpcCopy n m x = .ok (m', some y) ∧ Separate m' x y ∧ Intact m x m' ∧
      ∀ tr, Run (machine y m'.objects.size) m' tr → ∀ p ∈ tr, ∀ s, p.2 = .ok s →
        Separate s x y ∧ Intact m x s := by
  obtain ⟨m', y, o, hcopy, -⟩ := copied_of_treeAt ht hc hn
  obtain ⟨he, hnew⟩ := extends_xpcCopy m x m' (some y) hcopy
  have hy : m.objects.size ≤ y := hnew y rfl
  refine ⟨m', y, hcopy, separate_of_extends he ht hy, intact_of_extends he ht, ?_⟩
  intro tr hr p hp s hs
  have he' := Run.extends he hy he.objects.size_le hr p hp s hs
  exact ⟨separate_of_extends he' ht hy, intact_of_extends he' ht⟩

end Runs

/-- A dictionary with an array of one boolean and a string. -/
def nested : Memory where
  objects := ⟨[
    some ⟨0, 2, 1, .scalar (.bool true) 1, ⟨some none, some (.first 1)⟩⟩,
    some ⟨0, 2, 0, .array (some 0) (.next 0), ⟨none, none⟩⟩,
    some ⟨0, 2, 1, .str 0, ⟨none, none⟩⟩,
    some ⟨0, 1, 2, .dict [0, 1], ⟨none, none⟩⟩]⟩
  pairs := ⟨[some ⟨keyK, 1⟩, some ⟨keyJ, 2⟩]⟩
  strings := ⟨[some keyK]⟩
  data := ⟨[]⟩

theorem treeAt_nested : TreeAt nested.view 3
    (.dictionary [(keyK, .array [.leaf (.bool true)]), (keyJ, .leaf (.string keyK))]) := by
  refine treeFrom_dictionary.mpr ⟨Nat.zero_le _, _, [(keyK, 1), (keyJ, 2)], rfl, rfl, ?_⟩
  refine .cons ⟨rfl, ?_⟩ (.cons ⟨rfl, ?_⟩ .nil)
  · refine treeFrom_array.mpr ⟨Nat.zero_le _, _, [0], rfl, rfl, .cons ?_ .nil⟩
    exact treeFrom_leaf.mpr ⟨Nat.zero_le _, _, rfl, rfl⟩
  · exact treeFrom_leaf.mpr ⟨Nat.zero_le _, _, rfl, rfl⟩

theorem nested_separated : ∃ m' y, xpcCopy 3 nested 3 = .ok (m', some y) ∧ Separate m' 3 y ∧
    Intact nested 3 m' ∧ ∀ tr, Run (machine y m'.objects.size) m' tr → ∀ p ∈ tr, ∀ s, p.2 = .ok s →
      Separate s 3 y ∧ Intact nested 3 s :=
  xpcCopy_separated treeAt_nested (by simp [Tree.Copyable, Leaf.Copyable]) (by decide)

end OpenXPC.Blocks
