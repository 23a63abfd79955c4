import OpenXPC.TailQueue

/-! # Well-formed tail queues

A queue whose backward links agree with its forward ones. An insertion at the end keeps
it so. Inserting an element of the queue behind another that is in no queue, and then
removing it, does not put the one in the place of the other. -/
namespace OpenXPC.TailQueue

variable {H E : Type*} [DecidableEq H] [DecidableEq E]

namespace Links

/-- Each backward link addresses the cell that leads to its element. -/
def Back (q : Links H E) : Cell H E → List E → Prop
  | _, [] => True
  | c, e :: es => q.tqePrev e = c ∧ q.Back (.next e) es

/-- The queue enumerates the list, and its backward links agree with the forward ones. -/
structure WellFormed (q : Links H E) (h : H) (es : List E) : Prop extends Enumerates q h es where
  back : q.Back (.first h) es

variable {q r : Links H E} {h k : H} {c d : Cell H E} {es ds : List E} {e x old : E}

theorem wellFormed_init (q : Links H E) (h : H) : (q.init h).WellFormed h [] :=
  ⟨enumerates_init q h, trivial⟩

omit [DecidableEq H] [DecidableEq E] in
theorem endCell_mem (c : Cell H E) (es : List E) : endCell c es ∈ c :: es.map .next := by
  rcases endCell_cases c es with ⟨-, hend⟩ | ⟨x, hx, hend⟩
  · rw [hend]
    exact List.mem_cons_self
  · rw [hend]
    exact List.mem_cons_of_mem c (List.mem_map_of_mem (List.mem_of_getLast? hx))

omit [DecidableEq H] [DecidableEq E] in
theorem back_append : q.Back c (es ++ ds) ↔ q.Back c es ∧ q.Back (endCell c es) ds := by
  induction es generalizing c with
  | nil => simp [Back, endCell]
  | cons a es ih => simp [Back, endCell, ih, and_assoc]

omit [DecidableEq H] [DecidableEq E] in
theorem Back.congr (hb : q.Back c es) (heq : ∀ x ∈ es, r.tqePrev x = q.tqePrev x) :
    r.Back c es := by
  induction es generalizing c with
  | nil => trivial
  | cons a es ih =>
    refine ⟨(heq a List.mem_cons_self).trans hb.1, ih hb.2 (fun x hx => heq x ?_)⟩
    exact List.mem_cons_of_mem a hx

omit [DecidableEq H] [DecidableEq E] in
theorem Chain.cells_nodup (hc : q.Chain c es) : (c :: es.map .next : List (Cell H E)).Nodup := by
  have hinj : Function.Injective (Cell.next : E → Cell H E) := fun x y hxy => Cell.next.inj hxy
  refine List.nodup_cons.mpr ⟨fun hmem => ?_, hc.nodup.map hinj⟩
  obtain ⟨x, hx, rfl⟩ := List.mem_map.mp hmem
  obtain ⟨front, back, hes, hb⟩ := hc.suffix hx
  have hlen := congrArg List.length ((hc.unique hb).symm.trans hes)
  simp at hlen
  omega

omit [DecidableEq H] [DecidableEq E] in
theorem Chain.load_eq_head (hc : q.Chain c es) : q.load c = es.head? := by
  cases es with
  | nil => exact hc
  | cons a es => exact hc.1

theorem WellFormed.insertTail (hq : q.WellFormed h es) (he : e ∉ es) :
    (q.insertTail h e).WellFormed h (es ++ [e]) := by
  have hprev : ∀ x, (q.insertTail h e).tqePrev x = if x = e then q.tqhLast h else q.tqePrev x := by
    intro x
    cases hl : q.tqhLast h <;>
      simp [Links.insertTail, store, setPrev, setLast, hl, Function.update_apply]
  refine ⟨hq.toEnumerates.insertTail_self he, back_append.mpr ⟨?_, ?_, trivial⟩⟩
  · apply hq.back.congr
    intro x hx
    have hne : x ≠ e := by
      rintro rfl
      exact he hx
    rw [hprev, if_neg hne]
  · rw [hprev, if_pos rfl, hq.last]

/-! ### What the macros write -/

@[simp] theorem tqePrev_store (q : Links H E) (c : Cell H E) (p : Option E) :
    (q.store c p).tqePrev = q.tqePrev := by cases c <;> rfl

omit [DecidableEq H] in
@[simp] theorem tqePrev_setPrev (q : Links H E) (e x : E) (c : Cell H E) :
    (q.setPrev e c).tqePrev x = if x = e then c else q.tqePrev x := by
  simp [setPrev, Function.update_apply]

omit [DecidableEq E] in
@[simp] theorem tqePrev_setLast (q : Links H E) (h : H) (c : Cell H E) :
    (q.setLast h c).tqePrev = q.tqePrev := rfl

omit [DecidableEq H] [DecidableEq E] in
theorem load_next (q : Links H E) (e : E) : q.load (.next e) = q.tqeNext e := rfl

/-- What points back at a cell: the element that the cell leads to, or the head. -/
def setBack (q : Links H E) (h : H) (p : Option E) (c : Cell H E) : Links H E :=
  match p with
  | some n => q.setPrev n c
  | none => q.setLast h c

@[simp] theorem load_setBack (q : Links H E) (h : H) (p : Option E) (c d : Cell H E) :
    (q.setBack h p c).load d = q.load d := by cases p <;> simp [setBack]

@[simp] theorem tqhLast_setBack (q : Links H E) (h k : H) (p : Option E) (c : Cell H E) :
    (q.setBack h p c).tqhLast k = if k = h ∧ p = none then c else q.tqhLast k := by
  cases p <;> simp [setBack]

@[simp] theorem tqePrev_setBack (q : Links H E) (h : H) (p : Option E) (c : Cell H E) (x : E) :
    (q.setBack h p c).tqePrev x = if p = some x then c else q.tqePrev x := by
  cases p <;> simp [setBack, eq_comm]

/-- The successor is read back from the new element. -/
theorem insertAfter_eq (q : Links H E) (h : H) (listelm e : E) : q.insertAfter h listelm e =
    ((((q.store (.next e) (q.load (.next listelm))).setBack h (q.load (.next listelm)) (.next e)).store
      (.next listelm) (some e)).setPrev e (.next listelm)) := by
  have hself : (q.store (.next e) (q.tqeNext listelm)).tqeNext e = q.tqeNext listelm := by simp [store]
  rw [insertAfter]
  simp only [hself]
  rfl

/-- The element's own links are read back: where it follows itself, what points back at
it is its own link, which is written as it was. -/
theorem remove_eq (q : Links H E) (h : H) (e : E) : q.remove h e =
    (q.setBack h (q.load (.next e)) (q.tqePrev e)).store (q.tqePrev e) (q.load (.next e)) := by
  have hprev : (q.setBack h (q.load (.next e)) (q.tqePrev e)).tqePrev e = q.tqePrev e := by
    rw [tqePrev_setBack, ite_self]
  have hnext : (q.setBack h (q.load (.next e)) (q.tqePrev e)).tqeNext e = q.load (.next e) := by
    rw [← load_next, load_setBack]
  calc q.remove h e = (q.setBack h (q.load (.next e)) (q.tqePrev e)).store
        ((q.setBack h (q.load (.next e)) (q.tqePrev e)).tqePrev e)
        ((q.setBack h (q.load (.next e)) (q.tqePrev e)).tqeNext e) := rfl
    _ = _ := by rw [hprev, hnext]

/-! ### The exchanged elements

An element of a queue is inserted behind another, which is in no queue, and then removed. -/

/-- All that the two macros write: the element takes over the forward link of the other,
and what that link leads to, or the head, addresses the other's cell. -/
structure Misplaced (q r : Links H E) (h : H) (old e : E) : Prop where
  load : ∀ d, r.load d = if d = .next old then q.load (.next e) else q.load d
  prev_old : r.tqePrev old = .next e
  prev : ∀ x, x ≠ old → r.tqePrev x = if q.load (.next e) = some x then .next e else q.tqePrev x
  last : ∀ k, r.tqhLast k = if k = h ∧ q.load (.next e) = none then .next e else q.tqhLast k

theorem misplaced (q : Links H E) (h : H) (hne : e ≠ old) :
    Misplaced q ((q.insertAfter h e old).remove h old) h old e := by
  have hnext : (q.insertAfter h e old).load (.next old) = q.load (.next e) := by
    simp [insertAfter_eq, hne.symm]
  have hprev : (q.insertAfter h e old).tqePrev old = .next e := by simp [insertAfter_eq]
  rw [remove_eq, hnext, hprev]
  constructor
  · intro d
    by_cases hd : d = .next e
    · subst hd
      simp [hne]
    · simp [insertAfter_eq, hd]
  · simp [hprev]
  · intro x hx
    by_cases hfollows : q.load (.next e) = some x
    · simp [hfollows]
    · simp [insertAfter_eq, hx, hfollows]
  · intro k
    by_cases hk : k = h ∧ q.load (.next e) = none
    · simp [hk]
    · simp [insertAfter_eq, hk]

omit [DecidableEq H] [DecidableEq E] in
/-- The cell in front of an element of a chain leads to it. -/
theorem Chain.load_front (hc : q.Chain c (es ++ x :: ds)) : q.load (endCell c es) = some x := by
  induction es generalizing c with
  | nil => exact hc.1
  | cons a es ih => exact ih hc.2

omit [DecidableEq H] [DecidableEq E] in
theorem Chain.front_ne (hc : q.Chain c (es ++ old :: ds)) : endCell c es ≠ .next old := by
  have hcells := hc.cells_nodup
  rw [List.map_append, ← List.cons_append, List.map_cons] at hcells
  intro heq
  exact (List.nodup_append.mp hcells).2.2 _ (endCell_mem c es) _ List.mem_cons_self heq

/-- The queue leads to the removed element as before, and not to the other. -/
theorem Misplaced.not_chain (hr : Misplaced q r h old e) (hc : q.Chain c (es ++ old :: ds))
    (hne : e ≠ old) : ¬ r.Chain c (es ++ e :: ds) := by
  intro hr'
  have hload := hr'.load_front
  rw [hr.load, if_neg hc.front_ne, hc.load_front] at hload
  exact hne (Option.some.inj hload).symm

/-- Behind the removed element the queue goes on as behind the other: it ends there, when
nothing follows the other. -/
theorem Misplaced.chain (hr : Misplaced q r h old e) (hc : q.Chain c (es ++ old :: ds))
    (hend : q.load (.next e) = none) : r.Chain c (es ++ [old]) := by
  induction es generalizing c with
  | nil =>
    have hlast : endCell c [] ≠ .next old := hc.front_ne
    have hco : c ≠ .next old := hlast
    have hold : r.load c = some old := by rw [hr.load, if_neg hco, hc.1]
    have hnone : r.load (.next old) = none := by rw [hr.load, if_pos rfl, hend]
    exact ⟨hold, hnone⟩
  | cons a es ih =>
    have hcells := List.nodup_cons.mp hc.cells_nodup
    have hco : c ≠ .next old := by
      rintro rfl
      exact hcells.1 (List.mem_map_of_mem (by simp))
    refine ⟨?_, ih hc.2⟩
    rw [hr.load, if_neg hco]
    exact hc.1

omit [DecidableEq H] [DecidableEq E] in
/-- A traversal reaches the elements in the order of the list. -/
theorem Chain.nth (hc : q.Chain c es) (i : ℕ) : q.nth i (q.load c) = es[i]? := by
  induction i generalizing c es with
  | zero =>
    rw [hc.load_eq_head]
    cases es <;> rfl
  | succ i ih =>
    cases es with
    | nil =>
      rw [hc.load_eq_head]
      rfl
    | cons a es =>
      rw [hc.1]
      exact ih hc.2

end Links
end OpenXPC.TailQueue
