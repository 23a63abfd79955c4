import Mathlib.Data.List.Nodup
import Mathlib.Logic.Function.Basic

/-! # Intrusive tail queues

The queue macros over an explicit store of link fields. An element carries one
pair of links, whatever queues it is put in; a head carries a first pointer and
the address of the pointer cell that ends the queue. Addresses of pointer cells
are values, so the macros are the assignments they expand to. -/
namespace OpenXPC.TailQueue

/-- The address of a pointer cell: a head's `tqh_first` or an element's `tqe_next`. -/
inductive Cell (H E : Type*)
  | first (h : H)
  | next (e : E)
  deriving DecidableEq

structure Links (H E : Type*) where
  tqhFirst : H → Option E
  tqhLast : H → Cell H E
  tqeNext : E → Option E
  tqePrev : E → Cell H E

variable {H E : Type*} [DecidableEq H] [DecidableEq E]

namespace Links

/-- The pointer held in a cell. -/
def load (q : Links H E) : Cell H E → Option E
  | .first h => q.tqhFirst h
  | .next e => q.tqeNext e

def store (q : Links H E) (c : Cell H E) (p : Option E) : Links H E :=
  match c with
  | .first h => { q with tqhFirst := Function.update q.tqhFirst h p }
  | .next e => { q with tqeNext := Function.update q.tqeNext e p }

def setLast (q : Links H E) (h : H) (c : Cell H E) : Links H E :=
  { q with tqhLast := Function.update q.tqhLast h c }

def setPrev (q : Links H E) (e : E) (c : Cell H E) : Links H E :=
  { q with tqePrev := Function.update q.tqePrev e c }

/-- `TAILQ_INIT` -/
def init (q : Links H E) (h : H) : Links H E :=
  (q.store (.first h) none).setLast h (.first h)

/-- `TAILQ_INSERT_TAIL` -/
def insertTail (q : Links H E) (h : H) (e : E) : Links H E :=
  let q := q.store (.next e) none
  let q := q.setPrev e (q.tqhLast h)
  let q := q.store (q.tqhLast h) (some e)
  q.setLast h (.next e)

/-- `TAILQ_INSERT_AFTER` -/
def insertAfter (q : Links H E) (h : H) (listelm e : E) : Links H E :=
  let q := q.store (.next e) (q.tqeNext listelm)
  let q := match q.tqeNext e with
    | some n => q.setPrev n (.next e)
    | none => q.setLast h (.next e)
  let q := q.store (.next listelm) (some e)
  q.setPrev e (.next listelm)

/-- `TAILQ_REMOVE` -/
def remove (q : Links H E) (h : H) (e : E) : Links H E :=
  let q := match q.tqeNext e with
    | some n => q.setPrev n (q.tqePrev e)
    | none => q.setLast h (q.tqePrev e)
  q.store (q.tqePrev e) (q.tqeNext e)

/-- The elements a `TAILQ_FOREACH` visits from a pointer on, `none` while the
given number of steps does not reach the end of the queue. -/
def visit (q : Links H E) : ℕ → Option E → Option (List E)
  | _, none => some []
  | 0, some _ => none
  | n + 1, some e => (q.visit n (q.tqeNext e)).map (e :: ·)

/-- The element a traversal reaches after the given number of steps. -/
def nth (q : Links H E) : ℕ → Option E → Option E
  | _, none => none
  | 0, some e => some e
  | n + 1, some e => q.nth n (q.tqeNext e)

@[simp] theorem load_store (q : Links H E) (c d : Cell H E) (p : Option E) :
    (q.store c p).load d = if d = c then p else q.load d := by
  cases c <;> cases d <;> simp [store, load, Function.update_apply]

@[simp] theorem tqhLast_store (q : Links H E) (c : Cell H E) (p : Option E) :
    (q.store c p).tqhLast = q.tqhLast := by cases c <;> rfl

omit [DecidableEq H] in
@[simp] theorem load_setPrev (q : Links H E) (e : E) (c d : Cell H E) :
    (q.setPrev e c).load d = q.load d := by cases d <;> rfl

omit [DecidableEq H] in
@[simp] theorem tqhLast_setPrev (q : Links H E) (e : E) (c : Cell H E) :
    (q.setPrev e c).tqhLast = q.tqhLast := rfl

omit [DecidableEq E] in
@[simp] theorem load_setLast (q : Links H E) (h : H) (c d : Cell H E) :
    (q.setLast h c).load d = q.load d := by cases d <;> rfl

omit [DecidableEq E] in
@[simp] theorem tqhLast_setLast (q : Links H E) (h k : H) (c : Cell H E) :
    (q.setLast h c).tqhLast k = if k = h then c else q.tqhLast k := by
  simp [setLast, Function.update_apply]

@[simp] theorem load_init (q : Links H E) (h : H) (d : Cell H E) :
    (q.init h).load d = if d = .first h then none else q.load d := by simp [init]

@[simp] theorem tqhLast_init (q : Links H E) (h k : H) :
    (q.init h).tqhLast k = if k = h then .first h else q.tqhLast k := by simp [init]

/-- The cell that ended the queue points to the new element even when it is the
new element's own cell. -/
@[simp] theorem load_insertTail (q : Links H E) (h : H) (e : E) (d : Cell H E) :
    (q.insertTail h e).load d =
      if d = q.tqhLast h then some e else if d = .next e then none else q.load d := by
  simp [insertTail]

@[simp] theorem tqhLast_insertTail (q : Links H E) (h k : H) (e : E) :
    (q.insertTail h e).tqhLast k = if k = h then .next e else q.tqhLast k := by
  simp [insertTail]

theorem tqhLast_insertTail_of_ne (q : Links H E) (h : H) (e : E) {k : H} (hk : k ≠ h) :
    (q.insertTail h e).tqhLast k = q.tqhLast k := by simp [hk]

/-! ## Chains -/

/-- From the cell on, the forward links lead through exactly the listed elements. -/
def Chain (q : Links H E) : Cell H E → List E → Prop
  | c, [] => q.load c = none
  | c, e :: es => q.load c = some e ∧ q.Chain (.next e) es

/-- The cell that ends a chain. -/
def endCell : Cell H E → List E → Cell H E
  | c, [] => c
  | _, e :: es => endCell (.next e) es

omit [DecidableEq H] [DecidableEq E] in
theorem endCell_append (c : Cell H E) (es : List E) (e : E) :
    endCell c (es ++ [e]) = .next e := by
  induction es generalizing c with
  | nil => rfl
  | cons a es ih => exact ih _

omit [DecidableEq H] [DecidableEq E] in
theorem endCell_cases (c : Cell H E) (es : List E) :
    (es = [] ∧ endCell c es = c) ∨ ∃ e, es.getLast? = some e ∧ endCell c es = .next e := by
  rcases List.eq_nil_or_concat es with rfl | ⟨front, e, rfl⟩
  · exact Or.inl ⟨rfl, rfl⟩
  · exact Or.inr ⟨e, by simp, by simpa using endCell_append c front e⟩

omit [DecidableEq H] [DecidableEq E] in
theorem Chain.load_endCell {q : Links H E} {c : Cell H E} {es : List E} (h : q.Chain c es) :
    q.load (endCell c es) = none := by
  induction es generalizing c with
  | nil => exact h
  | cons e es ih => exact ih h.2

omit [DecidableEq H] [DecidableEq E] in
/-- A chain depends only on the cells it passes. -/
theorem Chain.congr {q r : Links H E} {c : Cell H E} {es : List E} (h : q.Chain c es)
    (heq : ∀ d ∈ c :: es.map .next, r.load d = q.load d) : r.Chain c es := by
  induction es generalizing c with
  | nil => exact (heq c (by simp)).trans h
  | cons e es ih =>
    refine ⟨(heq c (by simp)).trans h.1, ih h.2 (fun d hd => heq d ?_)⟩
    exact List.mem_cons_of_mem _ (by simpa using hd)

omit [DecidableEq H] [DecidableEq E] in
theorem Chain.unique {q : Links H E} {c : Cell H E} {es ds : List E} (h : q.Chain c es)
    (h' : q.Chain c ds) : es = ds := by
  induction es generalizing c ds with
  | nil =>
    cases ds with
    | nil => rfl
    | cons d ds => cases h.symm.trans h'.1
  | cons e es ih =>
    cases ds with
    | nil => cases h'.symm.trans h.1
    | cons d ds =>
      obtain rfl : e = d := Option.some.inj (h.1.symm.trans h'.1)
      rw [ih h.2 h'.2]

omit [DecidableEq H] [DecidableEq E] in
theorem Chain.suffix {q : Links H E} {c : Cell H E} {es : List E} (h : q.Chain c es)
    {e : E} (he : e ∈ es) : ∃ front back, es = front ++ e :: back ∧ q.Chain (.next e) back := by
  induction es generalizing c with
  | nil => simp at he
  | cons a es ih =>
    rcases List.mem_cons.mp he with rfl | he
    · exact ⟨[], es, rfl, h.2⟩
    · obtain ⟨front, back, rfl, hb⟩ := ih h.2 he
      exact ⟨a :: front, back, rfl, hb⟩

omit [DecidableEq H] [DecidableEq E] in
/-- A repeated element would make the links loop, so a chain that ends has none. -/
theorem Chain.nodup {q : Links H E} {c : Cell H E} {es : List E} (h : q.Chain c es) :
    es.Nodup := by
  induction es generalizing c with
  | nil => exact List.nodup_nil
  | cons e es ih =>
    refine List.nodup_cons.mpr ⟨fun he => ?_, ih h.2⟩
    obtain ⟨front, back, hes, hb⟩ := h.2.suffix he
    have hlen := congrArg List.length ((h.2.unique hb).symm.trans hes)
    simp at hlen
    omega

omit [DecidableEq H] [DecidableEq E] in
theorem Chain.visit {q : Links H E} {c : Cell H E} {es : List E} (h : q.Chain c es) {n : ℕ}
    (hn : es.length ≤ n) : q.visit n (q.load c) = some es := by
  induction es generalizing c n with
  | nil => rw [h]; cases n <;> rfl
  | cons e es ih =>
    obtain ⟨n, rfl⟩ : ∃ k, n = k + 1 := ⟨n - 1, by simp at hn; omega⟩
    rw [h.1]
    exact congrArg (Option.map (e :: ·)) (ih h.2 (by simpa using hn))

omit [DecidableEq H] [DecidableEq E] in
/-- A traversal ends after visiting exactly the elements of a chain. -/
theorem exists_visit_iff {q : Links H E} {c : Cell H E} {es : List E} :
    (∃ n, q.visit n (q.load c) = some es) ↔ q.Chain c es := by
  constructor
  swap
  · exact fun h => ⟨es.length, h.visit (Nat.le_refl _)⟩
  rintro ⟨n, h⟩
  induction n generalizing c es with
  | zero =>
    cases hc : q.load c with
    | none => simp [hc, Links.visit] at h; subst h; exact hc
    | some e => simp [hc, Links.visit] at h
  | succ n ih =>
    cases hc : q.load c with
    | none => simp [hc, Links.visit] at h; subst h; exact hc
    | some e =>
      simp only [hc, Links.visit, Option.map_eq_some_iff] at h
      obtain ⟨ds, hd, rfl⟩ := h
      exact ⟨hc, @ih (.next e) ds hd⟩

/-! ## Successors -/

omit [DecidableEq H] in
/-- The element that follows the first occurrence of another in a list. -/
def successor (x : E) : List E → Option E
  | [] => none
  | e :: es => if e = x then es.head? else successor x es

omit [DecidableEq H] in
/-- The links of a chain are the successors in its list. -/
theorem Chain.load_next {q : Links H E} {c : Cell H E} {es : List E} (h : q.Chain c es) {x : E}
    (hx : x ∈ es) : q.load (.next x) = successor x es := by
  induction es generalizing c with
  | nil => simp at hx
  | cons e es ih =>
    by_cases he : e = x
    · subst he
      rw [successor, if_pos rfl]
      cases es with
      | nil => exact h.2
      | cons d es => exact h.2.1
    · rw [successor, if_neg he]
      exact ih h.2 ((List.mem_cons.mp hx).resolve_left (Ne.symm he))

/-! ## Queues -/

/-- The queue of a head enumerates the list: the first pointer starts a chain of
it, and the last pointer addresses the cell that ends the chain. -/
structure Enumerates (q : Links H E) (h : H) (es : List E) : Prop where
  chain : q.Chain (.first h) es
  last : q.tqhLast h = endCell (.first h) es

theorem enumerates_init (q : Links H E) (h : H) : (q.init h).Enumerates h [] :=
  ⟨by simp [Chain], by simp [endCell]⟩

theorem Enumerates.init_other {q : Links H E} {h k : H} {es : List E} (hk : q.Enumerates k es)
    (hne : k ≠ h) : (q.init h).Enumerates k es := by
  refine ⟨hk.chain.congr (fun d hd => ?_), by simp [hne, hk.last]⟩
  rcases List.mem_cons.mp hd with rfl | hd
  · simp [hne]
  · obtain ⟨e, -, rfl⟩ := List.mem_map.mp hd
    simp

omit [DecidableEq H] [DecidableEq E] in
private theorem Chain.snoc {q r : Links H E} {c : Cell H E} {es : List E} {e : E}
    (h : q.Chain c es) (hc : c ≠ .next e) (he : e ∉ es) (hend : r.load (endCell c es) = some e)
    (hnew : r.load (.next e) = none)
    (hold : ∀ d, d ≠ endCell c es → d ≠ .next e → r.load d = q.load d) :
    r.Chain c (es ++ [e]) := by
  induction es generalizing c with
  | nil => exact ⟨hend, hnew⟩
  | cons a es ih =>
    have ha : (.next a : Cell H E) ≠ .next e := by
      rintro ⟨⟩
      exact he List.mem_cons_self
    -- the cell holds a pointer, so it is not the cell that ends the chain
    have hcend : c ≠ endCell (.next a) es := by
      rintro heq
      have hn := h.2.load_endCell
      rw [← heq, h.1] at hn
      cases hn
    exact ⟨(hold c hcend hc).trans h.1, ih h.2 ha (fun hm => he (List.mem_cons_of_mem _ hm)) hend hold⟩

theorem Enumerates.insertTail_self {q : Links H E} {h : H} {es : List E} {e : E}
    (hq : q.Enumerates h es) (he : e ∉ es) : (q.insertTail h e).Enumerates h (es ++ [e]) := by
  have hne : (.next e : Cell H E) ≠ endCell (.first h) es := by
    rcases endCell_cases (.first h : Cell H E) es with ⟨-, hc⟩ | ⟨d, hd, hc⟩
    · simp [hc]
    · rw [hc]
      rintro ⟨⟩
      exact he (List.mem_of_getLast? hd)
  refine ⟨hq.chain.snoc (by simp) he (by simp [hq.last]) (by simp [hq.last, hne]) ?_, ?_⟩
  · intro d hd hdn
    simp [hq.last, hd, hdn]
  · simp [endCell_append]

/-- Inserting into a queue writes no cell but its last one and the new element's. -/
theorem Enumerates.load_insertTail_of_ne {q : Links H E} {h : H} {es : List E} {e : E}
    (hq : q.Enumerates h es) {d : Cell H E} (hfirst : d ≠ .first h)
    (hes : ∀ x ∈ es ++ [e], d ≠ .next x) : (q.insertTail h e).load d = q.load d := by
  have he : d ≠ .next e := hes e (by simp)
  have hdlast : d ≠ q.tqhLast h := by
    rw [hq.last]
    rcases endCell_cases (.first h : Cell H E) es with ⟨-, hc⟩ | ⟨x, hx, hc⟩
    · rw [hc]
      exact hfirst
    · rw [hc]
      exact hes x (List.mem_append_left _ (List.mem_of_getLast? hx))
  simp [hdlast, he]

def insertTails (q : Links H E) (h : H) (xs : List E) : Links H E :=
  xs.foldl (fun q x => q.insertTail h x) q

theorem Enumerates.insertTails {q : Links H E} {h : H} {es xs : List E}
    (hq : q.Enumerates h es) (hn : (es ++ xs).Nodup) :
    (q.insertTails h xs).Enumerates h (es ++ xs) ∧
      (∀ k, k ≠ h → (q.insertTails h xs).tqhLast k = q.tqhLast k) ∧
      ∀ d, d ≠ .first h → (∀ x ∈ es ++ xs, d ≠ .next x) →
        (q.insertTails h xs).load d = q.load d := by
  induction xs generalizing q es with
  | nil => exact ⟨by simpa [Links.insertTails] using hq, fun k hk => rfl, fun d hd hx => rfl⟩
  | cons x xs ih =>
    have hx : x ∉ es := by
      intro hm
      exact (List.nodup_append.mp hn).2.2 x hm x List.mem_cons_self rfl
    have hassoc : es ++ x :: xs = (es ++ [x]) ++ xs := by simp
    rw [hassoc] at hn ⊢
    obtain ⟨henum, hlast, hload⟩ := ih (hq.insertTail_self hx) hn
    refine ⟨henum, fun k hk => ?_, fun d hd hds => ?_⟩
    · rw [← q.tqhLast_insertTail_of_ne h x hk]
      exact hlast k hk
    · rw [← hq.load_insertTail_of_ne hd (fun y hy => hds y (List.mem_append_left _ hy))]
      exact hload d hd hds

omit [DecidableEq H] in
/-- A queue is as it was after another one was rewritten, when the members they
share have the same successors in both. -/
theorem Enumerates.of_agree {q r : Links H E} {h k : H} {es ks : List E}
    (hk : q.Enumerates k ks) (hr : r.Enumerates h es) (hne : k ≠ h)
    (hlast : r.tqhLast k = q.tqhLast k)
    (hload : ∀ d, d ≠ .first h → (∀ x ∈ es, d ≠ .next x) → r.load d = q.load d)
    (hagree : ∀ x ∈ ks, x ∈ es → successor x ks = successor x es) : r.Enumerates k ks := by
  refine ⟨hk.chain.congr (fun d hd => ?_), hlast.trans hk.last⟩
  rcases List.mem_cons.mp hd with hd | hd
  · subst hd
    exact hload _ (by simpa using hne) (by simp)
  · obtain ⟨x, hx, rfl⟩ := List.mem_map.mp hd
    by_cases hxe : x ∈ es
    · rw [hr.chain.load_next hxe, hk.chain.load_next hx, hagree x hx hxe]
    · apply hload _ (by simp)
      intro y hy hxy
      cases hxy
      exact hxe hy

end Links
end OpenXPC.TailQueue
