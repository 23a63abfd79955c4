import OpenXPC.Validation

/-! # The verdict of `validate` and the order of the keys

Foundation enumerates a dictionary in any order. `validate` stops at the first
problem it meets: a value of the wrong class or a callback that fails makes the
result negative, a key that is not in the schema leaves it as it is. -/
namespace OpenXPC.Verdicts
open InsertionMap

/-- A callback may change its own value, values that the schema does not know, and, where
Foundation does not notice it, add such values. -/
structure Untouched (notices : Bool) (schema : List SchemaEntry) (plist plist' : Entries) : Prop where
  lookup : ∀ k, findEntry schema k.utf8String ≠ none → plist'.lookup k = plist.lookup k
  present : ∀ k, plist.lookup k ≠ none → plist'.lookup k ≠ none
  keys : notices = true → plist'.map Prod.fst = plist.map Prod.fst

theorem Untouched.refl (notices : Bool) (schema : List SchemaEntry) (plist : Entries) :
    Untouched notices schema plist plist := ⟨fun _ _ => rfl, fun _ h => h, fun _ => rfl⟩

/-- What a callback does that is given by its result; without one it ends in an exception. -/
def Gives (notices : Bool) (schema : List SchemaEntry) (w : World) :
    Option ℤ → Except Stop (ℤ × NSObject × World) → Prop
  | some r, ran => ∃ val' w', ran = .ok (r, val', w') ∧ Untouched notices schema w.plist w'.plist
  | none, ran => ∃ stop, ran = .error stop

/-- The callbacks are called with values of the right class only, and what they return for
the entries depends on the key and the value. -/
def Determined (notices : Bool) (schema : List SchemaEntry) (result : CString → NSObject → Option ℤ)
    (es : Entries) : Prop :=
  ∀ e ∈ es, ∀ entry cb, findEntry schema e.1.utf8String = some entry → entry.cb = some cb →
    e.2.isKindOf entry.type = true →
    ∀ w, Gives notices schema w (result e.1.utf8String e.2) (cb e.1.utf8String e.2 w)

/-- The result for the entries in this order is not negative. -/
def Accepts (notices : Bool) (schema : List SchemaEntry) (w : World) (es : Entries) : Prop :=
  ∃ r w', validate notices schema { w with plist := es } = .ok (r, w') ∧ 0 ≤ r

/-- The verdict is the same for all orders of the entries. -/
def OrderIndependent (notices : Bool) (schema : List SchemaEntry) (w : World) (plist : Plist) : Prop :=
  ∀ es₁ es₂, es₁.Perm plist.entries → es₂.Perm plist.entries →
    (Accepts notices schema w es₁ ↔ Accepts notices schema w es₂)

def Known (schema : List SchemaEntry) (e : NSString × NSObject) : Prop :=
  findEntry schema e.1.utf8String ≠ none

/-- A negative result, or none. -/
def Negative : Option ℤ → Prop
  | some r => r < 0
  | none => True

/-- The key is in the schema, and the class is wrong or the callback fails. -/
def Fails (schema : List SchemaEntry) (result : CString → NSObject → Option ℤ)
    (e : NSString × NSObject) : Prop :=
  ∃ entry, findEntry schema e.1.utf8String = some entry ∧
    (e.2.isKindOf entry.type = false ∨ (entry.cb ≠ none ∧ Negative (result e.1.utf8String e.2)))

/-- The first problem, if there is one, is a key that is not known. -/
def Passes (schema : List SchemaEntry) (result : CString → NSObject → Option ℤ) : Entries → Prop
  | [] => True
  | e :: es => ¬ Known schema e ∨ (¬ Fails schema result e ∧ Passes schema result es)

section Enumerating

variable {schema : List SchemaEntry} {result : CString → NSObject → Option ℤ} {notices : Bool}
  {es : Entries} {w : World} {r : ℤ}

/-- What is known of the property list, and of the entries still to come. -/
structure Ahead (schema : List SchemaEntry) (w : World) (es : Entries) : Prop where
  distinct : (es.map Prod.fst).Nodup
  lookup : ∀ e ∈ es, Known schema e → w.plist.lookup e.1 = some e.2
  present : ∀ e ∈ es, w.plist.lookup e.1 ≠ none

theorem Ahead.tail {e : NSString × NSObject} (ha : Ahead schema w (e :: es)) : Ahead schema w es :=
  ⟨(List.nodup_cons.mp ha.distinct).2, fun e' he => ha.lookup e' (List.mem_cons_of_mem _ he),
    fun e' he => ha.present e' (List.mem_cons_of_mem _ he)⟩

/-- A callback changes at most the value of its own key. -/
theorem Ahead.afterCallback {key : NSString} {val v : NSObject} {w' : World}
    (ha : Ahead schema w ((key, val) :: es)) (hu : Untouched notices schema w.plist w'.plist) :
    Ahead schema (w'.afterCallback key v r) es := by
  have hne : ∀ e ∈ es, e.1 ≠ key := by
    intro e he heq
    have hmem : e.1 ∈ es.map Prod.fst := List.mem_map_of_mem he
    rw [heq] at hmem
    exact (List.nodup_cons.mp ha.distinct).1 hmem
  have hother : ∀ e ∈ es, (w'.afterCallback key v r).plist.lookup e.1 = w'.plist.lookup e.1 := by
    intro e he
    rw [World.afterCallback, lookup_upsert, if_neg (hne e he)]
  refine ⟨ha.tail.distinct, fun e he hknown => ?_, fun e he => ?_⟩
  · rw [hother e he, hu.lookup e.1 hknown, ha.tail.lookup e he hknown]
  · rw [hother e he]
    exact hu.present e.1 (ha.tail.present e he)

/-- No mutation is noticed. -/
theorem Untouched.not_mutated {key : NSString} {v : NSObject} {w' : World}
    (hu : Untouched notices schema w.plist w'.plist) (hkey : w.plist.lookup key ≠ none) :
    ¬ (notices = true ∧ (w'.afterCallback key v r).plist.map Prod.fst ≠ w.plist.map Prod.fst) := by
  rintro ⟨hnotices, hkeys⟩
  obtain ⟨v', hv'⟩ := Option.ne_none_iff_exists'.mp (hu.present key hkey)
  apply hkeys
  rw [World.afterCallback, upsert_keys, if_pos (mem_of_lookup_eq_some hv'), hu.keys hnotices]

/-- The enumeration goes on past the entries without a problem, and the first problem
decides. -/
theorem validateKeys_accepts (hd : Determined notices schema result es) (hr : 0 ≤ r)
    (ha : Ahead schema w es) :
    (∃ r' w', validateKeys notices schema (es.map Prod.fst) r w = .ok (r', w') ∧ 0 ≤ r') ↔
      Passes schema result es := by
  induction es generalizing r w with
  | nil => exact ⟨fun _ => trivial, fun _ => ⟨r, w, rfl, hr⟩⟩
  | cons e es ih =>
    obtain ⟨key, val⟩ := e
    have hmem : (key, val) ∈ (key, val) :: es := List.mem_cons_self
    have hd' : Determined notices schema result es := fun e he => hd e (List.mem_cons_of_mem _ he)
    rw [List.map_cons, Passes, validateKeys]
    obtain hentry | ⟨entry, hentry⟩ := Option.eq_none_or_eq_some (findEntry schema key.utf8String)
    · have hunknown : ¬ Known schema (key, val) := fun h => h hentry
      obtain ⟨v, hv⟩ := Option.ne_none_iff_exists'.mp (ha.present _ hmem)
      simp only [hv, hentry, hunknown, not_false_eq_true, true_or, iff_true]
      exact ⟨r, w, rfl, hr⟩
    · have hknown : Known schema (key, val) := by simp [Known, hentry]
      have hval : w.plist.lookup key = some val := ha.lookup _ hmem hknown
      have hfails : Fails schema result (key, val) ↔ val.isKindOf entry.type = false ∨
          (entry.cb ≠ none ∧ Negative (result key.utf8String val)) := by
        simp [Fails, hentry]
      rw [hfails]
      simp only [hval, hentry, hknown, not_true_eq_false, false_or]
      by_cases hclass : val.isKindOf entry.type = true
      · cases hcb : entry.cb with
        | none => simpa [hclass] using ih hd' hr ha.tail
        | some cb =>
          have hgives := hd _ hmem entry cb hentry hcb hclass w
          cases hresult : result key.utf8String val with
          | none =>
            rw [hresult] at hgives
            obtain ⟨stop, hrun⟩ := hgives
            simp [hclass, hrun, Negative]
          | some r₁ =>
            rw [hresult] at hgives
            obtain ⟨val', w', hrun, hu⟩ := hgives
            simp only [hclass, if_true, hrun, ok_bind, Negative]
            by_cases hneg : r₁ < 0
            · simp [hneg, Int.not_le.mpr hneg]
            · rw [if_neg hneg, if_neg (hu.not_mutated (ha.present _ hmem)),
                ih hd' (Int.not_lt.mp hneg) (ha.afterCallback hu)]
              simp [hneg]
      · simp only [hclass, Bool.false_eq_true, if_false]
        simp [eINVAL]

theorem accepts_iff {es : Entries} (hd : Determined notices schema result es)
    (hdistinct : (es.map Prod.fst).Nodup) :
    Accepts notices schema w es ↔ Passes schema result es := by
  have hlookup : ∀ e ∈ es, es.lookup e.1 = some e.2 := fun _ he => lookup_of_mem hdistinct he
  refine validateKeys_accepts hd (Int.le_refl 0) ⟨hdistinct, fun e he _ => hlookup e he, fun e he => ?_⟩
  rw [hlookup e he]
  exact Option.some_ne_none _

theorem passes_of_no_fails (h : ∀ e ∈ es, ¬ Fails schema result e) : Passes schema result es := by
  induction es with
  | nil => trivial
  | cons e es ih =>
    exact .inr ⟨h e List.mem_cons_self, ih (fun e' he => h e' (List.mem_cons_of_mem _ he))⟩

theorem passes_iff_of_known (h : ∀ e ∈ es, Known schema e) :
    Passes schema result es ↔ ∀ e ∈ es, ¬ Fails schema result e := by
  induction es with
  | nil => simp [Passes]
  | cons e es ih =>
    rw [Passes, ih (fun e' he => h e' (List.mem_cons_of_mem _ he)), List.forall_mem_cons]
    exact or_iff_right (not_not.mpr (h e List.mem_cons_self))

theorem Fails.known {e : NSString × NSObject} (h : Fails schema result e) : Known schema e := by
  obtain ⟨entry, hentry, -⟩ := h
  simp [Known, hentry]

/-- Every entry is the first in some order. -/
theorem exists_first {e : NSString × NSObject} (he : e ∈ es) :
    ∃ es', (e :: es').Perm es := by
  obtain ⟨s, t, rfl⟩ := List.append_of_mem he
  exact ⟨s ++ t, List.perm_middle.symm⟩

end Enumerating

/-- The verdict depends on the order exactly when a key that is not known stands
beside an entry that fails: whichever comes first decides. -/
theorem orderIndependent_iff {notices : Bool} {schema : List SchemaEntry}
    {result : CString → NSObject → Option ℤ} {plist : Plist}
    (hd : Determined notices schema result plist.entries) (w : World) :
    OrderIndependent notices schema w plist ↔
      (∀ e ∈ plist.entries, Known schema e) ∨ (∀ e ∈ plist.entries, ¬ Fails schema result e) := by
  have haccepts : ∀ es : Entries, es.Perm plist.entries →
      (Accepts notices schema w es ↔ Passes schema result es) := fun es hes =>
    accepts_iff (fun e he => hd e (hes.mem_iff.mp he))
      ((hes.map Prod.fst).nodup_iff.mpr plist.distinct)
  constructor
  · intro hind
    by_contra hboth
    push Not at hboth
    obtain ⟨⟨u, hu, hunknown⟩, ⟨f, hf, hfails⟩⟩ := hboth
    obtain ⟨es₁, hfirst₁⟩ := exists_first hu
    obtain ⟨es₂, hfirst₂⟩ := exists_first hf
    have hiff := hind _ _ hfirst₁ hfirst₂
    rw [haccepts _ hfirst₁, haccepts _ hfirst₂] at hiff
    rcases hiff.mp (.inl hunknown) with h | h
    · exact h hfails.known
    · exact h.1 hfails
  · intro hcases es₁ es₂ h₁ h₂
    rw [haccepts es₁ h₁, haccepts es₂ h₂]
    rcases hcases with hknown | hnot
    · have hknown₁ : ∀ e ∈ es₁, Known schema e := fun e he => hknown e (h₁.mem_iff.mp he)
      have hknown₂ : ∀ e ∈ es₂, Known schema e := fun e he => hknown e (h₂.mem_iff.mp he)
      rw [passes_iff_of_known hknown₁, passes_iff_of_known hknown₂]
      exact forall_congr' (fun e => by rw [h₁.mem_iff, h₂.mem_iff])
    · exact iff_of_true (passes_of_no_fails (fun e he => hnot e (h₁.mem_iff.mp he)))
        (passes_of_no_fails (fun e he => hnot e (h₂.mem_iff.mp he)))

/-! ## The schema of the program -/

/-- What the callbacks return for the two property lists below. -/
def openedResult (key : CString) (val : NSObject) : Option ℤ :=
  match val with
  | .array arr => if key = progargsKey then some (eachArgument 0 arr) else none
  | .dictionary _ => some 0
  | _ => none

/-- `Foo`, which no schema knows, and an argument that is a number. -/
def fooAndArgument : Plist :=
  ⟨[(.literal "Foo", .string ⟨[120]⟩), (.literal "ProgramArguments", .array [.number (.long 5)])],
    by decide⟩

theorem fooAndArgument_determined :
    Determined false (entries allSucceed.sockets) openedResult fooAndArgument.entries := by
  intro e he entry cb hentry hcb _ w
  rcases List.mem_pair.mp he with rfl | rfl
  · cases hentry
  · obtain rfl := Option.some.inj hentry
    cases hcb
    exact ⟨_, w, rfl, .refl _ _ _⟩

theorem argument_rejected_if_first :
    Determined false (entries allSucceed.sockets) openedResult fooAndArgument.entries ∧
      Accepts false (entries allSucceed.sockets) emptyWorld fooAndArgument.entries ∧
      ¬ Accepts false (entries allSucceed.sockets) emptyWorld fooAndArgument.entries.reverse ∧
      ¬ OrderIndependent false (entries allSucceed.sockets) emptyWorld fooAndArgument := by
  have hfirst : Accepts false (entries allSucceed.sockets) emptyWorld fooAndArgument.entries :=
    ⟨0, _, rfl, Int.le_refl 0⟩
  have hlast : ¬ Accepts false (entries allSucceed.sockets) emptyWorld fooAndArgument.entries.reverse := by
    rintro ⟨r, w', hv, hr⟩
    obtain rfl : -1 = r := congrArg Prod.fst (Except.ok.inj hv)
    exact absurd hr (by decide)
  refine ⟨fooAndArgument_determined, hfirst, hlast, fun hind => hlast ?_⟩
  exact (hind _ _ (.refl _) (List.reverse_perm _)).mp hfirst

/-- Arguments and a socket for which the callbacks pass, beside a key that is not known. -/
def fooAndSocket : Plist :=
  ⟨[(.literal "Foo", .string ⟨[120]⟩), (.literal "ProgramArguments", .array [.string ⟨[97]⟩]),
    (.literal "Sockets", .dictionary [(.literal "s", .dictionary [(sockPathKey, .string ⟨[47]⟩)])])],
    by decide⟩

theorem fooAndSocket_determined :
    Determined false (entries allSucceed.sockets) openedResult fooAndSocket.entries := by
  intro e he entry cb hentry hcb _ w
  simp only [fooAndSocket, List.mem_cons, List.not_mem_nil, or_false] at he
  rcases he with rfl | rfl | rfl
  · cases hentry
  · obtain rfl := Option.some.inj hentry
    cases hcb
    exact ⟨_, w, rfl, .refl _ _ _⟩
  · obtain rfl := Option.some.inj hentry
    cases hcb
    exact ⟨_, _, rfl, .refl _ _ _⟩

theorem fooAndSocket_orderIndependent :
    OrderIndependent false (entries allSucceed.sockets) emptyWorld fooAndSocket := by
  refine (orderIndependent_iff fooAndSocket_determined emptyWorld).mpr (.inr ?_)
  intro e he
  rintro ⟨entry, hentry, hbad⟩
  simp only [fooAndSocket, List.mem_cons, List.not_mem_nil, or_false] at he
  rcases he with rfl | rfl | rfl
  · cases hentry
  · obtain rfl := Option.some.inj hentry
    rcases hbad with hclass | ⟨-, hneg⟩
    · cases hclass
    · exact Int.lt_irrefl 0 hneg
  · obtain rfl := Option.some.inj hentry
    rcases hbad with hclass | ⟨-, hneg⟩
    · cases hclass
    · exact Int.lt_irrefl 0 hneg

end OpenXPC.Verdicts
