import OpenXPC.Validation

/-! # The results of `process_socket` in `cb_sockets`

The two enumerations of `cb_sockets` share the result, and either is stopped by any
result that is not positive, which `process_socket` never returns. So an array is
left after its first element, and the outer enumeration at its first dictionary. -/
namespace OpenXPC

section Loops

variable {σ : Type} (process : NSObject → σ → Except Stop (ℤ × NSObject × σ))

/-- The inner enumeration, for any function in the place of `process_socket`. -/
def eachElementBy : ℤ → List NSObject → σ → Except Stop (ℤ × List NSObject × σ)
  | r, [], s => .ok (r, [], s)
  | _, obj :: arr, s => do
    let (r, obj, s) ← process obj s
    if r ≤ 0 then .ok (r, obj :: arr, s)
    else
      let (r, arr, s) ← eachElementBy r arr s
      .ok (r, obj :: arr, s)

def eachSocketBy : ℤ → Entries → σ → Except Stop (ℤ × Entries × σ)
  | r, [], s => .ok (r, [], s)
  | r, (key, .array arr) :: dict, s => do
    let (r, arr, s) ← eachElementBy process r arr s
    let (r, dict, s) ← eachSocketBy r dict s
    .ok (r, (key, .array arr) :: dict, s)
  | _, (key, .dictionary sock) :: dict, s => do
    let (r, val, s) ← process (.dictionary sock) s
    if r ≤ 0 then .ok (r, (key, val) :: dict, s)
    else
      let (r, dict, s) ← eachSocketBy r dict s
      .ok (r, (key, val) :: dict, s)
  | r, entry :: dict, s => do
    let (r, dict, s) ← eachSocketBy r dict s
    .ok (r, entry :: dict, s)

def cbSocketsBy (_key : CString) (val : NSObject) (s : σ) : Except Stop (ℤ × NSObject × σ) :=
  match val with
  | .dictionary dict => do
    let (r, dict, s) ← eachSocketBy process 0 dict s
    .ok (r, .dictionary dict, s)
  | _ => .error .unrecognizedSelector

end Loops

theorem eachElementBy_processSocket (os : ℕ → SocketOutcome) (r : ℤ) (arr : List NSObject)
    (w : World) : eachElementBy (processSocket os) r arr w = eachElement os r arr w := by
  induction arr generalizing r w with
  | nil => rfl
  | cons obj arr ih => simp only [eachElementBy, eachElement, ih]

theorem eachSocketBy_processSocket (os : ℕ → SocketOutcome) (r : ℤ) (dict : Entries) (w : World) :
    eachSocketBy (processSocket os) r dict w = eachSocket os r dict w := by
  induction dict generalizing r w with
  | nil => rfl
  | cons e dict ih =>
    obtain ⟨key, val⟩ := e
    cases val with
    | array arr => simp only [eachSocketBy, eachSocket, eachElementBy_processSocket, ih]
    | _ => simp only [eachSocketBy, eachSocket, ih]

theorem cbSocketsBy_processSocket (os : ℕ → SocketOutcome) :
    cbSocketsBy (processSocket os) = cbSockets os := by
  funext key val w
  cases val with
  | dictionary dict => simp only [cbSocketsBy, cbSockets, eachSocketBy_processSocket]
  | _ => rfl

/-! ## Patterns of results -/

/-- The result of each call of `process_socket`: 0, or negative where it fails. -/
structure Results where
  result : ℕ → ℤ
  nonpos : ∀ n, result n ≤ 0

/-- `process_socket` with given results; the entries it is called for are noted. -/
def scripted (p : Results) (val : NSObject) (made : List NSObject) :
    Except Stop (ℤ × NSObject × List NSObject) :=
  .ok (p.result made.length, val, made ++ [val])

/-- The entries for sockets: dictionaries, and the elements of arrays. -/
def socketEntries : Entries → List NSObject
  | [] => []
  | (_, .array arr) :: dict => arr ++ socketEntries dict
  | (_, .dictionary sock) :: dict => .dictionary sock :: socketEntries dict
  | _ :: dict => socketEntries dict

/-- Where the calls for all entries succeed, each entry is processed once and the result is
0; where a call that is made fails, the result is negative. -/
def ReportsResults (p : Results) (dict : Entries) : Prop :=
  ∀ r val' made, cbSocketsBy (scripted p) socketsKey (.dictionary dict) [] = .ok (r, val', made) →
    ((∀ n < (socketEntries dict).length, p.result n = 0) → made = socketEntries dict ∧ r = 0) ∧
      ((∃ n < made.length, p.result n < 0) → r < 0)

/-- No array has a second element, and no entry comes after a dictionary. -/
def NothingSkipped : Entries → Prop
  | [] => True
  | (_, .array arr) :: dict => arr.length ≤ 1 ∧ NothingSkipped dict
  | (_, .dictionary _) :: dict => socketEntries dict = []
  | _ :: dict => NothingSkipped dict

section Patterns

variable {p : Results} {dict : Entries} {made : List NSObject} {r : ℤ}

theorem eachElementBy_scripted (arr : List NSObject) : eachElementBy (scripted p) r arr made =
    .ok (if arr = [] then r else p.result made.length, arr, made ++ arr.take 1) := by
  cases arr with
  | nil => simp [eachElementBy]
  | cons obj arr => simp [eachElementBy, scripted, p.nonpos made.length]

/-- The calls are those of the attempts, and the result is that of the last. -/
theorem eachSocketBy_scripted : eachSocketBy (scripted p) r dict made =
    .ok (if attempts dict = [] then r else p.result (made.length + (attempts dict).length - 1), dict,
      made ++ attempts dict) := by
  induction dict generalizing r made with
  | nil => simp [eachSocketBy, attempts]
  | cons e dict ih =>
    obtain ⟨key, val⟩ := e
    cases val with
    | array arr =>
      rw [eachSocketBy, eachElementBy_scripted, ok_bind]
      dsimp only
      rw [ih, ok_bind]
      cases arr with
      | nil => simp [attempts]
      | cons obj arr =>
        by_cases hnone : attempts dict = []
        · simp [attempts, hnone]
        · have hlen : made.length + 1 + (attempts dict).length - 1 =
              made.length + ((attempts dict).length + 1) - 1 := by omega
          simp [attempts, hnone, hlen]
    | dictionary sock => simp [eachSocketBy, scripted, attempts, p.nonpos made.length]
    | _ =>
      simp only [eachSocketBy, ih, ok_bind]
      rfl

theorem cbSocketsBy_scripted (key : CString) : cbSocketsBy (scripted p) key (.dictionary dict) [] =
    .ok (if attempts dict = [] then 0 else p.result ((attempts dict).length - 1), .dictionary dict,
      attempts dict) := by
  rw [cbSocketsBy, eachSocketBy_scripted, ok_bind]
  simp

theorem attempts_length_le (dict : Entries) : (attempts dict).length ≤ (socketEntries dict).length := by
  induction dict with
  | nil => exact Nat.le_refl 0
  | cons e dict ih =>
    obtain ⟨key, val⟩ := e
    cases val with
    | array arr =>
      simp only [attempts, socketEntries, List.length_append, List.length_take]
      omega
    | dictionary sock => simp [attempts, socketEntries]
    | _ => exact ih

theorem attempts_eq_iff : attempts dict = socketEntries dict ↔ NothingSkipped dict := by
  induction dict with
  | nil => exact iff_of_true rfl trivial
  | cons e dict ih =>
    obtain ⟨key, val⟩ := e
    cases val with
    | array arr =>
      rw [attempts, socketEntries, NothingSkipped, ← ih]
      constructor
      · intro heq
        have hlen := congrArg List.length heq
        simp only [List.length_append, List.length_take] at hlen
        have hle := attempts_length_le dict
        have hone : arr.length ≤ 1 := by omega
        rw [List.take_of_length_le hone] at heq
        exact ⟨hone, List.append_cancel_left heq⟩
      · rintro ⟨hone, heq⟩
        rw [List.take_of_length_le hone, heq]
    | dictionary sock =>
      rw [attempts, socketEntries, NothingSkipped, List.cons.injEq]
      exact ⟨fun h => h.2.symm, fun h => ⟨rfl, h.symm⟩⟩
    | _ => exact ih

end Patterns

/-- `cb_sockets` does what is asked exactly when no entry is skipped, or one of the
calls would fail, and when the last call that is made fails if any of them does. -/
theorem reportsResults_iff (p : Results) (dict : Entries) : ReportsResults p dict ↔
    (NothingSkipped dict ∨ ∃ n < (socketEntries dict).length, p.result n < 0) ∧
      ((∀ n < (attempts dict).length, p.result n = 0) ∨
        p.result ((attempts dict).length - 1) < 0) := by
  have hrun : cbSocketsBy (scripted p) socketsKey (.dictionary dict) [] = _ :=
    cbSocketsBy_scripted socketsKey
  have hsucceed : ∀ n, ¬ p.result n < 0 ↔ p.result n = 0 := fun n => by
    have hle := p.nonpos n
    omega
  constructor
  · intro hreports
    obtain ⟨hall, hsome⟩ := hreports _ _ _ hrun
    constructor
    · by_contra hnot
      push Not at hnot
      obtain ⟨hskipped, hnone⟩ := hnot
      apply hskipped
      apply attempts_eq_iff.mp
      exact (hall (fun n hn => (hsucceed n).mp (Int.not_lt.mpr (hnone n hn)))).1
    · by_contra hnot
      push Not at hnot
      obtain ⟨⟨n, hn, hfails⟩, hlast⟩ := hnot
      have hne : attempts dict ≠ [] := fun h => by simp [h] at hn
      have hneg := hsome ⟨n, hn, lt_of_le_of_ne (p.nonpos n) hfails⟩
      rw [if_neg hne] at hneg
      exact absurd hneg (Int.not_lt.mpr hlast)
  · rintro ⟨hskip, hlast⟩ r val' made hc
    rw [hrun] at hc
    cases hc
    constructor
    · intro hall
      have hnothing : NothingSkipped dict := by
        refine hskip.resolve_right ?_
        rintro ⟨n, hn, hneg⟩
        exact (hsucceed n).mpr (hall n hn) hneg
      have heq := attempts_eq_iff.mpr hnothing
      refine ⟨heq, ?_⟩
      split_ifs with hnone
      · rfl
      · apply hall
        rw [← heq]
        exact Nat.sub_one_lt (fun h => hnone (List.eq_nil_of_length_eq_zero h))
    · rintro ⟨n, hn, hneg⟩
      have hne : attempts dict ≠ [] := fun h => by simp [h] at hn
      rw [if_neg hne]
      exact hlast.resolve_left (fun hall => (hsucceed n).mpr (hall n hn) hneg)

/-- A socket with a path. -/
def socketAt (path : String) : NSObject := .dictionary [(sockPathKey, .string (.literal path))]

/-- Two sockets in one array. -/
def twoInArray : Entries := [(.literal "a", .array [socketAt "/a", socketAt "/b"])]

/-- A socket of an unknown type in an array, and a socket after it. -/
def unknownThenKnown : Entries :=
  [(.literal "a", .array [.dictionary [(sockTypeKey, .string (.literal "x"))]]),
    (.literal "b", socketAt "/b")]

/-- The second socket of an array is skipped, and a failure is overwritten. -/
theorem second_skipped_failure_overwritten :
    (∃ val' w', cbSockets allSucceed.sockets socketsKey (.dictionary twoInArray) emptyWorld =
      .ok (0, val', w') ∧ w'.calls = 1 ∧ (socketEntries twoInArray).length = 2) ∧
    (∃ w' val'' w'' val', processSocket allSucceed.sockets
        (.dictionary [(sockTypeKey, .string (.literal "x"))]) emptyWorld = .ok (-eINVAL, val'', w'') ∧
      cbSockets allSucceed.sockets socketsKey (.dictionary unknownThenKnown) emptyWorld =
        .ok (0, val', w')) ∧
    ¬ ReportsResults ⟨fun _ => 0, fun _ => Int.le_refl 0⟩ twoInArray ∧
    ¬ ReportsResults ⟨fun n => if n = 0 then -22 else 0, fun n => by split_ifs <;> decide⟩
        unknownThenKnown := by
  refine ⟨⟨_, _, rfl, rfl, rfl⟩, ⟨_, _, _, _, rfl, rfl⟩, fun hreports => ?_, fun hreports => ?_⟩
  · have hmade := ((hreports _ _ _ rfl).1 (fun _ _ => rfl)).1
    cases hmade
  · exact absurd ((hreports _ _ _ rfl).2 ⟨0, by decide, by decide⟩) (by decide)

end OpenXPC
