import OpenXPC.Conversion
import OpenXPC.Sockets

/-! # Validating and sending a property list

`validate` goes through the keys of a property list, in the order in which
Foundation enumerates them, and checks each against the schema. `loadfile` then
converts the property list and sends it. -/
namespace OpenXPC
open InsertionMap

/-! ## The functions -/

inductive EntryType
  | kAny
  | kDictionary
  | kArray
  | kNumber
  | kString
  | kBool
  deriving DecidableEq

inductive Need
  | kOptional
  | kRequired
  deriving DecidableEq

/-- A callback returns its result, and the value and the world as it leaves them. -/
abbrev SchemaCb := CString → NSObject → World → Except Stop (ℤ × NSObject × World)

structure SchemaEntry where
  key : CString
  type : EntryType
  cb : Option SchemaCb
  need : Need

/-- `isKindOfClass:` for the class that stands for the type. -/
def NSObject.isKindOf : NSObject → EntryType → Bool
  | _, .kAny => true
  | .dictionary _, .kDictionary => true
  | .array _, .kArray => true
  | .number _, .kNumber => true
  | .string _, .kString => true
  | .number _, .kBool => true
  | _, _ => false

/-- The loop does not end at a match, so the last one counts. -/
def findEntry (schema : List SchemaEntry) (key : CString) : Option SchemaEntry :=
  schema.foldl (fun entry s => if key = s.key then some s else entry) none

/-- What a callback leaves: the value in the property list, and what it returned. -/
def World.afterCallback (w : World) (key : NSString) (val : NSObject) (r : ℤ) : World :=
  { w with plist := upsert key val w.plist, returned := r :: w.returned }

/-- The enumeration of `validate`. Whether Foundation notices that a callback has
added a key is unspecified; where it does not, it goes on with the keys it had. -/
def validateKeys (notices : Bool) (schema : List SchemaEntry) :
    List NSString → ℤ → World → Except Stop (ℤ × World)
  | [], r, w => .ok (r, w)
  | key :: keys, r, w =>
    match w.plist.lookup key with
    | none => validateKeys notices schema keys r w
    | some val =>
      match findEntry schema key.utf8String with
      -- the result stays what it was
      | none => .ok (r, w)
      | some entry =>
        if val.isKindOf entry.type then
          match entry.cb with
          | none => validateKeys notices schema keys r w
          | some cb => do
            let (r, val', w') ← cb key.utf8String val w
            let w'' := w'.afterCallback key val' r
            if r < 0 then .ok (r, w'')
            else if notices ∧ w''.plist.map Prod.fst ≠ w.plist.map Prod.fst then .error .mutated
            else validateKeys notices schema keys r w''
        else .ok (-eINVAL, w)

def validate (notices : Bool) (schema : List SchemaEntry) (w : World) : Except Stop (ℤ × World) :=
  validateKeys notices schema (w.plist.map Prod.fst) 0 w

def eachArgument : ℤ → List NSObject → ℤ
  | r, [] => r
  | r, .string _ :: arr => eachArgument r arr
  | _, _ :: _ => -1

def cbProgargs : SchemaCb := fun _ val w =>
  match val with
  | .array arr => .ok (eachArgument 0 arr, val, w)
  | _ => .error .unrecognizedSelector

def cStringLiteral (s : String) : CString := (NSString.literal s).utf8String

def labelKey : CString := cStringLiteral "Label"

def progargsKey : CString := cStringLiteral "ProgramArguments"

def socketsKey : CString := cStringLiteral "Sockets"

def entries (os : ℕ → SocketOutcome) : List SchemaEntry :=
  [⟨labelKey, .kString, none, .kRequired⟩,
   ⟨cStringLiteral "Disabled", .kBool, none, .kOptional⟩,
   ⟨cStringLiteral "UserName", .kString, none, .kOptional⟩,
   ⟨cStringLiteral "GroupName", .kString, none, .kOptional⟩,
   ⟨cStringLiteral "inetdCompatibility", .kDictionary, none, .kOptional⟩,
   ⟨cStringLiteral "Program", .kString, none, .kOptional⟩,
   ⟨progargsKey, .kArray, some cbProgargs, .kOptional⟩,
   ⟨cStringLiteral "ServiceIPC", .kBool, none, .kOptional⟩,
   ⟨socketsKey, .kDictionary, some (cbSockets os), .kOptional⟩]

/-- What is chosen outside the program. -/
structure Environment where
  notices : Bool
  sockets : ℕ → SocketOutcome

/-- The result of `validate` is dropped. -/
def parsefile (env : Environment) (w : World) : Except Stop World := do
  let (_, w) ← validate env.notices (entries env.sockets) w
  .ok w

/-- A file as Foundation reads it. -/
inductive PlistFile
  | unreadable
  | malformed
  | plist (v : NSObject)

inductive Loaded
  | unreadable
  | malformed
  | notDictionary
  | sent (w : World) (h : Heap (List ObjId)) (message : Option ObjId)

/-- The description that is logged before the message is sent is left out. -/
def loadfile (env : Environment) (h : Heap (List ObjId)) (w : World) :
    PlistFile → Except Stop Loaded
  | .unreadable => .ok .unreadable
  | .malformed => .ok .malformed
  | .plist (.dictionary dict) => do
    let w ← parsefile env { w with plist := dict, returned := [] }
    let (h, res) ← (NSObject.dictionary w.plist).newXPCObject h
    .ok (.sent w h res)
  | .plist _ => .ok .notDictionary

/-! ## What a checked property list is -/

/-- A root dictionary has each key once. -/
structure Plist where
  entries : Entries
  distinct : (entries.map Prod.fst).Nodup

/-- Every key is in the schema, every value has its class, every required key is there. -/
structure Checked (schema : List SchemaEntry) (plist : Entries) : Prop where
  known : ∀ e ∈ plist, findEntry schema e.1.utf8String ≠ none
  classes : ∀ e ∈ plist, ∀ entry, findEntry schema e.1.utf8String = some entry →
    e.2.isKindOf entry.type = true
  required : ∀ entry ∈ schema, entry.need = .kRequired → ∃ e ∈ plist, e.1.utf8String = entry.key

/-- If the property list is sent, then it is checked and no callback has failed. -/
def SendsOnlyChecked (env : Environment) (h : Heap (List ObjId)) (w : World) (plist : Plist) : Prop :=
  ∀ w' h' message,
    loadfile env h w (.plist (.dictionary plist.entries)) = .ok (.sent w' h' message) →
      Checked (entries env.sockets) plist.entries ∧ ∀ r ∈ w'.returned, 0 ≤ r

def ArgumentsAreStrings : NSObject → Prop
  | .array arr => ∀ v ∈ arr, ∃ s, v = .string s
  | _ => True

/-- `ProgramArguments` holds strings only, and the last socket that is attempted is
opened; `n` calls of `process_socket` come before. -/
def CallbacksPass (os : ℕ → SocketOutcome) : ℕ → Entries → Prop
  | _, [] => True
  | n, (key, val) :: es =>
    (key.utf8String = progargsKey → ArgumentsAreStrings val) ∧
      (key.utf8String = socketsKey → LastPasses os n True (socketsIn val)) ∧
      CallbacksPass os (n + if key.utf8String = socketsKey then (socketsIn val).length else 0) es

/-- An Objective-C exception ends `validate`: in `process_socket`, or because Foundation
notices the environment that it has added. `n` calls of `process_socket` come before. -/
def ValidationEnds (env : Environment) (plist : Entries) : ℕ → Entries → Prop
  | _, [] => False
  | n, (key, val) :: es =>
    (∃ entry, findEntry (entries env.sockets) key.utf8String = some entry ∧
      val.isKindOf entry.type = true) ∧
    ((key.utf8String = socketsKey ∧ ∃ v ∈ socketsIn val, SocketEnds plist v) ∨
      ((key.utf8String = progargsKey → ArgumentsAreStrings val) ∧
        (key.utf8String = socketsKey → LastPasses env.sockets n True (socketsIn val)) ∧
        ((key.utf8String = socketsKey ∧ env.notices = true ∧
            plist.lookup userEnvironmentKey = none ∧ ∃ v ∈ socketsIn val, SocketPublishes v) ∨
          ValidationEnds env plist
            (n + if key.utf8String = socketsKey then (socketsIn val).length else 0) es)))

/-! ## The run of `validate` -/

section Validating

variable {os : ℕ → SocketOutcome} {w w' : World} {r r' : ℤ}

theorem eachArgument_nonneg {arr : List NSObject} (hr : 0 ≤ r) :
    0 ≤ eachArgument r arr ↔ ∀ v ∈ arr, ∃ s, v = .string s := by
  induction arr with
  | nil => simpa [eachArgument] using hr
  | cons v arr ih =>
    cases v with
    | string s => simp [eachArgument, ih]
    | _ => simp [eachArgument]

theorem cbProgargs_ok {key : CString} {val val' : NSObject}
    (hc : cbProgargs key val w = .ok (r, val', w')) :
    (0 ≤ r ↔ ArgumentsAreStrings val) ∧ w.Advances 0 w' := by
  cases val with
  | array arr =>
    cases hc
    exact ⟨eachArgument_nonneg (Int.le_refl 0), World.Advances.refl w⟩
  | _ => cases hc

/-- Only two of the entries have a callback. -/
theorem findEntry_cb {key : CString} {entry : SchemaEntry}
    (he : findEntry (entries os) key = some entry) :
    (key = progargsKey ∧ key ≠ socketsKey ∧ entry.type = .kArray ∧ entry.cb = some cbProgargs) ∨
      (key = socketsKey ∧ key ≠ progargsKey ∧ entry.type = .kDictionary ∧
        entry.cb = some (cbSockets os)) ∨
      (key ≠ progargsKey ∧ key ≠ socketsKey ∧ entry.cb = none) := by
  simp only [findEntry, entries, List.foldl] at he
  by_cases hsockets : key = socketsKey
  · subst hsockets
    rw [if_pos rfl] at he
    cases he
    exact .inr (.inl ⟨rfl, by decide, rfl, rfl⟩)
  · rw [if_neg hsockets] at he
    by_cases hprogargs : key = progargsKey
    · subst hprogargs
      rw [if_neg (by decide), if_pos rfl] at he
      cases he
      exact .inl ⟨rfl, by decide, rfl, rfl⟩
    · refine .inr (.inr ⟨hprogargs, hsockets, ?_⟩)
      rw [if_neg hprogargs] at he
      split_ifs at he <;> cases he <;> rfl

/-- The lookups of the keys still to come are not affected by a callback. -/
theorem lookup_afterCallback {n : ℕ} {key k : NSString} {val : NSObject} (hadv : w.Advances n w')
    (hkey : k ≠ key) (huser : k ≠ userEnvironmentKey) :
    (w'.afterCallback key val r).plist.lookup k = w.plist.lookup k := by
  rw [World.afterCallback, lookup_upsert, if_neg hkey, hadv.lookup k huser]

theorem nonneg_afterCallback {n : ℕ} (hadv : w.Advances n w') (key : NSString) (val : NSObject) :
    (∀ x ∈ (w'.afterCallback key val r).returned, 0 ≤ x) ↔ 0 ≤ r ∧ ∀ x ∈ w.returned, 0 ≤ x := by
  rw [World.afterCallback, List.forall_mem_cons, hadv.returned]

theorem ne_userEnvironmentKey {key : NSString}
    (hkey : findEntry (entries os) key.utf8String ≠ none) : key ≠ userEnvironmentKey := by
  rintro rfl
  exact hkey rfl

/-- After a callback the values of the keys still to come are as they were. -/
theorem lookups_afterCallback {n : ℕ} {key : NSString} {val : NSObject} {es : Entries}
    (hadv : w.Advances n w') (hkey : key ∉ es.map Prod.fst)
    (hknown : ∀ e ∈ es, findEntry (entries os) e.1.utf8String ≠ none)
    (hlookup : ∀ e ∈ es, w.plist.lookup e.1 = some e.2) :
    ∀ e ∈ es, (w'.afterCallback key val r).plist.lookup e.1 = some e.2 := by
  intro e he
  have hne : e.1 ≠ key := by
    rintro rfl
    exact hkey (List.mem_map_of_mem he)
  rw [lookup_afterCallback hadv hne (ne_userEnvironmentKey (hknown e he)), hlookup e he]

/-- A property list whose keys and classes are right is gone through up to the first
callback that fails. -/
theorem validateKeys_returned {notices : Bool} {es : Entries}
    (hknown : ∀ e ∈ es, findEntry (entries os) e.1.utf8String ≠ none)
    (hclasses : ∀ e ∈ es, ∀ entry, findEntry (entries os) e.1.utf8String = some entry →
      e.2.isKindOf entry.type = true)
    (hdistinct : (es.map Prod.fst).Nodup) (hlookup : ∀ e ∈ es, w.plist.lookup e.1 = some e.2)
    (hv : validateKeys notices (entries os) (es.map Prod.fst) r w = .ok (r', w')) :
    (∀ x ∈ w'.returned, 0 ≤ x) ↔ (∀ x ∈ w.returned, 0 ≤ x) ∧ CallbacksPass os w.calls es := by
  induction es generalizing r w with
  | nil =>
    cases hv
    exact ⟨fun h => ⟨h, trivial⟩, fun h => h.1⟩
  | cons e es ih =>
    obtain ⟨key, val⟩ := e
    have hmem : (key, val) ∈ (key, val) :: es := List.mem_cons_self
    obtain ⟨entry, hentry⟩ : ∃ entry, findEntry (entries os) key.utf8String = some entry :=
      Option.ne_none_iff_exists'.mp (hknown _ hmem)
    obtain ⟨hkey, hnodup⟩ := List.nodup_cons.mp hdistinct
    have hknown' : ∀ e ∈ es, findEntry (entries os) e.1.utf8String ≠ none :=
      fun e he => hknown e (List.mem_cons_of_mem _ he)
    have hlookup' : ∀ e ∈ es, w.plist.lookup e.1 = some e.2 :=
      fun e he => hlookup e (List.mem_cons_of_mem _ he)
    have hrest := fun w₁ r₁ => @ih w₁ r₁ hknown' (fun e he => hclasses e (List.mem_cons_of_mem _ he))
      hnodup
    simp only [List.map_cons, validateKeys, hlookup _ hmem, hentry, hclasses _ hmem entry hentry,
      if_true] at hv
    -- a callback that passes leaves the rest of the keys to the induction hypothesis
    have hcall : ∀ {cb : SchemaCb} {p : Prop} {n : ℕ}, entry.cb = some cb →
        (∀ {r₁ val₁ w₁}, cb key.utf8String val w = .ok (r₁, val₁, w₁) →
          (0 ≤ r₁ ↔ p) ∧ w.Advances n w₁) →
        ((∀ x ∈ w'.returned, 0 ≤ x) ↔
          (∀ x ∈ w.returned, 0 ≤ x) ∧ p ∧ CallbacksPass os (w.calls + n) es) := by
      intro cb p n hcb hspec
      rw [hcb] at hv
      obtain ⟨⟨r₁, val₁, w₁⟩, hrun, hv⟩ := bind_eq_ok.mp hv
      obtain ⟨hp, hadv⟩ := hspec hrun
      dsimp only at hv
      split_ifs at hv with hneg hmutated
      · cases hv
        rw [nonneg_afterCallback hadv, hp]
        have hnot : ¬ p := fun hpass => absurd (hp.mpr hpass) (Int.not_le.mpr hneg)
        exact ⟨fun hall => absurd hall.1 hnot, fun hall => absurd hall.2.1 hnot⟩
      · have hcalls : (w₁.afterCallback key val₁ r₁).calls = w.calls + n := hadv.calls
        rw [hrest _ _ (lookups_afterCallback hadv hkey hknown' hlookup') hv,
          nonneg_afterCallback hadv, hcalls, hp]
        exact ⟨fun h => ⟨h.1.2, h.1.1, h.2⟩, fun h => ⟨⟨h.2.1, h.1⟩, h.2.2⟩⟩
    rcases findEntry_cb hentry with ⟨hkey, hne, -, hcb⟩ | ⟨hkey, hne, -, hcb⟩ | ⟨hne, hne', hcb⟩
    · rw [hcall hcb cbProgargs_ok, CallbacksPass, if_neg hne]
      exact and_congr_right' ⟨fun h => ⟨fun _ => h.1, fun hk => absurd hk hne, h.2⟩,
        fun h => ⟨h.1 hkey, h.2.2⟩⟩
    · rw [hcall hcb cbSockets_ok, CallbacksPass, if_pos hkey]
      exact and_congr_right' ⟨fun h => ⟨fun hk => absurd hk hne, fun _ => h.1, h.2⟩,
        fun h => ⟨h.2.1 hkey, h.2.2⟩⟩
    · rw [hcb] at hv
      rw [hrest _ _ hlookup' hv, CallbacksPass, if_neg hne']
      exact and_congr_right' ⟨fun h => ⟨fun hk => absurd hk hne, fun hk => absurd hk hne', h⟩,
        fun h => h.2.2⟩

end Validating

/-! ## The exceptions of `validate` -/

/-- What is known of the property list, as callbacks have left it, and of the keys to come. -/
structure Tracks (env : Environment) (plist : Entries) (w : World) (es : Entries) : Prop where
  distinct : (es.map Prod.fst).Nodup
  lookup : ∀ e ∈ es, e.1 ≠ userEnvironmentKey → w.plist.lookup e.1 = some e.2
  present : ∀ e ∈ es, w.plist.lookup e.1 ≠ none
  misplaced : EnvironmentMisplaced w.plist ↔ EnvironmentMisplaced plist
  absent : env.notices = true →
    (w.plist.lookup userEnvironmentKey = none ↔ plist.lookup userEnvironmentKey = none)

section Exceptions

variable {env : Environment} {plist es : Entries} {w w' : World} {r : ℤ} {key : NSString}
  {val : NSObject}

theorem Tracks.tail (ht : Tracks env plist w ((key, val) :: es)) : Tracks env plist w es :=
  ⟨(List.nodup_cons.mp ht.distinct).2, fun e he => ht.lookup e (List.mem_cons_of_mem _ he),
    fun e he => ht.present e (List.mem_cons_of_mem _ he), ht.misplaced, ht.absent⟩

theorem Tracks.afterCallback {n : ℕ} {p : Prop} (ht : Tracks env plist w ((key, val) :: es))
    (hkey : key ≠ userEnvironmentKey) (hadv : w.Advances n w')
    (hpub : Publishes p w.plist w'.plist)
    (hnot : env.notices = true → ¬ (w.plist.lookup userEnvironmentKey = none ∧ p)) (v : NSObject) :
    Tracks env plist (w'.afterCallback key v r) es := by
  have hne : ∀ e ∈ es, e.1 ≠ key := by
    rintro e he rfl
    exact (List.nodup_cons.mp ht.distinct).1 (List.mem_map.mpr ⟨e, he, rfl⟩)
  have hset : ∀ k, k ≠ key → (w'.afterCallback key v r).plist.lookup k = w'.plist.lookup k := by
    intro k hk
    rw [World.afterCallback, lookup_upsert, if_neg hk]
  have henv := hset _ hkey.symm
  refine ⟨ht.tail.distinct, fun e he huser => ?_, fun e he => ?_, ?_, fun hnotices => ?_⟩
  · rw [hset _ (hne e he), hadv.lookup _ huser, ht.tail.lookup e he huser]
  · rw [hset _ (hne e he)]
    by_cases huser : e.1 = userEnvironmentKey
    · rw [huser]
      intro hnone
      exact ht.tail.present e he (huser ▸ (hpub.absent.mp hnone).1)
    · rw [hadv.lookup _ huser]
      exact ht.tail.present e he
  · rw [← ht.misplaced, ← hpub.misplaced, EnvironmentMisplaced, EnvironmentMisplaced, henv]
  · rw [henv, hpub.absent, ← ht.absent hnotices]
    exact ⟨fun h => h.1, fun h => ⟨h, fun hp => hnot hnotices ⟨h, hp⟩⟩⟩

/-- A callback that adds no key leaves the keys as they are. -/
theorem keys_afterCallback {n : ℕ} {p : Prop} (hadv : w.Advances n w')
    (hpub : Publishes p w.plist w'.plist) (hkey : key ≠ userEnvironmentKey)
    (hlookup : w.plist.lookup key = some val) (v : NSObject) :
    (w'.afterCallback key v r).plist.map Prod.fst ≠ w.plist.map Prod.fst ↔
      w.plist.lookup userEnvironmentKey = none ∧ p := by
  have hmem : key ∈ w'.plist.map Prod.fst := by
    rw [← hadv.lookup key hkey] at hlookup
    exact mem_of_lookup_eq_some hlookup
  rw [World.afterCallback, upsert_keys, if_pos hmem, hpub.keys_ne_iff]

/-- A callback either ends the program or passes or does not, and publishes if `pub`. -/
structure CallbackSpec (cb : SchemaCb) (key : CString) (val : NSObject) (w : World)
    (ends passes pub : Prop) (n : ℕ) : Prop where
  isOk : ¬ ends → ∃ x, cb key val w = .ok x
  not_ends : ∀ x, cb key val w = .ok x → ¬ ends
  passes_iff : ∀ {r val' w'}, cb key val w = .ok (r, val', w') → (0 ≤ r ↔ passes)
  advances : ∀ {r val' w'}, cb key val w = .ok (r, val', w') → w.Advances n w'
  publishes : ∀ {r val' w'}, cb key val w = .ok (r, val', w') → Publishes pub w.plist w'.plist

/-- The rest of the keys is gone through where a callback returns, passes and has not
added a key that Foundation notices. -/
theorem validateKeys_callback {entry : SchemaEntry} {cb : SchemaCb} {ends passes pub : Prop} {n : ℕ}
    (hentry : findEntry (entries env.sockets) key.utf8String = some entry)
    (hclass : val.isKindOf entry.type = true) (hcb : entry.cb = some cb)
    (hs : CallbackSpec cb key.utf8String val w ends passes pub n)
    (ht : Tracks env plist w ((key, val) :: es))
    (ih : ∀ w₁ r₁, Tracks env plist w₁ es →
      ((∃ x, validateKeys env.notices (entries env.sockets) (es.map Prod.fst) r₁ w₁ = .ok x) ↔
        ¬ ValidationEnds env plist w₁.calls es)) :
    (∃ x, validateKeys env.notices (entries env.sockets) (key :: es.map Prod.fst) r w = .ok x) ↔
      ¬ (ends ∨ (passes ∧ ((env.notices = true ∧ plist.lookup userEnvironmentKey = none ∧ pub) ∨
        ValidationEnds env plist (w.calls + n) es))) := by
  have hknown : findEntry (entries env.sockets) key.utf8String ≠ none := by simp [hentry]
  have hkey : key ≠ userEnvironmentKey := ne_userEnvironmentKey hknown
  have hlookup : w.plist.lookup key = some val := ht.lookup (key, val) List.mem_cons_self hkey
  simp only [validateKeys, hlookup, hentry, hclass, if_true, hcb]
  by_cases hends : ends
  · simp only [hends, true_or, not_true_eq_false, iff_false]
    rintro ⟨x, hx⟩
    obtain ⟨y, hy, -⟩ := bind_eq_ok.mp hx
    exact hs.not_ends y hy hends
  · obtain ⟨⟨r₁, val₁, w₁⟩, hrun⟩ := hs.isOk hends
    have hpasses := hs.passes_iff hrun
    have hkeys := keys_afterCallback (r := r₁) (hs.advances hrun) (hs.publishes hrun) hkey hlookup val₁
    simp only [hrun, ok_bind, hends, false_or]
    by_cases hneg : r₁ < 0
    · have hfails : ¬ passes := fun hp => absurd (hpasses.mpr hp) (Int.not_le.mpr hneg)
      simp only [if_pos hneg, hfails, false_and, not_false_eq_true, iff_true]
      exact ⟨_, rfl⟩
    · have hp : passes := hpasses.mp (Int.not_lt.mp hneg)
      simp only [if_neg hneg, hp, true_and]
      by_cases hmut : env.notices = true ∧ w.plist.lookup userEnvironmentKey = none ∧ pub
      · have hmut' : env.notices = true ∧ plist.lookup userEnvironmentKey = none ∧ pub :=
          ⟨hmut.1, (ht.absent hmut.1).mp hmut.2.1, hmut.2.2⟩
        rw [if_pos ⟨hmut.1, hkeys.mpr hmut.2⟩]
        simp [hmut']
      · have hmut' : ¬ (env.notices = true ∧ plist.lookup userEnvironmentKey = none ∧ pub) :=
          fun h => hmut ⟨h.1, (ht.absent h.1).mpr h.2.1, h.2.2⟩
        have hcalls : (w₁.afterCallback key val₁ r₁).calls = w.calls + n := (hs.advances hrun).calls
        have ht' : Tracks env plist (w₁.afterCallback key val₁ r₁) es :=
          ht.afterCallback hkey (hs.advances hrun) (hs.publishes hrun)
            (fun hnotices h => hmut ⟨hnotices, h⟩) val₁
        rw [if_neg (fun h => hmut ⟨h.1, hkeys.mp h.2⟩), ih _ _ ht', hcalls]
        simp only [hmut', false_or]

theorem cbProgargs_spec (key : CString) (arr : List NSObject) (w : World) :
    CallbackSpec cbProgargs key (.array arr) w False (ArgumentsAreStrings (.array arr)) False 0 := by
  refine ⟨fun _ => ⟨_, rfl⟩, fun _ _ h => h, fun hc => (cbProgargs_ok hc).1,
    fun hc => (cbProgargs_ok hc).2, fun hc => ?_⟩
  cases hc
  exact .same id _

theorem cbSockets_spec (os : ℕ → SocketOutcome) (key : CString) (dict : Entries) (w : World) :
    CallbackSpec (cbSockets os) key (.dictionary dict) w (∃ v ∈ attempts dict, SocketEnds w.plist v)
      (LastPasses os w.calls True (attempts dict)) (∃ v ∈ attempts dict, SocketPublishes v)
      (attempts dict).length := by
  refine ⟨fun hends => ?_, fun x hc => ?_, fun hc => (cbSockets_ok hc).1,
    fun hc => (cbSockets_ok hc).2, fun hc => (cbSockets_publishes hc).2⟩
  · push Not at hends
    exact cbSockets_isOk hends
  · rintro ⟨v, hv, hends⟩
    exact (cbSockets_publishes hc).1 v hv hends

/-- `validate` returns unless an exception ends it. -/
theorem validateKeys_isOk_iff (ht : Tracks env plist w es) :
    (∃ x, validateKeys env.notices (entries env.sockets) (es.map Prod.fst) r w = .ok x) ↔
      ¬ ValidationEnds env plist w.calls es := by
  induction es generalizing r w with
  | nil => exact ⟨fun _ h => h, fun _ => ⟨_, rfl⟩⟩
  | cons e es ih =>
    obtain ⟨key, val⟩ := e
    rw [List.map_cons, ValidationEnds]
    obtain hentry | ⟨entry, hentry⟩ := Option.eq_none_or_eq_some
      (findEntry (entries env.sockets) key.utf8String)
    · obtain ⟨v, hv⟩ := Option.ne_none_iff_exists'.mp (ht.present (key, val) List.mem_cons_self)
      simp only [validateKeys, hv, hentry]
      simp
    · have hknown : findEntry (entries env.sockets) key.utf8String ≠ none := by simp [hentry]
      have hkey : key ≠ userEnvironmentKey := ne_userEnvironmentKey hknown
      have hlookup : w.plist.lookup key = some val := ht.lookup (key, val) List.mem_cons_self hkey
      by_cases hclass : val.isKindOf entry.type = true
      · have hright : ∃ entry, findEntry (entries env.sockets) key.utf8String = some entry ∧
            val.isKindOf entry.type = true := ⟨entry, hentry, hclass⟩
        simp only [hright, true_and]
        have hclass' := hclass
        rcases findEntry_cb hentry with ⟨hname, hne, htype, hcb⟩ | ⟨hname, hne, htype, hcb⟩ |
          ⟨hne, hne', hcb⟩
        · rw [htype] at hclass'
          cases val with
          | array arr =>
            rw [validateKeys_callback hentry hclass hcb (cbProgargs_spec _ arr w) ht @ih]
            have hne' : progargsKey ≠ socketsKey := hname ▸ hne
            simp [hname, hne']
          | _ => cases hclass'
        · rw [htype] at hclass'
          cases val with
          | dictionary dict =>
            rw [validateKeys_callback hentry hclass hcb (cbSockets_spec _ _ dict w) ht @ih]
            have hne' : socketsKey ≠ progargsKey := hname ▸ hne
            simp [SocketEnds.congr ht.misplaced, hname, hne', socketsIn]
          | _ => cases hclass'
        · simp only [validateKeys, hlookup, hentry, hclass, if_true, hcb]
          rw [ih ht.tail]
          simp [hne, hne']
      · have hwrong : ¬ ∃ entry, findEntry (entries env.sockets) key.utf8String = some entry ∧
            val.isKindOf entry.type = true := by
          rintro ⟨entry', heq, hkind⟩
          obtain rfl := Option.some.inj (hentry.symm.trans heq)
          exact hclass hkind
        simp only [validateKeys, hlookup, hwrong, false_and, not_false_eq_true, iff_true]
        simp only [hentry, if_neg hclass]
        exact ⟨_, rfl⟩

end Exceptions

/-! ## What is sent -/

/-- `loadfile` hands the property list to `validate` as Foundation has read it. -/
abbrev Plist.opened (plist : Plist) (w : World) : World :=
  { w with plist := plist.entries, returned := [] }

theorem Plist.lookup (plist : Plist) : ∀ e ∈ plist.entries, plist.entries.lookup e.1 = some e.2 :=
  fun _ he => lookup_of_mem plist.distinct he

theorem Plist.tracks (env : Environment) (plist : Plist) (w : World) :
    Tracks env plist.entries (plist.opened w) plist.entries := by
  refine ⟨plist.distinct, fun e he _ => plist.lookup e he, fun e he => ?_, Iff.rfl, fun _ => Iff.rfl⟩
  simp [Plist.lookup plist e he]

theorem loadfile_sent {env : Environment} {h : Heap (List ObjId)} {w : World} {plist : Plist}
    {l : Loaded} (hl : loadfile env h w (.plist (.dictionary plist.entries)) = .ok l) :
    ∃ r w' h' message, l = .sent w' h' message ∧
      validate env.notices (entries env.sockets) (plist.opened w) = .ok (r, w') ∧
      (NSObject.dictionary w'.plist).newXPCObject h = .ok (h', message) := by
  obtain ⟨w₁, hparse, hl⟩ := bind_eq_ok.mp hl
  obtain ⟨⟨h₁, res⟩, hconvert, hl⟩ := bind_eq_ok.mp hl
  obtain ⟨⟨r, w₂⟩, hvalidate, hparse⟩ := bind_eq_ok.mp hparse
  cases hparse
  cases hl
  exact ⟨r, w₁, h₁, res, rfl, hvalidate, hconvert⟩

/-- A property list that is gone through and converted is sent. -/
theorem loadfile_ok {env : Environment} {h h' : Heap (List ObjId)} {w w' : World} {plist : Plist}
    {r : ℤ} {message : Option ObjId}
    (hv : validate env.notices (entries env.sockets) (plist.opened w) = .ok (r, w'))
    (hconvert : (NSObject.dictionary w'.plist).newXPCObject h = .ok (h', message)) :
    loadfile env h w (.plist (.dictionary plist.entries)) = .ok (.sent w' h' message) := by
  simp only [loadfile, parsefile, hv, ok_bind, hconvert]

/-- In a checked property list the callbacks do not fail exactly when they pass. -/
theorem Checked.returned_iff {env : Environment} {plist : Plist} {w w' : World} {r : ℤ}
    (hc : Checked (entries env.sockets) plist.entries)
    (hv : validate env.notices (entries env.sockets) (plist.opened w) = .ok (r, w')) :
    (∀ x ∈ w'.returned, 0 ≤ x) ↔ CallbacksPass env.sockets w.calls plist.entries := by
  rw [validateKeys_returned hc.known hc.classes plist.distinct plist.lookup hv]
  simp

def allSucceed : Environment where
  notices := false
  sockets _ := ⟨true, [97, 98, 99, 100, 101, 102], .ok 3, .ok (), rfl, by decide, by simp, by simp⟩

def emptyWorld : World := ⟨[], [], [], [], 0, [], 108, by decide⟩

end OpenXPC
