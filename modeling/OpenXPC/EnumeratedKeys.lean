import OpenXPC.Validation

/-! # The keys that `validate` enumerates

The property list is also handed to the callbacks. The worlds it goes through while
it is enumerated are listed here, since an exception leaves none behind. -/
namespace OpenXPC
open InsertionMap

/-! ## The worlds on the way -/

/-- The worlds after the calls of `process_socket` of the inner enumeration. -/
def elementWorlds (os : ℕ → SocketOutcome) : List NSObject → World → List World
  | [], _ => []
  | obj :: arr, w =>
    match processSocket os obj w with
    | .error _ => []
    | .ok (r, _, w) => w :: if r ≤ 0 then [] else elementWorlds os arr w

/-- The worlds after the calls of `process_socket` in `cb_sockets`. -/
def socketWorlds (os : ℕ → SocketOutcome) : Entries → World → List World
  | [], _ => []
  | (_, .array arr) :: dict, w => elementWorlds os arr w ++
    match eachElement os 0 arr w with
    | .error _ => []
    | .ok (_, _, w) => socketWorlds os dict w
  | (_, .dictionary sock) :: dict, w =>
    match processSocket os (.dictionary sock) w with
    | .error _ => []
    | .ok (r, _, w) => w :: if r ≤ 0 then [] else socketWorlds os dict w
  | _ :: dict, w => socketWorlds os dict w

/-- The worlds within a callback; `cb_progargs` changes nothing. -/
def callbackWorlds (os : ℕ → SocketOutcome) (key : CString) (val : NSObject) (w : World) : List World :=
  match val with
  | .dictionary dict => if key = socketsKey then socketWorlds os dict w else []
  | _ => []

/-- The worlds within and after the callbacks of `validate`. -/
def validateWorlds (env : Environment) : List NSString → World → List World
  | [], _ => []
  | key :: keys, w =>
    match w.plist.lookup key with
    | none => validateWorlds env keys w
    | some val =>
      match findEntry (entries env.sockets) key.utf8String with
      | none => []
      | some entry =>
        if val.isKindOf entry.type then
          match entry.cb with
          | none => validateWorlds env keys w
          | some cb => callbackWorlds env.sockets key.utf8String val w ++
            match cb key.utf8String val w with
            | .error _ => []
            | .ok (r, val', w') =>
              let w'' := w'.afterCallback key val' r
              w'' :: if r < 0 ∨ (env.notices ∧ w''.plist.map Prod.fst ≠ w.plist.map Prod.fst) then []
                else validateWorlds env keys w''
        else []

/-- All the while, the property list has the keys it had on entry. -/
def KeepsKeys (env : Environment) (w : World) (plist : Plist) : Prop :=
  ∀ w' ∈ validateWorlds env (plist.entries.map Prod.fst) (plist.opened w),
    ∀ key, key ∈ w'.plist.map Prod.fst ↔ key ∈ plist.entries.map Prod.fst

/-- A path is published before an entry ends the program. -/
def PublishesFirst (plist : Entries) : List NSObject → Prop
  | [] => False
  | v :: vs => ¬ SocketEnds plist v ∧ (SocketPublishes v ∨ PublishesFirst plist vs)

/-- The enumeration gets to `Sockets` and a path is published there; `n` calls of
`process_socket` come before. -/
def GetsToPublish (os : ℕ → SocketOutcome) (plist : Entries) : ℕ → Entries → Prop
  | _, [] => False
  | n, (key, val) :: es =>
    (∃ entry, findEntry (entries os) key.utf8String = some entry ∧
      val.isKindOf entry.type = true) ∧
    ((key.utf8String = socketsKey ∧ PublishesFirst plist (socketsIn val)) ∨
      ((key.utf8String = progargsKey → ArgumentsAreStrings val) ∧
        (key.utf8String = socketsKey → (∀ v ∈ socketsIn val, ¬ SocketEnds plist v) ∧
          LastPasses os n True (socketsIn val)) ∧
        GetsToPublish os plist
          (n + if key.utf8String = socketsKey then (socketsIn val).length else 0) es))

/-! ## What the worlds have in common -/

/-- The keys are the same, or the environment has been added. -/
def AddsAtMost (plist plist' : Entries) : Prop :=
  plist'.map Prod.fst = plist.map Prod.fst ∨
    (plist.lookup userEnvironmentKey = none ∧ plist'.lookup userEnvironmentKey ≠ none)

section Worlds

variable {os : ℕ → SocketOutcome} {env : Environment} {plist plist' plist'' es : Entries}
  {w w' : World} {r : ℤ} {key : NSString} {val : NSObject}

theorem lookup_eq_none_of_keys {k : NSString} (hkeys : plist'.map Prod.fst = plist.map Prod.fst)
    (hnone : plist.lookup k = none) : plist'.lookup k = none := by
  by_contra hsome
  obtain ⟨v, hv⟩ := Option.ne_none_iff_exists'.mp hsome
  exact notMem_of_lookup_eq_none hnone (hkeys ▸ mem_of_lookup_eq_some hv)

theorem AddsAtMost.trans (h₁ : AddsAtMost plist plist') (h₂ : AddsAtMost plist' plist'') :
    AddsAtMost plist plist'' := by
  rcases h₁ with hkeys₁ | ⟨hnone, hsome⟩
  · rcases h₂ with hkeys₂ | ⟨hnone, hsome⟩
    · exact .inl (hkeys₂.trans hkeys₁)
    · exact .inr ⟨lookup_eq_none_of_keys hkeys₁.symm hnone, hsome⟩
  · rcases h₂ with hkeys₂ | ⟨hnone', -⟩
    · exact .inr ⟨hnone, fun h => hsome (lookup_eq_none_of_keys hkeys₂.symm h)⟩
    · exact absurd hnone' hsome

theorem Publishes.addsAtMost {p : Prop} (h : Publishes p plist plist') : AddsAtMost plist plist' :=
  h.keys

/-- The calls are those of the attempts, up to the first that ends the program. -/
def attemptWorlds (os : ℕ → SocketOutcome) : List NSObject → World → List World
  | [], _ => []
  | v :: vs, w =>
    match processSocket os v w with
    | .error _ => []
    | .ok (_, _, w) => w :: attemptWorlds os vs w

theorem elementWorlds_eq (os : ℕ → SocketOutcome) (arr : List NSObject) (w : World) :
    elementWorlds os arr w = attemptWorlds os (arr.take 1) w := by
  cases arr with
  | nil => rfl
  | cons obj arr =>
    simp only [elementWorlds, List.take_succ_cons, List.take_zero, attemptWorlds]
    cases hp : processSocket os obj w with
    | error stop => rfl
    | ok x =>
      obtain ⟨k, val', w'⟩ := x
      simp [(processSocket_ok hp).1]

theorem socketWorlds_eq (os : ℕ → SocketOutcome) (dict : Entries) (w : World) :
    socketWorlds os dict w = attemptWorlds os (attempts dict) w := by
  induction dict generalizing w with
  | nil => rfl
  | cons e dict ih =>
    obtain ⟨key, val⟩ := e
    cases val with
    | array arr =>
      rw [socketWorlds, elementWorlds_eq, attempts]
      cases arr with
      | nil => exact ih w
      | cons obj arr =>
        simp only [eachElement, List.take_succ_cons, List.take_zero, attemptWorlds,
          List.cons_append, List.nil_append]
        cases hp : processSocket os obj w with
        | error stop => rfl
        | ok x =>
          obtain ⟨k, val', w'⟩ := x
          have hle := (processSocket_ok hp).1
          simp only [ok_bind, if_pos hle, List.cons_append, List.nil_append, ih]
    | dictionary sock =>
      simp only [socketWorlds, attempts, attemptWorlds]
      cases hp : processSocket os (.dictionary sock) w with
      | error stop => rfl
      | ok x =>
        obtain ⟨k, val', w'⟩ := x
        simp [(processSocket_ok hp).1]
    | _ =>
      simp only [socketWorlds, ih]
      rfl

theorem attemptWorlds_addsAtMost {vs : List NSObject} (hw' : w' ∈ attemptWorlds os vs w) :
    AddsAtMost w.plist w'.plist := by
  induction vs generalizing w with
  | nil => cases hw'
  | cons v vs ih =>
    rw [attemptWorlds] at hw'
    cases hp : processSocket os v w with
    | error stop =>
      rw [hp] at hw'
      cases hw'
    | ok x =>
      obtain ⟨k, val₁, w₁⟩ := x
      rw [hp] at hw'
      have hstep := (processSocket_publishes hp).2.addsAtMost
      rcases List.mem_cons.mp hw' with rfl | hw'
      · exact hstep
      · exact hstep.trans (ih hw')

theorem not_misplaced_of_absent (habsent : plist.lookup userEnvironmentKey = none) :
    ¬ EnvironmentMisplaced plist := by
  rintro ⟨v, hv, -⟩
  rw [habsent] at hv
  cases hv

/-- The environment is added where a path is first published. -/
theorem attemptWorlds_adds_iff {vs : List NSObject} (habsent : plist.lookup userEnvironmentKey = none)
    (hw : w.plist.lookup userEnvironmentKey = none) :
    (∃ w' ∈ attemptWorlds os vs w, w'.plist.lookup userEnvironmentKey ≠ none) ↔
      PublishesFirst plist vs := by
  induction vs generalizing w with
  | nil => simp [attemptWorlds, PublishesFirst]
  | cons v vs ih =>
    have hends : SocketEnds w.plist v ↔ SocketEnds plist v :=
      SocketEnds.congr (iff_of_false (not_misplaced_of_absent hw) (not_misplaced_of_absent habsent))
    rw [attemptWorlds, PublishesFirst]
    cases hp : processSocket os v w with
    | error stop =>
      have hstops : SocketEnds w.plist v := by
        by_contra hnot
        obtain ⟨x, hx⟩ : ∃ x, processSocket os v w = .ok x := processSocket_isOk hnot
        rw [hp] at hx
        cases hx
      simp [hends.mp hstops]
    | ok x =>
      obtain ⟨k, val₁, w₁⟩ := x
      obtain ⟨hgoes, hpub⟩ := processSocket_publishes hp
      have hadds : w₁.plist.lookup userEnvironmentKey ≠ none ↔ SocketPublishes v := by
        rw [ne_eq, hpub.absent, not_and, not_not]
        exact ⟨fun h => h hw, fun h _ => h⟩
      have hgoes' : ¬ SocketEnds plist v := fun h => hgoes (hends.mpr h)
      simp only [List.mem_cons, exists_eq_or_imp, hadds, hgoes', not_false_eq_true, true_and]
      by_cases hv : SocketPublishes v
      · simp [hv]
      · have hstill : w₁.plist.lookup userEnvironmentKey = none :=
          not_not.mp (fun h => hv (hadds.mp h))
        rw [ih hstill]

/-! ## The worlds of `validate` -/

theorem callbackWorlds_addsAtMost {key : CString} (hw' : w' ∈ callbackWorlds os key val w) :
    AddsAtMost w.plist w'.plist := by
  unfold callbackWorlds at hw'
  split at hw'
  · split_ifs at hw'
    · rw [socketWorlds_eq] at hw'
      exact attemptWorlds_addsAtMost hw'
    · cases hw'
  · cases hw'

/-- Both callbacks have a specification. -/
theorem exists_callbackSpec {entry : SchemaEntry} {cb : SchemaCb} {key : CString} (w : World)
    (hentry : findEntry (entries os) key = some entry) (hclass : val.isKindOf entry.type = true)
    (hcb : entry.cb = some cb) :
    ∃ ends passes pub n, CallbackSpec cb key val w ends passes pub n := by
  rcases findEntry_cb hentry with ⟨-, -, htype, hcb'⟩ | ⟨-, -, htype, hcb'⟩ | ⟨-, -, hnone⟩
  · cases hcb.symm.trans hcb'
    rw [htype] at hclass
    cases val with
    | array arr => exact ⟨_, _, _, _, cbProgargs_spec key arr w⟩
    | _ => cases hclass
  · cases hcb.symm.trans hcb'
    rw [htype] at hclass
    cases val with
    | dictionary dict => exact ⟨_, _, _, _, cbSockets_spec os key dict w⟩
    | _ => cases hclass
  · rw [hcb] at hnone
    cases hnone

theorem afterCallback_addsAtMost {cb : SchemaCb} {ends passes pub : Prop} {n : ℕ} {val' : NSObject}
    (hs : CallbackSpec cb key.utf8String val w ends passes pub n)
    (hrun : cb key.utf8String val w = .ok (r, val', w')) (hkey : key ≠ userEnvironmentKey)
    (hlookup : w.plist.lookup key = some val) :
    AddsAtMost w.plist (w'.afterCallback key val' r).plist := by
  have hpub := hs.publishes hrun
  have hkeys := keys_afterCallback (r := r) (hs.advances hrun) hpub hkey hlookup val'
  by_cases hsame : (w'.afterCallback key val' r).plist.map Prod.fst = w.plist.map Prod.fst
  · exact .inl hsame
  · obtain ⟨hnone, hp⟩ := hkeys.mp hsame
    refine .inr ⟨hnone, ?_⟩
    rw [World.afterCallback, lookup_upsert, if_neg hkey.symm, ne_eq, hpub.absent]
    exact fun h => h.2 hp

/-- No key is removed, and none but the environment is added. -/
theorem validateWorlds_addsAtMost {keys : List NSString} (hw' : w' ∈ validateWorlds env keys w) :
    AddsAtMost w.plist w'.plist := by
  induction keys generalizing w with
  | nil => cases hw'
  | cons key keys ih =>
    rw [validateWorlds] at hw'
    cases hlookup : w.plist.lookup key with
    | none => exact ih (by simpa only [hlookup] using hw')
    | some val =>
      cases hentry : findEntry (entries env.sockets) key.utf8String with
      | none => simp only [hlookup, hentry, List.not_mem_nil] at hw'
      | some entry =>
        have hkey : key ≠ userEnvironmentKey := @ne_userEnvironmentKey env.sockets key (by simp [hentry])
        simp only [hlookup, hentry] at hw'
        split_ifs at hw' with hclass
        · cases hcb : entry.cb with
          | none => exact ih (by simpa only [hcb] using hw')
          | some cb =>
            simp only [hcb] at hw'
            rcases List.mem_append.mp hw' with hduring | hafter
            · exact callbackWorlds_addsAtMost hduring
            · obtain ⟨ends, passes, pub, n, hs⟩ := exists_callbackSpec w hentry hclass hcb
              cases hrun : cb key.utf8String val w with
              | error stop => simp only [hrun, List.not_mem_nil] at hafter
              | ok x =>
                obtain ⟨r, val', w₁⟩ := x
                have hstep := afterCallback_addsAtMost hs hrun hkey hlookup
                simp only [hrun] at hafter
                rcases List.mem_cons.mp hafter with rfl | hafter
                · exact hstep
                · split_ifs at hafter
                  · cases hafter
                  · exact hstep.trans (ih hafter)
        · cases hw'

/-- What is known while nothing has been published. -/
structure Untouched (w : World) (es : Entries) : Prop where
  distinct : (es.map Prod.fst).Nodup
  lookup : ∀ e ∈ es, w.plist.lookup e.1 = some e.2
  absent : w.plist.lookup userEnvironmentKey = none

theorem Untouched.tail (hu : Untouched w ((key, val) :: es)) : Untouched w es :=
  ⟨(List.nodup_cons.mp hu.distinct).2, fun e he => hu.lookup e (List.mem_cons_of_mem _ he), hu.absent⟩

theorem Untouched.ne (hu : Untouched w es) {e : NSString × NSObject} (he : e ∈ es) :
    e.1 ≠ userEnvironmentKey := by
  intro heq
  have hsome := hu.lookup e he
  rw [heq, hu.absent] at hsome
  cases hsome

/-- A callback that publishes nothing. -/
theorem Untouched.afterCallback {n : ℕ} (hu : Untouched w ((key, val) :: es))
    (hadv : w.Advances n w') (hstill : w'.plist.lookup userEnvironmentKey = none) (v : NSObject) :
    Untouched (w'.afterCallback key v r) es := by
  have hkey : key ≠ userEnvironmentKey := hu.ne (e := (key, val)) List.mem_cons_self
  have hne : ∀ e ∈ es, e.1 ≠ key := by
    rintro e he rfl
    exact (List.nodup_cons.mp hu.distinct).1 (List.mem_map.mpr ⟨e, he, rfl⟩)
  refine ⟨hu.tail.distinct, fun e he => ?_, ?_⟩
  · rw [lookup_afterCallback hadv (hne e he) (hu.tail.ne he), hu.tail.lookup e he]
  · rw [World.afterCallback, lookup_upsert, if_neg hkey.symm, hstill]

/-- The environment is added within a callback, or after one that passes. -/
theorem validateWorlds_callback {entry : SchemaEntry} {cb : SchemaCb} {ends passes pub : Prop} {n : ℕ}
    (first : Prop) (hentry : findEntry (entries env.sockets) key.utf8String = some entry)
    (hclass : val.isKindOf entry.type = true) (hcb : entry.cb = some cb)
    (hs : CallbackSpec cb key.utf8String val w ends passes pub n)
    (hadds : (∃ w' ∈ callbackWorlds env.sockets key.utf8String val w,
      w'.plist.lookup userEnvironmentKey ≠ none) ↔ first)
    (hfirst : ¬ ends → (pub ↔ first)) (hu : Untouched w ((key, val) :: es))
    (ih : ∀ w₁, Untouched w₁ es →
      ((∃ w' ∈ validateWorlds env (es.map Prod.fst) w₁, w'.plist.lookup userEnvironmentKey ≠ none) ↔
        GetsToPublish env.sockets plist w₁.calls es)) :
    (∃ w' ∈ validateWorlds env (key :: es.map Prod.fst) w,
      w'.plist.lookup userEnvironmentKey ≠ none) ↔
      first ∨ (¬ ends ∧ passes ∧ GetsToPublish env.sockets plist (w.calls + n) es) := by
  have hkey : key ≠ userEnvironmentKey := hu.ne (e := (key, val)) List.mem_cons_self
  have hlookup : w.plist.lookup key = some val := hu.lookup (key, val) List.mem_cons_self
  simp only [validateWorlds, hlookup, hentry, hclass, if_true, hcb, List.mem_append, or_and_right,
    exists_or, hadds]
  by_cases hf : first
  · simp only [hf, true_or]
  · simp only [hf, false_or]
    cases hrun : cb key.utf8String val w with
    | error stop =>
      have hends : ends := by
        by_contra hnot
        obtain ⟨x, hx⟩ := hs.isOk hnot
        rw [hrun] at hx
        cases hx
      simp [hends]
    | ok x =>
      obtain ⟨r₁, val₁, w₁⟩ := x
      have hgoes := hs.not_ends _ hrun
      have hpub : ¬ pub := fun hp => hf ((hfirst hgoes).mp hp)
      have hstill : w₁.plist.lookup userEnvironmentKey = none :=
        (hs.publishes hrun).absent.mpr ⟨hu.absent, hpub⟩
      have hu' : Untouched (w₁.afterCallback key val₁ r₁) es :=
        hu.afterCallback (hs.advances hrun) hstill val₁
      have hkeys : ¬ (w₁.afterCallback key val₁ r₁).plist.map Prod.fst ≠ w.plist.map Prod.fst := by
        rw [keys_afterCallback (hs.advances hrun) (hs.publishes hrun) hkey hlookup val₁]
        exact fun h => hpub h.2
      have hcalls : (w₁.afterCallback key val₁ r₁).calls = w.calls + n := (hs.advances hrun).calls
      simp only [List.mem_cons, exists_eq_or_imp, hu'.absent, ne_eq, not_true_eq_false, false_or,
        hgoes, not_false_eq_true, true_and]
      by_cases hneg : r₁ < 0
      · have hfails : ¬ passes := fun hp => absurd ((hs.passes_iff hrun).mpr hp) (Int.not_le.mpr hneg)
        simp [hneg, hfails]
      · have hp : passes := (hs.passes_iff hrun).mp (Int.not_lt.mp hneg)
        rw [if_neg (fun h => h.elim hneg (fun h => hkeys h.2))]
        simp only [hp, true_and, ← hcalls]
        exact ih _ hu'

theorem publishesFirst_iff {vs : List NSObject} (h : ∀ v ∈ vs, ¬ SocketEnds plist v) :
    PublishesFirst plist vs ↔ ∃ v ∈ vs, SocketPublishes v := by
  induction vs with
  | nil => simp [PublishesFirst]
  | cons v vs ih =>
    simp only [PublishesFirst, h v List.mem_cons_self, not_false_eq_true, true_and,
      ih (fun u hu => h u (List.mem_cons_of_mem _ hu)), List.mem_cons, exists_eq_or_imp]

/-- In a property list without an environment, one is added where a path is published. -/
theorem validateWorlds_adds_iff (env : Environment)
    (habsent : plist.lookup userEnvironmentKey = none) (hu : Untouched w es) :
    (∃ w' ∈ validateWorlds env (es.map Prod.fst) w, w'.plist.lookup userEnvironmentKey ≠ none) ↔
      GetsToPublish env.sockets plist w.calls es := by
  induction es generalizing w with
  | nil => simp [validateWorlds, GetsToPublish]
  | cons e es ih =>
    obtain ⟨key, val⟩ := e
    have hlookup : w.plist.lookup key = some val := hu.lookup (key, val) List.mem_cons_self
    rw [List.map_cons, GetsToPublish]
    obtain hentry | ⟨entry, hentry⟩ := Option.eq_none_or_eq_some
      (findEntry (entries env.sockets) key.utf8String)
    · simp [validateWorlds, hlookup, hentry]
    · by_cases hclass : val.isKindOf entry.type = true
      · have hright : ∃ entry, findEntry (entries env.sockets) key.utf8String = some entry ∧
            val.isKindOf entry.type = true := ⟨entry, hentry, hclass⟩
        simp only [hright, true_and]
        have hclass' := hclass
        rcases findEntry_cb hentry with ⟨hname, hne, htype, hcb⟩ | ⟨hname, hne, htype, hcb⟩ |
          ⟨hne, hne', hcb⟩
        · rw [htype] at hclass'
          cases val with
          | array arr =>
            rw [validateWorlds_callback False hentry hclass hcb (cbProgargs_spec _ arr w)
              (by simp [callbackWorlds]) (fun _ => Iff.rfl) hu @ih]
            have hne' : progargsKey ≠ socketsKey := hname ▸ hne
            simp [hname, hne']
          | _ => cases hclass'
        · rw [htype] at hclass'
          cases val with
          | dictionary dict =>
            have hends : ∀ v, SocketEnds w.plist v ↔ SocketEnds plist v := fun v => SocketEnds.congr
              (iff_of_false (not_misplaced_of_absent hu.absent) (not_misplaced_of_absent habsent))
            rw [validateWorlds_callback (PublishesFirst plist (attempts dict)) hentry hclass
              hcb (cbSockets_spec _ _ dict w) ?_ ?_ hu @ih]
            · have hne' : socketsKey ≠ progargsKey := hname ▸ hne
              simp [hends, hname, hne', socketsIn, and_assoc]
            · rw [hname, callbackWorlds, if_pos rfl, socketWorlds_eq]
              exact attemptWorlds_adds_iff habsent hu.absent
            · intro hnot
              refine (publishesFirst_iff (fun v hv hend => hnot ⟨v, hv, ?_⟩)).symm
              exact (hends v).mpr hend
          | _ => cases hclass'
        · simp only [validateWorlds, hlookup, hentry, hclass, if_true, hcb, ih hu.tail]
          simp [hne, hne']
      · have hwrong : ¬ ∃ entry, findEntry (entries env.sockets) key.utf8String = some entry ∧
            val.isKindOf entry.type = true := by
          rintro ⟨entry', heq, hkind⟩
          obtain rfl := Option.some.inj (hentry.symm.trans heq)
          exact hclass hkind
        simp [validateWorlds, hlookup, hentry, hclass]

/-- The world that `validate` returns is the last of them. -/
theorem validateKeys_mem_worlds (env : Environment) {keys : List NSString} {r' : ℤ}
    (hv : validateKeys env.notices (entries env.sockets) keys r w = .ok (r', w')) :
    w' = w ∨ w' ∈ validateWorlds env keys w := by
  induction keys generalizing r w with
  | nil =>
    cases hv
    exact .inl rfl
  | cons key keys ih =>
    rw [validateKeys] at hv
    rw [validateWorlds]
    cases hlookup : w.plist.lookup key with
    | none => exact ih (by simpa only [hlookup] using hv)
    | some val =>
      cases hentry : findEntry (entries env.sockets) key.utf8String with
      | none =>
        simp only [hlookup, hentry] at hv
        cases hv
        exact .inl rfl
      | some entry =>
        simp only [hlookup, hentry] at hv ⊢
        split_ifs at hv ⊢ with hclass
        · cases hcb : entry.cb with
          | none => exact ih (by simpa only [hcb] using hv)
          | some cb =>
            simp only [hcb] at hv ⊢
            obtain ⟨⟨r₁, val₁, w₁⟩, hrun, hv⟩ := bind_eq_ok.mp hv
            dsimp only at hv
            simp only [hrun]
            right
            apply List.mem_append_right
            split_ifs at hv with hneg hmutated
            · cases hv
              exact List.mem_cons_self
            · rw [if_neg (fun h => h.elim hneg hmutated)]
              rcases ih hv with rfl | hmem
              · exact List.mem_cons_self
              · exact List.mem_cons_of_mem _ hmem
        · cases hv
          exact .inl rfl

end Worlds

/-- A key is added under the enumeration exactly when there is no environment yet and a
path is published. -/
theorem keepsKeys_iff (env : Environment) (w : World) (plist : Plist) : KeepsKeys env w plist ↔
    ¬ (plist.entries.lookup userEnvironmentKey = none ∧
      GetsToPublish env.sockets plist.entries w.calls plist.entries) := by
  constructor
  · rintro hkeeps ⟨habsent, hgets⟩
    have hu : Untouched (plist.opened w) plist.entries := ⟨plist.distinct, plist.lookup, habsent⟩
    obtain ⟨w', hw', hadded⟩ := (validateWorlds_adds_iff env habsent hu).mpr hgets
    obtain ⟨v, hv⟩ := Option.ne_none_iff_exists'.mp hadded
    exact notMem_of_lookup_eq_none habsent ((hkeeps w' hw' _).mp (mem_of_lookup_eq_some hv))
  · intro hnot w' hw' key
    have hsame : w'.plist.map Prod.fst = plist.entries.map Prod.fst := by
      refine (validateWorlds_addsAtMost hw').resolve_right ?_
      rintro ⟨habsent, hadded⟩
      have hu : Untouched (plist.opened w) plist.entries := ⟨plist.distinct, plist.lookup, habsent⟩
      exact hnot ⟨habsent, (validateWorlds_adds_iff env habsent hu).mp ⟨w', hw', hadded⟩⟩
    rw [hsame]

/-- A secure socket in a property list without an environment. -/
def secureSocketPlist : Plist :=
  ⟨[(.literal "Label", .string (.literal "a")),
    (.literal "Sockets", .dictionary [(.literal "unix",
      .dictionary [(secureSocketKey, .string (.literal "K"))])])], by decide⟩

theorem environment_added_under_enumeration :
    (∃ r w', validate false (entries allSucceed.sockets) (secureSocketPlist.opened emptyWorld) =
        .ok (r, w') ∧
      w'.plist.map Prod.fst = [.literal "Label", .literal "Sockets", userEnvironmentKey]) ∧
    ¬ KeepsKeys allSucceed emptyWorld secureSocketPlist := by
  obtain ⟨r, w', hv, hkeys⟩ : ∃ r w', validate false (entries allSucceed.sockets)
      (secureSocketPlist.opened emptyWorld) = .ok (r, w') ∧
      w'.plist.map Prod.fst = [.literal "Label", .literal "Sockets", userEnvironmentKey] :=
    ⟨_, _, rfl, rfl⟩
  refine ⟨⟨r, w', hv, hkeys⟩, fun hkeeps => ?_⟩
  rcases validateKeys_mem_worlds allSucceed hv with rfl | hmem
  · cases hkeys
  · have hmem' := (hkeeps w' hmem userEnvironmentKey).mp (by simp [hkeys])
    exact absurd hmem' (by decide)

end OpenXPC
