import OpenXPC.ConversionFaults
import OpenXPC.Validation

/-! # Sending a property list

`loadfile` converts the property list with what the callbacks of `validate` have put in
it: a descriptor in each socket that was opened, and the generated paths in the
environment of the job. -/
namespace OpenXPC
open InsertionMap

/-! ## The list after the callbacks -/

/-- The descriptor that is stored, where a socket is opened. -/
def SocketOutcome.descriptor (out : SocketOutcome) : Option ℕ :=
  match out.socket, out.unlink with
  | .ok fd, .ok () => some fd
  | .ok fd, .error errno => if errno = eNOENT then some fd else none
  | .error _, _ => none

def HasPath (sock : Entries) : Prop :=
  sock.lookup secureSocketKey ≠ none ∨ sock.lookup sockPathKey ≠ none

instance (sock : Entries) : Decidable (HasPath sock) :=
  inferInstanceAs (Decidable (sock.lookup secureSocketKey ≠ none ∨ sock.lookup sockPathKey ≠ none))

/-- A socket of a known type that has a path gets a descriptor. -/
def SocketOutcome.fill (out : SocketOutcome) : NSObject → NSObject
  | .dictionary sock =>
    match socketType sock, out.descriptor with
    | .ok (some _), some fd =>
      if HasPath sock then .dictionary (upsert fileDescriptorKey (.fileHandle fd) sock)
      else .dictionary sock
    | _, _ => .dictionary sock
  | v => v

/-- The path that is generated for a socket of a known type with a key, under the key. -/
def SocketOutcome.paths (out : SocketOutcome) : NSObject → List (NSString × NSString)
  | .dictionary sock =>
    match socketType sock, sock.lookup secureSocketKey with
    | .ok (some _), some (.string key) =>
      [(key, ⟨secureSocketPath ((NSString.literal "/tmp/xpcd.").utf8 ++ out.suffix) key⟩)]
    | _, _ => []
  | _ => []

/-- The sockets with their descriptors; `n` calls of `process_socket` come before. -/
def fillSockets (os : ℕ → SocketOutcome) : ℕ → Entries → Entries
  | _, [] => []
  | n, (key, .array (obj :: arr)) :: dict =>
    (key, .array ((os n).fill obj :: arr)) :: fillSockets os (n + 1) dict
  | n, (key, .dictionary sock) :: dict => (key, (os n).fill (.dictionary sock)) :: dict
  | n, entry :: dict => entry :: fillSockets os n dict

def fillValue (os : ℕ → SocketOutcome) (n : ℕ) (key : NSString) : NSObject → NSObject
  | .dictionary dict =>
    if key.utf8String = socketsKey then .dictionary (fillSockets os n dict) else .dictionary dict
  | val => val

def attemptPaths (os : ℕ → SocketOutcome) : ℕ → List NSObject → List (NSString × NSString)
  | _, [] => []
  | n, v :: vs => (os n).paths v ++ attemptPaths os (n + 1) vs

/-- The paths that an entry brings. -/
def pathsFor (os : ℕ → SocketOutcome) (n : ℕ) (key : NSString) (val : NSObject) :
    List (NSString × NSString) :=
  if key.utf8String = socketsKey then attemptPaths os n (socketsIn val) else []

/-- The calls of `process_socket` for an entry. -/
def callsFor (key : NSString) (val : NSObject) : ℕ :=
  if key.utf8String = socketsKey then (socketsIn val).length else 0

/-- The entry is known and of its class. -/
def Valued (os : ℕ → SocketOutcome) (key : NSString) (val : NSObject) : Prop :=
  ∃ entry, findEntry (entries os) key.utf8String = some entry ∧ val.isKindOf entry.type = true

/-- And its callback passes. -/
def GoesOn (os : ℕ → SocketOutcome) (n : ℕ) (key : NSString) (val : NSObject) : Prop :=
  Valued os key val ∧ (key.utf8String = progargsKey → ArgumentsAreStrings val) ∧
    (key.utf8String = socketsKey → LastPasses os n True (socketsIn val))

open Classical in
/-- The entries with the descriptors, as far as the entries pass. -/
noncomputable def fillEntries (os : ℕ → SocketOutcome) : ℕ → Entries → Entries
  | _, [] => []
  | n, (key, val) :: es => (key, fillValue os n key val) ::
      if GoesOn os n key val then fillEntries os (n + callsFor key val) es else es

open Classical in
noncomputable def entryPaths (os : ℕ → SocketOutcome) : ℕ → Entries → List (NSString × NSString)
  | _, [] => []
  | n, (key, val) :: es => pathsFor os n key val ++
      if GoesOn os n key val then entryPaths os (n + callsFor key val) es else []

def environmentOf (plist : Entries) : Entries :=
  match plist.lookup userEnvironmentKey with
  | some (.dictionary userenv) => userenv
  | _ => []

def addPaths (plist : Entries) (paths : List (NSString × NSString)) : Entries :=
  paths.foldl (fun plist p =>
    upsert userEnvironmentKey (.dictionary (upsert p.1 (.string p.2) (environmentOf plist))) plist) plist

/-- The property list, with a descriptor in each opened socket and the paths in the
environment. -/
noncomputable def Plist.filled (os : ℕ → SocketOutcome) (n : ℕ) (plist : Plist) : Entries :=
  addPaths (fillEntries os n plist.entries) (entryPaths os n plist.entries)

/-! ## What the callbacks write -/

section Writing

variable {os : ℕ → SocketOutcome} {out : SocketOutcome} {w w' : World} {r r' : ℤ} {key : NSString}
  {val val' : NSObject} {plist : Entries}

theorem addPaths_append (plist : Entries) (ps qs : List (NSString × NSString)) :
    addPaths plist (ps ++ qs) = addPaths (addPaths plist ps) qs := List.foldl_append

theorem publish_eq {plist' : Entries} {name : NSString} {path : List UInt8}
    (hp : publish plist name path = .ok plist') : plist' = addPaths plist [(name, ⟨path⟩)] := by
  unfold publish at hp
  simp only [addPaths, List.foldl, environmentOf]
  split at hp
  · rename_i hnone
    cases hp
    rw [hnone]
    rfl
  · rename_i userenv hsome
    cases hp
    rw [hsome]
  · cases hp

theorem socketPathname_paths {sock : Entries} {type : SocketType} {pathname : Option NSString}
    (htype : socketType sock = .ok (some type)) (hp : socketPathname out sock w = .ok (pathname, w')) :
    w'.plist = addPaths w.plist (out.paths (.dictionary sock)) := by
  unfold socketPathname at hp
  cases hsecure : sock.lookup secureSocketKey with
  | none =>
    have hpaths : out.paths (.dictionary sock) = [] := by simp [SocketOutcome.paths, htype, hsecure]
    rw [hsecure] at hp
    rw [hpaths]
    dsimp only at hp
    split at hp
    · cases hp
      rfl
    · cases hp
      rfl
    · cases hp
  | some v =>
    rw [hsecure] at hp
    cases v with
    | string name =>
      obtain ⟨plist', hpub, hp⟩ := bind_eq_ok.mp hp
      cases hp
      simp only [SocketOutcome.paths, htype, hsecure]
      exact publish_eq hpub
    | _ => cases hp

theorem openSocket_fill {sock : Entries} {type : SocketType} (htype : socketType sock = .ok (some type))
    (hpath : HasPath sock) (name : NSString) (w : World) :
    NSObject.dictionary (openSocket out type name sock w).2.1 = out.fill (.dictionary sock) := by
  unfold openSocket SocketOutcome.fill SocketOutcome.descriptor
  cases hsocket : out.socket with
  | error errno => simp [htype]
  | ok fd =>
    cases hunlink : out.unlink with
    | ok u => simp [htype, hpath]
    | error errno =>
      by_cases hno : errno = eNOENT
      · simp [htype, hpath, hno]
      · simp [htype, hno]

/-- One call leaves the entry filled and the path in the environment. -/
theorem processSocket_filled (hp : processSocket os val w = .ok (r, val', w')) :
    val' = (os w.calls).fill val ∧ w'.plist = addPaths w.plist ((os w.calls).paths val) := by
  rcases processSocket_cases hp with ⟨hunknown, -, rfl, rfl⟩ | ⟨sock, type, pathname, w₁, rfl, htype,
    hpath, hopen⟩
  · cases val' with
    | dictionary sock => simp [SocketOutcome.fill, SocketOutcome.paths, hunknown sock rfl, addPaths]
    | _ => exact ⟨rfl, rfl⟩
  · have hplist := socketPathname_paths htype hpath
    have hhas : pathname ≠ none ↔ HasPath sock := (socketPathname_ok hpath).2
    rcases hopen with ⟨rfl, -, rfl, rfl⟩ | ⟨name, rfl, -, rfl, rfl⟩
    · have hnone : ¬ HasPath sock := fun h => hhas.mpr h rfl
      refine ⟨?_, hplist⟩
      cases hd : (os w.calls).descriptor <;> simp [SocketOutcome.fill, htype, hd, hnone]
    · have hsome : HasPath sock := hhas.mp (Option.some_ne_none _)
      refine ⟨openSocket_fill htype hsome name w₁, ?_⟩
      rw [openSocket_plist]
      exact hplist

theorem eachSocket_filled {dict dict' : Entries} (he : eachSocket os r dict w = .ok (r', dict', w')) :
    dict' = fillSockets os w.calls dict ∧
      w'.plist = addPaths w.plist (attemptPaths os w.calls (attempts dict)) := by
  induction dict generalizing r r' w w' dict' with
  | nil =>
    cases he
    exact ⟨rfl, rfl⟩
  | cons e dict ih =>
    obtain ⟨key, val⟩ := e
    have hrest : ∀ {r' dict' w'}, (eachSocket os r dict w >>= fun q =>
        .ok (q.1, (key, val) :: q.2.1, q.2.2)) = .ok (r', dict', w') →
        dict' = (key, val) :: fillSockets os w.calls dict ∧
          w'.plist = addPaths w.plist (attemptPaths os w.calls (attempts dict)) := by
      intro r' dict' w' he
      obtain ⟨⟨r₁, dict₁, w₁⟩, hloop, he⟩ := bind_eq_ok.mp he
      cases he
      obtain ⟨hdict, hplist⟩ := ih hloop
      exact ⟨by rw [hdict], hplist⟩
    cases val with
    | array arr =>
      rw [eachSocket] at he
      obtain ⟨⟨r₁, arr', w₁⟩, helem, he⟩ := bind_eq_ok.mp he
      obtain ⟨⟨r₂, dict₁, w₂⟩, hloop, he⟩ := bind_eq_ok.mp he
      cases he
      obtain ⟨hdict, hplist⟩ := ih hloop
      cases arr with
      | nil =>
        cases helem
        exact ⟨by rw [hdict]; rfl, hplist⟩
      | cons obj arr =>
        rw [eachElement] at helem
        obtain ⟨⟨r₃, obj', w₃⟩, hp, helem⟩ := bind_eq_ok.mp helem
        obtain ⟨hle, -, hadv⟩ := processSocket_ok hp
        obtain ⟨hobj, hpaths⟩ := processSocket_filled hp
        dsimp only at helem
        rw [if_pos hle] at helem
        cases helem
        rw [hadv.calls] at hdict hplist
        refine ⟨by rw [hdict, hobj]; rfl, ?_⟩
        rw [hplist, hpaths, ← addPaths_append]
        rfl
    | dictionary sock =>
      rw [eachSocket] at he
      obtain ⟨⟨r₁, val', w₁⟩, hp, he⟩ := bind_eq_ok.mp he
      obtain ⟨hle, -, -⟩ := processSocket_ok hp
      obtain ⟨hval, hpaths⟩ := processSocket_filled hp
      dsimp only at he
      rw [if_pos hle] at he
      cases he
      refine ⟨by rw [hval]; rfl, ?_⟩
      rw [hpaths, attempts, attemptPaths, attemptPaths, List.append_nil]
    | string s => exact hrest he
    | data bytes => exact hrest he
    | fileHandle fd => exact hrest he
    | number n => exact hrest he
    | date => exact hrest he

theorem cbSockets_filled {k : CString} {dict : Entries}
    (hc : cbSockets os k (.dictionary dict) w = .ok (r, val', w')) :
    val' = .dictionary (fillSockets os w.calls dict) ∧
      w'.plist = addPaths w.plist (attemptPaths os w.calls (attempts dict)) := by
  obtain ⟨⟨r₁, dict', w₁⟩, hloop, hc⟩ := bind_eq_ok.mp hc
  cases hc
  obtain ⟨hdict, hplist⟩ := eachSocket_filled hloop
  exact ⟨by rw [hdict], hplist⟩

theorem addPaths_cons (plist : Entries) (p : NSString × NSString) (ps : List (NSString × NSString)) :
    addPaths plist (p :: ps) = addPaths (upsert userEnvironmentKey
      (.dictionary (upsert p.1 (.string p.2) (environmentOf plist))) plist) ps := rfl

theorem lookup_addPaths (hkey : key ≠ userEnvironmentKey) (ps : List (NSString × NSString)) :
    (addPaths plist ps).lookup key = plist.lookup key := by
  induction ps generalizing plist with
  | nil => rfl
  | cons p ps ih => rw [addPaths_cons, ih, lookup_upsert, if_neg hkey]

theorem mem_addPaths (hkey : key ∈ plist.map Prod.fst) (ps : List (NSString × NSString)) :
    key ∈ (addPaths plist ps).map Prod.fst := by
  induction ps generalizing plist with
  | nil => exact hkey
  | cons p ps ih =>
    refine ih ?_
    rw [upsert_keys]
    split_ifs
    · exact hkey
    · exact List.mem_append_left _ hkey

/-- Another key is written before or after the paths. -/
theorem upsert_addPaths (hne : key ≠ userEnvironmentKey) (hkey : key ∈ plist.map Prod.fst)
    (ps : List (NSString × NSString)) :
    upsert key val (addPaths plist ps) = addPaths (upsert key val plist) ps := by
  induction ps generalizing plist with
  | nil => rfl
  | cons p ps ih =>
    have henv : environmentOf (upsert key val plist) = environmentOf plist := by
      rw [environmentOf, environmentOf, lookup_upsert, if_neg (Ne.symm hne)]
    have hmem : key ∈ (addPaths plist [p]).map Prod.fst := mem_addPaths hkey [p]
    rw [addPaths_cons, addPaths_cons, henv, ← upsert_comm hne hkey]
    exact ih hmem

end Writing

/-! ## The run of `validate` -/

/-- Entries have been gone through, and the others are as Foundation has read them. -/
structure FilledUpTo (w : World) (done es : Entries) (ps : List (NSString × NSString)) : Prop where
  distinct : ((done ++ es).map Prod.fst).Nodup
  plist : w.plist = addPaths (done ++ es) ps

section Running

variable {os : ℕ → SocketOutcome} {notices : Bool} {w w' : World} {r r' : ℤ} {key : NSString}
  {val val' : NSObject} {done es : Entries} {ps qs : List (NSString × NSString)}

namespace FilledUpTo

theorem mem_keys (key : NSString) (val : NSObject) (done es : Entries) :
    key ∈ (done ++ (key, val) :: es).map Prod.fst := by simp

variable (hf : FilledUpTo w done ((key, val) :: es) ps)
include hf

theorem present : ∃ v, w.plist.lookup key = some v := by
  apply Option.ne_none_iff_exists'.mp
  intro hnone
  exact notMem_of_lookup_eq_none hnone (hf.plist ▸ mem_addPaths (mem_keys key val done es) ps)

theorem lookup (hne : key ≠ userEnvironmentKey) : w.plist.lookup key = some val := by
  rw [hf.plist, lookup_addPaths hne]
  exact lookup_of_mem hf.distinct (p := (key, val)) (by simp)

theorem next : FilledUpTo w (done ++ [(key, val)]) es ps := by
  have hassoc : (done ++ [(key, val)]) ++ es = done ++ (key, val) :: es := by simp
  exact ⟨hassoc ▸ hf.distinct, hassoc ▸ hf.plist⟩

theorem afterCallback (hne : key ≠ userEnvironmentKey) (hpaths : w'.plist = addPaths w.plist qs) :
    FilledUpTo (w'.afterCallback key val' r) (done ++ [(key, val')]) es (ps ++ qs) := by
  have hnew : key ∉ done.map Prod.fst := by
    have hdistinct := hf.distinct
    rw [List.map_append, List.map_cons] at hdistinct
    exact fun hk => (List.nodup_append.mp hdistinct).2.2 key hk key List.mem_cons_self rfl
  have hassoc : (done ++ [(key, val')]) ++ es = done ++ (key, val') :: es := by simp
  constructor
  · rw [hassoc]
    simpa using hf.distinct
  · rw [World.afterCallback, hpaths, hf.plist, ← addPaths_append, upsert_addPaths hne (mem_keys key val done es),
      upsert_append_cons hnew, hassoc]

end FilledUpTo

theorem Valued.of_sockets (hk : key.utf8String = socketsKey) (dict : Entries) :
    Valued os key (.dictionary dict) :=
  ⟨⟨socketsKey, .kDictionary, some (cbSockets os), .kOptional⟩, by rw [hk]; rfl, rfl⟩

/-- The callbacks do not get to an entry that is not known or has the wrong class. -/
theorem fill_of_not_valued {n : ℕ} (h : ¬ Valued os key val) :
    fillValue os n key val = val ∧ pathsFor os n key val = [] := by
  cases val with
  | dictionary dict =>
    have hne : key.utf8String ≠ socketsKey := fun hk => h (.of_sockets hk dict)
    exact ⟨if_neg hne, if_neg hne⟩
  | _ => exact ⟨rfl, ite_self _⟩

/-- What a callback leaves of its entry. -/
theorem callback_filled {entry : SchemaEntry} {cb : SchemaCb}
    (hentry : findEntry (entries os) key.utf8String = some entry)
    (hclass : val.isKindOf entry.type = true) (hcb : entry.cb = some cb)
    (hrun : cb key.utf8String val w = .ok (r, val', w')) :
    val' = fillValue os w.calls key val ∧ w'.plist = addPaths w.plist (pathsFor os w.calls key val) ∧
      w'.calls = w.calls + callsFor key val ∧ (0 ≤ r ↔ GoesOn os w.calls key val) := by
  have hvalued : Valued os key val := ⟨entry, hentry, hclass⟩
  rcases findEntry_cb hentry with ⟨hname, hne, htype, hcb'⟩ | ⟨hname, hne, htype, hcb'⟩ | ⟨-, -, hnone⟩
  · cases hcb.symm.trans hcb'
    have hpasses := (cbProgargs_ok hrun).1
    rw [htype] at hclass
    cases val with
    | array arr =>
      cases hrun
      rw [pathsFor, callsFor, if_neg hne, if_neg hne]
      exact ⟨rfl, rfl, rfl, hpasses.trans ⟨fun h => ⟨hvalued, fun _ => h, fun hk => absurd hk hne⟩,
        fun h => h.2.1 hname⟩⟩
    | _ => cases hclass
  · cases hcb.symm.trans hcb'
    obtain ⟨hpasses, hadv⟩ := cbSockets_ok hrun
    rw [htype] at hclass
    cases val with
    | dictionary dict =>
      obtain ⟨rfl, hpaths⟩ := cbSockets_filled hrun
      rw [fillValue, pathsFor, callsFor, if_pos hname, if_pos hname, if_pos hname]
      exact ⟨rfl, hpaths, hadv.calls, hpasses.trans ⟨fun h => ⟨hvalued, fun hk => absurd hk hne, fun _ => h⟩,
        fun h => h.2.2 hname⟩⟩
    | _ => cases hclass
  · cases hcb.symm.trans hnone

/-- Without a callback the enumeration goes on. -/
theorem fill_of_no_callback {n : ℕ} {entry : SchemaEntry}
    (hentry : findEntry (entries os) key.utf8String = some entry)
    (hclass : val.isKindOf entry.type = true) (hcb : entry.cb = none) :
    fillValue os n key val = val ∧ pathsFor os n key val = [] ∧ callsFor key val = 0 ∧
      GoesOn os n key val := by
  rcases findEntry_cb hentry with ⟨-, -, -, hcb'⟩ | ⟨-, -, -, hcb'⟩ | ⟨hne, hne', -⟩
  · cases hcb.symm.trans hcb'
  · cases hcb.symm.trans hcb'
  · rw [pathsFor, callsFor, if_neg hne', if_neg hne']
    refine ⟨?_, rfl, rfl, ⟨entry, hentry, hclass⟩, fun hk => absurd hk hne, fun hk => absurd hk hne'⟩
    cases val with
    | dictionary dict => exact if_neg hne'
    | _ => rfl

/-- The entries gone through stand in front, filled; the induction is on those to come. -/
theorem validateKeys_filled (hf : FilledUpTo w done es ps)
    (hv : validateKeys notices (entries os) (es.map Prod.fst) r w = .ok (r', w')) :
    w'.plist = addPaths (done ++ fillEntries os w.calls es) (ps ++ entryPaths os w.calls es) := by
  induction es generalizing r w done ps with
  | nil =>
    cases hv
    rw [fillEntries, entryPaths, List.append_nil ps, hf.plist]
  | cons e es ih =>
    obtain ⟨key, val⟩ := e
    obtain ⟨v, hv₀⟩ := hf.present
    rw [List.map_cons, validateKeys, hv₀] at hv
    dsimp only at hv
    have hstops : w' = w → ¬ Valued os key val →
        w'.plist = addPaths (done ++ fillEntries os w.calls ((key, val) :: es))
          (ps ++ entryPaths os w.calls ((key, val) :: es)) := by
      rintro rfl hnot
      have hstop : ¬ GoesOn os w'.calls key val := fun hgo => hnot hgo.1
      obtain ⟨hval, hpaths⟩ := fill_of_not_valued (n := w'.calls) hnot
      rw [fillEntries, entryPaths, if_neg hstop, if_neg hstop, hval, hpaths, List.append_nil,
        List.append_nil, hf.plist]
    cases hentry : findEntry (entries os) key.utf8String with
    | none =>
      rw [hentry] at hv
      cases hv
      exact hstops rfl fun hvalued => by simp [Valued, hentry] at hvalued
    | some entry =>
      have hknown : findEntry (entries os) key.utf8String ≠ none := by simp [hentry]
      have hne := ne_userEnvironmentKey hknown
      obtain rfl : v = val := Option.some.inj (hv₀.symm.trans (hf.lookup hne))
      rw [hentry] at hv
      dsimp only at hv
      by_cases hclass : v.isKindOf entry.type = true
      swap
      · rw [if_neg hclass] at hv
        cases hv
        refine hstops rfl fun hvalued => hclass ?_
        obtain ⟨entry', hentry', hclass'⟩ := hvalued
        obtain rfl := Option.some.inj (hentry.symm.trans hentry')
        exact hclass'
      rw [if_pos hclass] at hv
      rw [fillEntries, entryPaths]
      cases hcb : entry.cb with
      | none =>
        obtain ⟨hval, hpaths, hcalls, hgo⟩ := fill_of_no_callback (n := w.calls) hentry hclass hcb
        rw [hcb] at hv
        rw [if_pos hgo, if_pos hgo, hval, hpaths, hcalls, ih hf.next hv, List.append_assoc]
        rfl
      | some cb =>
        rw [hcb] at hv
        obtain ⟨⟨r₁, val₁, w₁⟩, hrun, hv⟩ := bind_eq_ok.mp hv
        obtain ⟨hval, hpaths, hcalls, hpasses⟩ := callback_filled hentry hclass hcb hrun
        have hf₁ : FilledUpTo (w₁.afterCallback key val₁ r₁) (done ++ [(key, val₁)]) es (ps ++ _) :=
          hf.afterCallback hne hpaths
        dsimp only at hv
        split_ifs at hv with hneg hmutated
        · have hstop : ¬ GoesOn os w.calls key v :=
            fun h => absurd (hpasses.mpr h) (Int.not_le.mpr hneg)
          cases hv
          rw [if_neg hstop, if_neg hstop, hf₁.plist, hval, List.append_nil, List.append_assoc]
          rfl
        · have hgo : GoesOn os w.calls key v := hpasses.mp (Int.not_lt.mp hneg)
          have hcalls' : (w₁.afterCallback key val₁ r₁).calls = w.calls + callsFor key v := hcalls
          rw [if_pos hgo, if_pos hgo, ih hf₁ hv, hcalls', hval, List.append_assoc, List.append_assoc]
          rfl

/-- `validate` leaves the list filled. -/
theorem validate_filled {env : Environment} {plist : Plist}
    (hv : validate env.notices (entries env.sockets) (plist.opened w) = .ok (r, w')) :
    w'.plist = plist.filled env.sockets w.calls := by
  have hstart : FilledUpTo (plist.opened w) [] plist.entries [] := ⟨plist.distinct, rfl⟩
  exact validateKeys_filled hstart hv

end Running

/-! ## What is sent -/

/-- A label, arguments and a socket that is opened. -/
def labelAndSocket : Plist :=
  ⟨[(.literal "Label", .string ⟨[97]⟩), (.literal "ProgramArguments", .array [.string ⟨[97]⟩]),
    (.literal "Sockets", .dictionary [(.literal "s", .dictionary [(sockPathKey, .string ⟨[47]⟩)])])],
    by decide⟩

theorem labelAndSocket_checked : Checked (entries allSucceed.sockets) labelAndSocket.entries := by
  constructor
  · intro e he hnone
    simp only [labelAndSocket, List.mem_cons, List.not_mem_nil, or_false] at he
    rcases he with rfl | rfl | rfl
    · cases hnone
    · cases hnone
    · cases hnone
  · intro e he entry hentry
    simp only [labelAndSocket, List.mem_cons, List.not_mem_nil, or_false] at he
    rcases he with rfl | rfl | rfl
    · obtain rfl := Option.some.inj hentry
      rfl
    · obtain rfl := Option.some.inj hentry
      rfl
    · obtain rfl := Option.some.inj hentry
      rfl
  · intro entry hmem hneed
    refine ⟨_, List.mem_cons_self, ?_⟩
    rcases List.mem_cons.mp hmem with rfl | hmem
    · rfl
    · have hoptional : ∀ e ∈ (entries allSucceed.sockets).tail, e.need = .kOptional := by
        simp [entries]
      rw [hoptional entry hmem] at hneed
      cases hneed

end OpenXPC
