import Mathlib.Data.Int.Notation
import OpenXPC.InsertionMap
import OpenXPC.PropertyLists

/-! # Sockets of a property list

`process_socket` opens the socket of one entry of `Sockets`, and `cb_sockets` calls
it for the entries. What the system calls return is given for each call of
`process_socket`, in the order of the calls. -/
namespace OpenXPC
open InsertionMap

/-- What the system calls of one call of `process_socket` return: `mkdtemp` chooses
the last six characters of a name, `socket` and `unlink` fail with an `errno`. -/
structure SocketOutcome where
  mkdtemp : Bool
  suffix : List UInt8
  socket : Except ℤ ℕ
  unlink : Except ℤ Unit
  suffix_length : suffix.length = 6
  suffix_noNul : 0 ∉ suffix
  socket_pos : ∀ e, socket = .error e → 0 < e
  unlink_pos : ∀ e, unlink = .error e → 0 < e

def eINVAL : ℤ := 22

def eNOENT : ℤ := 2

inductive SocketType
  | stream
  | dgram
  | seqpacket
  deriving DecidableEq

/-- The property list and the operating system around it: the directories made, the
descriptors open and the `sun_path` of every file removed. `calls` counts the calls
of `process_socket`, and `returned` lists what the callbacks of `validate` returned.
`sizeof(sun.sun_path)` differs between systems (104 or 108 bytes); `secsockpath` has room
for as many characters on all of them. -/
structure World where
  plist : Entries
  dirs : List (List UInt8)
  descriptors : List (ℕ × SocketType)
  removed : List (List UInt8)
  calls : ℕ
  returned : List ℤ
  sunPathSize : ℕ
  sunPathSize_le : sunPathSize ≤ 253

def sockTypeKey : NSString := .literal "SockType"

def secureSocketKey : NSString := .literal "SecureSocketWithKey"

def sockPathKey : NSString := .literal "SockPathName"

def userEnvironmentKey : NSString := .literal "UserEnvironmentVariables"

def fileDescriptorKey : NSString := .literal "FileDescriptor"

/-- The inner `none` is a type that is not known. Only strings understand
`isEqualToString:`. -/
def socketType (sock : Entries) : Except Stop (Option SocketType) :=
  match sock.lookup sockTypeKey with
  | none => .ok (some .stream)
  | some (.string typestr) =>
    if typestr = .literal "dgram" then .ok (some .dgram)
    else if typestr = .literal "seqpacket" then .ok (some .seqpacket)
    else if typestr = .literal "stream" then .ok (some .stream)
    else .ok none
  | some _ => .error .unrecognizedSelector

/-- The characters that `snprintf` leaves room for in `secsockpath`. -/
def secureSocketPath (secsockdir : List UInt8) (key : NSString) : List UInt8 :=
  (secsockdir ++ 47 :: key.utf8String.bytes).take 253

/-- The path is published in the environment of the job, under the key. -/
def publish (plist : Entries) (key : NSString) (path : List UInt8) : Except Stop Entries :=
  match plist.lookup userEnvironmentKey with
  | none => .ok (upsert userEnvironmentKey (.dictionary [(key, .string ⟨path⟩)]) plist)
  | some (.dictionary userenv) =>
    .ok (upsert userEnvironmentKey (.dictionary (upsert key (.string ⟨path⟩) userenv)) plist)
  | some _ => .error .unrecognizedSelector

/-- The local variable `pathname` where the socket is opened, and the world by then. -/
def socketPathname (out : SocketOutcome) (sock : Entries) (w : World) :
    Except Stop (Option NSString × World) :=
  match sock.lookup secureSocketKey with
  | some (.string pathname) => do
    let secsockdir := (NSString.literal "/tmp/xpcd.").utf8 ++ out.suffix
    let plist ← publish w.plist pathname (secureSocketPath secsockdir pathname)
    let dirs := if out.mkdtemp then secsockdir :: w.dirs else w.dirs
    .ok (some pathname, { w with plist := plist, dirs := dirs })
  | some _ => .error .unrecognizedSelector
  | none =>
    match sock.lookup sockPathKey with
    | none => .ok (none, w)
    | some (.string pathname) => .ok (some pathname, w)
    | some _ => .error .unrecognizedSelector

/-- `strncpy` into the bytes of `sun_path`, which it pads with zeros. -/
def sunPath (size : ℕ) (pathname : NSString) : List UInt8 :=
  let bytes := pathname.utf8String.bytes.take size
  bytes ++ List.replicate (size - bytes.length) 0

/-- The part of `process_socket` for Unix sockets. -/
def openSocket (out : SocketOutcome) (type : SocketType) (pathname : NSString) (sock : Entries)
    (w : World) : ℤ × Entries × World :=
  match out.socket with
  | .error errno => (-errno, sock, w)
  | .ok fd =>
    let opened := { w with descriptors := (fd, type) :: w.descriptors }
    let sock' := upsert fileDescriptorKey (.fileHandle fd) sock
    match out.unlink with
    | .ok () => (0, sock', { opened with removed := sunPath w.sunPathSize pathname :: w.removed })
    -- the descriptor is closed again unless there was no file
    | .error errno => if errno = eNOENT then (0, sock', opened) else (-errno, sock, w)

/-- Returns the result and the entry, which may have changed. -/
def processSocket (os : ℕ → SocketOutcome) (val : NSObject) (w : World) :
    Except Stop (ℤ × NSObject × World) :=
  let out := os w.calls
  let w := { w with calls := w.calls + 1 }
  match val with
  | .dictionary sock => do
    let type ← socketType sock
    match type with
    | none => .ok (-eINVAL, val, w)
    | some type =>
      let (pathname, w) ← socketPathname out sock w
      match pathname with
      | none => .ok (0, val, w)
      | some pathname =>
        let (r, sock, w) := openSocket out type pathname sock w
        .ok (r, .dictionary sock, w)
  | _ => .ok (-eINVAL, val, w)

/-- The inner enumeration, over an array of sockets. -/
def eachElement (os : ℕ → SocketOutcome) :
    ℤ → List NSObject → World → Except Stop (ℤ × List NSObject × World)
  | r, [], w => .ok (r, [], w)
  | _, obj :: arr, w => do
    let (r, obj, w) ← processSocket os obj w
    if r ≤ 0 then .ok (r, obj :: arr, w)
    else
      let (r, arr, w) ← eachElement os r arr w
      .ok (r, obj :: arr, w)

/-- The outer enumeration; `stop` is that of the inner one for an array. -/
def eachSocket (os : ℕ → SocketOutcome) : ℤ → Entries → World → Except Stop (ℤ × Entries × World)
  | r, [], w => .ok (r, [], w)
  | r, (key, .array arr) :: dict, w => do
    let (r, arr, w) ← eachElement os r arr w
    let (r, dict, w) ← eachSocket os r dict w
    .ok (r, (key, .array arr) :: dict, w)
  | _, (key, .dictionary sock) :: dict, w => do
    let (r, val, w) ← processSocket os (.dictionary sock) w
    if r ≤ 0 then .ok (r, (key, val) :: dict, w)
    else
      let (r, dict, w) ← eachSocket os r dict w
      .ok (r, (key, val) :: dict, w)
  | r, entry :: dict, w => do
    let (r, dict, w) ← eachSocket os r dict w
    .ok (r, entry :: dict, w)

def cbSockets (os : ℕ → SocketOutcome) (_key : CString) (val : NSObject) (w : World) :
    Except Stop (ℤ × NSObject × World) :=
  match val with
  | .dictionary dict => do
    let (r, dict, w) ← eachSocket os 0 dict w
    .ok (r, .dictionary dict, w)
  | _ => .error .unrecognizedSelector

/-! ## When a socket entry passes -/

/-- The calls for a Unix socket succeed, and at most the old file is missing. -/
def SocketOutcome.Opens (out : SocketOutcome) : Prop :=
  (∃ fd, out.socket = .ok fd) ∧ ∀ e, out.unlink = .error e → e = eNOENT

/-- A dictionary of a known type; a socket is opened where a path is given. -/
def SocketPasses (out : SocketOutcome) (val : NSObject) : Prop :=
  ∃ sock, val = .dictionary sock ∧ socketType sock ≠ .ok none ∧
    (sock.lookup secureSocketKey ≠ none ∨ sock.lookup sockPathKey ≠ none → out.Opens)

/-- The entries that `cb_sockets` gets to: the first one of each array, up to the
first dictionary. -/
def attempts : Entries → List NSObject
  | [] => []
  | (_, .array arr) :: dict => arr.take 1 ++ attempts dict
  | (_, .dictionary sock) :: _ => [.dictionary sock]
  | _ :: dict => attempts dict

/-- The last attempt passes; `p` where there is none. -/
def LastPasses (os : ℕ → SocketOutcome) : ℕ → Prop → List NSObject → Prop
  | _, p, [] => p
  | n, _, v :: vs => LastPasses os (n + 1) (SocketPasses (os n) v) vs

/-- Something else than a dictionary stands for the environment of the job. -/
def EnvironmentMisplaced (plist : Entries) : Prop :=
  ∃ v, plist.lookup userEnvironmentKey = some v ∧ ∀ userenv, v ≠ .dictionary userenv

def KnownType (sock : Entries) : Prop := ∃ type, socketType sock = .ok (some type)

/-- A name is not a string, or there is nowhere to publish the path. -/
def PathEnds (plist sock : Entries) : Prop :=
  match sock.lookup secureSocketKey with
  | some (.string _) => EnvironmentMisplaced plist
  | some _ => True
  | none => ∃ v, sock.lookup sockPathKey = some v ∧ ∀ pathname, v ≠ .string pathname

/-- In `process_socket` a message is sent to an object without the method. -/
def SocketEnds (plist : Entries) (val : NSObject) : Prop :=
  ∃ sock, val = .dictionary sock ∧
    (socketType sock = .error .unrecognizedSelector ∨ (KnownType sock ∧ PathEnds plist sock))

def SocketPublishes (val : NSObject) : Prop :=
  ∃ sock pathname, val = .dictionary sock ∧ KnownType sock ∧
    sock.lookup secureSocketKey = some (.string pathname)

/-- The environment is added where there is none, if `p`, and no other key is. -/
structure Publishes (p : Prop) (plist plist' : Entries) : Prop where
  misplaced : EnvironmentMisplaced plist' ↔ EnvironmentMisplaced plist
  absent : plist'.lookup userEnvironmentKey = none ↔
    plist.lookup userEnvironmentKey = none ∧ ¬ p
  keys : plist'.map Prod.fst = plist.map Prod.fst ∨
    (plist.lookup userEnvironmentKey = none ∧ plist'.lookup userEnvironmentKey ≠ none)

/-- What `n` calls of `process_socket` leave alone. -/
structure World.Advances (w : World) (n : ℕ) (w' : World) : Prop where
  calls : w'.calls = w.calls + n
  returned : w'.returned = w.returned
  sunPathSize : w'.sunPathSize = w.sunPathSize
  lookup : ∀ key, key ≠ userEnvironmentKey → w'.plist.lookup key = w.plist.lookup key

section Specifications

variable {os : ℕ → SocketOutcome} {out : SocketOutcome} {w w' w'' : World} {r r' : ℤ}

theorem World.Advances.refl (w : World) : w.Advances 0 w :=
  ⟨rfl, rfl, rfl, fun _ _ => rfl⟩

theorem World.Advances.trans {n m : ℕ} (h₁ : w.Advances n w') (h₂ : w'.Advances m w'') :
    w.Advances (n + m) w'' := by
  constructor
  · rw [h₂.calls, h₁.calls, Nat.add_assoc]
  · rw [h₂.returned, h₁.returned]
  · rw [h₂.sunPathSize, h₁.sunPathSize]
  · intro key hkey
    rw [h₂.lookup key hkey, h₁.lookup key hkey]

theorem publish_lookup {plist plist' : Entries} {key : NSString} {path : List UInt8}
    (hp : publish plist key path = .ok plist') {k : NSString} (hk : k ≠ userEnvironmentKey) :
    plist'.lookup k = plist.lookup k := by
  unfold publish at hp
  split at hp
  · cases hp
    rw [lookup_upsert, if_neg hk]
  · cases hp
    rw [lookup_upsert, if_neg hk]
  · cases hp

section Publishing

variable {p q : Prop} {plist plist' plist'' : Entries}

theorem Publishes.same (hp : ¬ p) (plist : Entries) : Publishes p plist plist :=
  ⟨Iff.rfl, ⟨fun h => ⟨h, hp⟩, fun h => h.1⟩, .inl rfl⟩

theorem Publishes.trans (h₁ : Publishes p plist plist') (h₂ : Publishes q plist' plist'') :
    Publishes (p ∨ q) plist plist'' := by
  refine ⟨h₂.misplaced.trans h₁.misplaced, ?_, ?_⟩
  · rw [h₂.absent, h₁.absent, not_or, and_assoc]
  · rcases h₁.keys with hk₁ | ⟨hnone, hsome⟩
    · rcases h₂.keys with hk₂ | ⟨hnone, hsome⟩
      · exact .inl (hk₂.trans hk₁)
      · exact .inr ⟨(h₁.absent.mp hnone).1, hsome⟩
    · exact .inr ⟨hnone, fun h => hsome (h₂.absent.mp h).1⟩

theorem Publishes.congr (h : Publishes p plist plist') (hpq : p ↔ q) : Publishes q plist plist' :=
  propext hpq ▸ h

theorem Publishes.keys_ne_iff (h : Publishes p plist plist') :
    plist'.map Prod.fst ≠ plist.map Prod.fst ↔ plist.lookup userEnvironmentKey = none ∧ p := by
  constructor
  · intro hne
    obtain ⟨hnone, hsome⟩ := h.keys.resolve_left hne
    refine ⟨hnone, ?_⟩
    by_contra hp
    exact hsome (h.absent.mpr ⟨hnone, hp⟩)
  · rintro ⟨hnone, hp⟩ heq
    have hsome : plist'.lookup userEnvironmentKey ≠ none := fun h' => (h.absent.mp h').2 hp
    obtain ⟨v, hv⟩ := Option.ne_none_iff_exists'.mp hsome
    exact notMem_of_lookup_eq_none hnone (heq ▸ mem_of_lookup_eq_some hv)

/-- Setting the environment to a dictionary. -/
theorem publishes_upsert (hplaced : ¬ EnvironmentMisplaced plist) (hp : p) (userenv : Entries) :
    Publishes p plist (upsert userEnvironmentKey (.dictionary userenv) plist) := by
  have hlookup : (upsert userEnvironmentKey (.dictionary userenv) plist).lookup userEnvironmentKey =
      some (.dictionary userenv) := by
    rw [lookup_upsert, if_pos rfl]
  refine ⟨⟨fun h => ?_, fun h => absurd h hplaced⟩, ⟨fun h => ?_, fun h => absurd hp h.2⟩, ?_⟩
  · obtain ⟨v, hv, hne⟩ := h
    rw [hlookup] at hv
    cases hv
    exact absurd rfl (hne userenv)
  · rw [hlookup] at h
    cases h
  · cases hl : plist.lookup userEnvironmentKey with
    | none => exact .inr ⟨rfl, by simp [hlookup]⟩
    | some v => exact .inl (by rw [upsert_keys, if_pos (mem_of_lookup_eq_some hl)])

theorem publish_cases (plist : Entries) (key : NSString) (path : List UInt8) :
    (EnvironmentMisplaced plist ∧ publish plist key path = .error .unrecognizedSelector) ∨
      (¬ EnvironmentMisplaced plist ∧ ∃ userenv,
        publish plist key path = .ok (upsert userEnvironmentKey (.dictionary userenv) plist)) := by
  unfold publish EnvironmentMisplaced
  split
  · rename_i hnone
    exact .inr ⟨by simp [hnone], _, rfl⟩
  · rename_i userenv hsome
    exact .inr ⟨by simp [hsome], _, rfl⟩
  · rename_i v hne hsome
    exact .inl ⟨⟨v, hsome, hne⟩, rfl⟩

end Publishing

theorem socketPathname_ok {sock : Entries} {pathname : Option NSString}
    (hp : socketPathname out sock w = .ok (pathname, w')) : w.Advances 0 w' ∧
      (pathname ≠ none ↔ sock.lookup secureSocketKey ≠ none ∨ sock.lookup sockPathKey ≠ none) := by
  unfold socketPathname at hp
  split at hp
  · rename_i p hsecure
    dsimp only at hp
    obtain ⟨plist, hpub, hp⟩ := bind_eq_ok.mp hp
    cases hp
    refine ⟨⟨rfl, rfl, rfl, fun key hkey => publish_lookup hpub hkey⟩, ?_⟩
    simp [hsecure]
  · cases hp
  · rename_i hsecure
    split at hp
    · rename_i hpath
      cases hp
      exact ⟨World.Advances.refl w, by simp [hsecure, hpath]⟩
    · rename_i p hpath
      cases hp
      exact ⟨World.Advances.refl w, by simp [hpath]⟩
    · cases hp

theorem openSocket_ok (out : SocketOutcome) (type : SocketType) (pathname : NSString)
    (sock : Entries) (w : World) : (openSocket out type pathname sock w).1 ≤ 0 ∧
      (0 ≤ (openSocket out type pathname sock w).1 ↔ out.Opens) ∧
      w.Advances 0 (openSocket out type pathname sock w).2.2 := by
  have hsame : ∀ ds fs, w.Advances 0 { w with descriptors := ds, removed := fs } :=
    fun _ _ => ⟨rfl, rfl, rfl, fun _ _ => rfl⟩
  cases hsocket : out.socket with
  | error e =>
    have hpos := out.socket_pos e hsocket
    simp only [openSocket, hsocket]
    refine ⟨by omega, ⟨fun hle => by omega, fun ho => ?_⟩, World.Advances.refl w⟩
    simp [SocketOutcome.Opens, hsocket] at ho
  | ok fd =>
    cases hunlink : out.unlink with
    | ok u =>
      simp only [openSocket, hsocket, hunlink]
      refine ⟨Int.le_refl 0, ⟨fun _ => ⟨⟨fd, hsocket⟩, ?_⟩, fun _ => Int.le_refl 0⟩, hsame _ _⟩
      simp [hunlink]
    | error e =>
      have hpos := out.unlink_pos e hunlink
      simp only [openSocket, hsocket, hunlink]
      split_ifs with he
      · refine ⟨Int.le_refl 0, ⟨fun _ => ⟨⟨fd, hsocket⟩, ?_⟩, fun _ => Int.le_refl 0⟩, hsame _ _⟩
        simpa [hunlink] using he
      · refine ⟨by omega, ⟨fun hle => by omega, fun ho => ?_⟩, World.Advances.refl w⟩
        exact absurd (ho.2 e hunlink) he

/-- An entry of an unknown type is refused; one of a known type is opened where it has
a path. The call is counted in any case. -/
theorem processSocket_cases {val val' : NSObject}
    (hp : processSocket os val w = .ok (r, val', w')) :
    ((∀ sock, val = .dictionary sock → socketType sock = .ok none) ∧ r = -eINVAL ∧
      val' = val ∧ w' = { w with calls := w.calls + 1 }) ∨
    ∃ sock type pathname w₁, val = .dictionary sock ∧ socketType sock = .ok (some type) ∧
      socketPathname (os w.calls) sock { w with calls := w.calls + 1 } = .ok (pathname, w₁) ∧
      ((pathname = none ∧ r = 0 ∧ val' = val ∧ w' = w₁) ∨
        ∃ name, pathname = some name ∧ r = (openSocket (os w.calls) type name sock w₁).1 ∧
          val' = .dictionary (openSocket (os w.calls) type name sock w₁).2.1 ∧
          w' = (openSocket (os w.calls) type name sock w₁).2.2) := by
  unfold processSocket at hp
  dsimp only at hp
  split at hp
  · rename_i sock
    obtain ⟨type, htype, hp⟩ := bind_eq_ok.mp hp
    cases type with
    | none =>
      cases hp
      refine .inl ⟨fun sock' hsock => ?_, rfl, rfl, rfl⟩
      cases hsock
      exact htype
    | some type =>
      obtain ⟨⟨pathname, w₁⟩, hpath, hp⟩ := bind_eq_ok.mp hp
      refine .inr ⟨sock, type, pathname, w₁, rfl, htype, hpath, ?_⟩
      cases pathname with
      | none =>
        cases hp
        exact .inl ⟨rfl, rfl, rfl, rfl⟩
      | some name =>
        cases hp
        exact .inr ⟨name, rfl, rfl, rfl, rfl⟩
  · rename_i hnot
    cases hp
    exact .inl ⟨fun sock hsock => absurd hsock (hnot sock), rfl, rfl, rfl⟩

theorem processSocket_ok {val val' : NSObject} (hp : processSocket os val w = .ok (r, val', w')) :
    r ≤ 0 ∧ (0 ≤ r ↔ SocketPasses (os w.calls) val) ∧ w.Advances 1 w' := by
  have hcount : w.Advances 1 { w with calls := w.calls + 1 } :=
    ⟨rfl, rfl, rfl, fun _ _ => rfl⟩
  rcases processSocket_cases hp with ⟨hunknown, rfl, -, rfl⟩ | ⟨sock, type, pathname, w₁, rfl, htype,
    hpath, hopen⟩
  · refine ⟨by decide, ⟨fun hle => absurd hle (by decide), ?_⟩, hcount⟩
    rintro ⟨sock, hsock, hknown, -⟩
    exact absurd (hunknown sock hsock) hknown
  · obtain ⟨hadv, hsome⟩ := socketPathname_ok hpath
    have hadv := hcount.trans hadv
    have hknown : socketType sock ≠ .ok none := by simp [htype]
    rcases hopen with ⟨rfl, rfl, -, rfl⟩ | ⟨name, rfl, rfl, -, rfl⟩
    · refine ⟨Int.le_refl 0, ⟨fun _ => ⟨sock, rfl, hknown, fun hhas => ?_⟩, fun _ => Int.le_refl 0⟩, hadv⟩
      exact absurd rfl (hsome.mpr hhas)
    · obtain ⟨hle, hopens, hopen⟩ := openSocket_ok (os w.calls) type name sock w₁
      refine ⟨hle, hopens.trans ⟨fun ho => ⟨sock, rfl, hknown, fun _ => ho⟩, ?_⟩, hadv.trans hopen⟩
      rintro ⟨sock', hsock, -, ho⟩
      cases hsock
      exact ho (hsome.mp (by simp))

/-- The inner enumeration never goes beyond the first element. -/
theorem eachElement_ok {arr arr' : List NSObject} (he : eachElement os r arr w = .ok (r', arr', w')) :
    (0 ≤ r' ↔ LastPasses os w.calls (0 ≤ r) (arr.take 1)) ∧ w.Advances (arr.take 1).length w' := by
  cases arr with
  | nil =>
    cases he
    exact ⟨Iff.rfl, World.Advances.refl w⟩
  | cons v arr =>
    rw [eachElement] at he
    obtain ⟨⟨r₁, v', w₁⟩, hp, he⟩ := bind_eq_ok.mp he
    obtain ⟨hle, hpass, hadv⟩ := processSocket_ok hp
    dsimp only at he
    rw [if_pos hle] at he
    cases he
    exact ⟨hpass, hadv⟩

/-- An array is gone through and the rest follows; a dictionary is the last that is
attempted; other values are passed over. -/
theorem eachSocket_cases {key : NSString} {val : NSObject} {dict dict' : Entries}
    (he : eachSocket os r ((key, val) :: dict) w = .ok (r', dict', w')) :
    (∃ arr r₁ arr' w₁ dict₁, val = .array arr ∧ eachElement os r arr w = .ok (r₁, arr', w₁) ∧
      eachSocket os r₁ dict w₁ = .ok (r', dict₁, w')) ∨
    (∃ sock val', val = .dictionary sock ∧ processSocket os val w = .ok (r', val', w')) ∨
    (attempts ((key, val) :: dict) = attempts dict ∧
      ∃ dict₁, eachSocket os r dict w = .ok (r', dict₁, w')) := by
  have hrest : ∀ {r' dict' w'}, (eachSocket os r dict w >>= fun q =>
      .ok (q.1, (key, val) :: q.2.1, q.2.2)) = .ok (r', dict', w') →
      ∃ dict₁, eachSocket os r dict w = .ok (r', dict₁, w') := by
    intro r' dict' w' he
    obtain ⟨⟨r₁, dict₁, w₁⟩, hloop, he⟩ := bind_eq_ok.mp he
    cases he
    exact ⟨dict₁, hloop⟩
  cases val with
  | array arr =>
    rw [eachSocket] at he
    obtain ⟨⟨r₁, arr', w₁⟩, helem, he⟩ := bind_eq_ok.mp he
    obtain ⟨⟨r₂, dict₁, w₂⟩, hloop, he⟩ := bind_eq_ok.mp he
    cases he
    exact .inl ⟨arr, r₁, arr', w₁, dict₁, rfl, helem, hloop⟩
  | dictionary sock =>
    rw [eachSocket] at he
    obtain ⟨⟨r₁, val', w₁⟩, hp, he⟩ := bind_eq_ok.mp he
    obtain ⟨hle, -, -⟩ := processSocket_ok hp
    dsimp only at he
    rw [if_pos hle] at he
    cases he
    exact .inr (.inl ⟨sock, val', rfl, hp⟩)
  | string _ => exact .inr (.inr ⟨rfl, hrest he⟩)
  | data _ => exact .inr (.inr ⟨rfl, hrest he⟩)
  | fileHandle _ => exact .inr (.inr ⟨rfl, hrest he⟩)
  | number _ => exact .inr (.inr ⟨rfl, hrest he⟩)
  | date => exact .inr (.inr ⟨rfl, hrest he⟩)

theorem eachSocket_ok {dict dict' : Entries} (he : eachSocket os r dict w = .ok (r', dict', w')) :
    (0 ≤ r' ↔ LastPasses os w.calls (0 ≤ r) (attempts dict)) ∧
      w.Advances (attempts dict).length w' := by
  induction dict generalizing r r' w w' dict' with
  | nil =>
    cases he
    exact ⟨Iff.rfl, World.Advances.refl w⟩
  | cons e dict ih =>
    obtain ⟨key, val⟩ := e
    rcases eachSocket_cases he with ⟨arr, r₁, arr', w₁, dict₁, rfl, helem, hloop⟩ |
      ⟨sock, val', rfl, hp⟩ | ⟨hattempts, dict₁, hloop⟩
    · obtain ⟨hpass, hadv⟩ := eachElement_ok helem
      obtain ⟨hpasses, hadvs⟩ := ih hloop
      rw [attempts, List.length_append]
      refine ⟨?_, hadv.trans hadvs⟩
      rw [hpasses, hpass, hadv.calls]
      cases arr with
      | nil => rfl
      | cons v arr => rfl
    · obtain ⟨-, hpass, hadv⟩ := processSocket_ok hp
      exact ⟨hpass, hadv⟩
    · rw [hattempts]
      exact ih hloop

/-- The entries that `cb_sockets` gets to in the value of a key. -/
def socketsIn : NSObject → List NSObject
  | .dictionary dict => attempts dict
  | _ => []

theorem cbSockets_ok {key : CString} {val val' : NSObject}
    (hc : cbSockets os key val w = .ok (r, val', w')) :
    (0 ≤ r ↔ LastPasses os w.calls True (socketsIn val)) ∧
      w.Advances (socketsIn val).length w' := by
  cases val with
  | dictionary dict =>
    rw [cbSockets] at hc
    obtain ⟨⟨r₁, dict', w₁⟩, hloop, hc⟩ := bind_eq_ok.mp hc
    cases hc
    simpa [socketsIn] using eachSocket_ok hloop
  | _ => cases hc

/-! ## When an entry ends the program -/

theorem socketPathname_publishes {sock : Entries} {pathname : Option NSString}
    (hp : socketPathname out sock w = .ok (pathname, w')) : ¬ PathEnds w.plist sock ∧
      Publishes (∃ pathname, sock.lookup secureSocketKey = some (.string pathname)) w.plist w'.plist := by
  unfold socketPathname at hp
  unfold PathEnds
  cases hsecure : sock.lookup secureSocketKey with
  | none =>
    rw [hsecure] at hp
    have hnone : ¬ ∃ pathname, (none : Option NSObject) = some (.string pathname) := by simp
    dsimp only at hp ⊢
    split at hp
    · rename_i hpath
      cases hp
      exact ⟨by simp [hpath], .same hnone _⟩
    · rename_i hpath
      cases hp
      exact ⟨by simp [hpath], .same hnone _⟩
    · cases hp
  | some v =>
    rw [hsecure] at hp
    cases v with
    | string pathname =>
      obtain ⟨plist, hpub, hp⟩ := bind_eq_ok.mp hp
      cases hp
      rcases publish_cases w.plist pathname
        (secureSocketPath ((NSString.literal "/tmp/xpcd.").utf8 ++ out.suffix) pathname) with
        ⟨-, herror⟩ | ⟨hplaced, userenv, hok⟩
      · rw [herror] at hpub
        cases hpub
      · obtain rfl := Except.ok.inj (hpub.symm.trans hok)
        exact ⟨hplaced, publishes_upsert hplaced ⟨pathname, rfl⟩ userenv⟩
    | _ => cases hp

theorem socketPathname_isOk {sock : Entries} (hends : ¬ PathEnds w.plist sock) :
    ∃ x, socketPathname out sock w = .ok x := by
  unfold PathEnds at hends
  unfold socketPathname
  cases hsecure : sock.lookup secureSocketKey with
  | none =>
    rw [hsecure] at hends
    dsimp only at hends ⊢
    split
    · exact ⟨_, rfl⟩
    · exact ⟨_, rfl⟩
    · rename_i v hne hpath
      exact absurd ⟨v, hpath, hne⟩ hends
  | some v =>
    rw [hsecure] at hends
    cases v with
    | string pathname =>
      rcases publish_cases w.plist pathname
        (secureSocketPath ((NSString.literal "/tmp/xpcd.").utf8 ++ out.suffix) pathname) with
        ⟨hmisplaced, -⟩ | ⟨-, userenv, hok⟩
      · exact absurd hmisplaced hends
      · dsimp only
        rw [hok]
        exact ⟨_, rfl⟩
    | _ => exact absurd trivial hends

theorem openSocket_plist (out : SocketOutcome) (type : SocketType) (pathname : NSString)
    (sock : Entries) (w : World) : (openSocket out type pathname sock w).2.2.plist = w.plist := by
  unfold openSocket
  split
  · rfl
  · dsimp only
    split
    · rfl
    · split_ifs <;> rfl

theorem processSocket_publishes {val val' : NSObject}
    (hp : processSocket os val w = .ok (r, val', w')) :
    ¬ SocketEnds w.plist val ∧ Publishes (SocketPublishes val) w.plist w'.plist := by
  rcases processSocket_cases hp with ⟨hunknown, -, -, rfl⟩ | ⟨sock, type, pathname, w₁, rfl, htype,
    hpath, hopen⟩
  · constructor
    · rintro ⟨sock, hsock, hends⟩
      simp [hunknown sock hsock, KnownType] at hends
    · refine .same ?_ _
      rintro ⟨sock, pathname, hsock, ⟨type, htype⟩, -⟩
      simp [hunknown sock hsock] at htype
  · obtain ⟨hends, hpub⟩ := socketPathname_publishes hpath
    have hplist : w'.plist = w₁.plist := by
      rcases hopen with ⟨-, -, -, rfl⟩ | ⟨name, -, -, -, rfl⟩
      · rfl
      · exact openSocket_plist _ _ _ _ _
    constructor
    · rintro ⟨sock', hsock, hends'⟩
      cases hsock
      simp [htype, hends] at hends'
    · rw [hplist]
      refine Publishes.congr hpub ⟨?_, ?_⟩
      · rintro ⟨pathname, hsecure⟩
        exact ⟨sock, pathname, rfl, ⟨type, htype⟩, hsecure⟩
      · rintro ⟨sock', pathname, hsock, -, hsecure⟩
        cases hsock
        exact ⟨pathname, hsecure⟩

theorem processSocket_isOk {val : NSObject} (hends : ¬ SocketEnds w.plist val) :
    ∃ x, processSocket os val w = .ok x := by
  unfold processSocket
  cases val with
  | dictionary sock =>
    cases htype : socketType sock with
    | error stop =>
      have hstop : stop = .unrecognizedSelector := by
        unfold socketType at htype
        split at htype
        · cases htype
        · split_ifs at htype
        · cases htype
          rfl
      exact absurd ⟨sock, rfl, .inl (hstop ▸ htype)⟩ hends
    | ok type =>
      cases type with
      | none =>
        simp only [htype, ok_bind]
        exact ⟨_, rfl⟩
      | some type =>
        have hpath : ¬ PathEnds w.plist sock :=
          fun hpath => hends ⟨sock, rfl, .inr ⟨⟨type, htype⟩, hpath⟩⟩
        obtain ⟨⟨pathname, w₁⟩, hok⟩ :=
          @socketPathname_isOk (os w.calls) { w with calls := w.calls + 1 } sock hpath
        simp only [htype, ok_bind, hok]
        cases pathname with
        | none => exact ⟨_, rfl⟩
        | some name => exact ⟨_, rfl⟩
  | _ => exact ⟨_, rfl⟩

/-- Whether an entry ends the program depends on the property list only so far. -/
theorem SocketEnds.congr {plist plist' : Entries} {val : NSObject}
    (h : EnvironmentMisplaced plist' ↔ EnvironmentMisplaced plist) :
    SocketEnds plist' val ↔ SocketEnds plist val := by
  simp only [SocketEnds, PathEnds, h]

theorem eachElement_publishes {arr arr' : List NSObject}
    (he : eachElement os r arr w = .ok (r', arr', w')) :
    (∀ v ∈ arr.take 1, ¬ SocketEnds w.plist v) ∧
      Publishes (∃ v ∈ arr.take 1, SocketPublishes v) w.plist w'.plist := by
  cases arr with
  | nil =>
    cases he
    exact ⟨by simp, .same (by simp) _⟩
  | cons v arr =>
    rw [eachElement] at he
    obtain ⟨⟨r₁, v', w₁⟩, hp, he⟩ := bind_eq_ok.mp he
    obtain ⟨hle, -, -⟩ := processSocket_ok hp
    obtain ⟨hends, hpub⟩ := processSocket_publishes hp
    dsimp only at he
    rw [if_pos hle] at he
    cases he
    exact ⟨by simpa using hends, by simpa using hpub⟩

theorem eachElement_isOk {arr : List NSObject} (hends : ∀ v ∈ arr.take 1, ¬ SocketEnds w.plist v) :
    ∃ x, eachElement os r arr w = .ok x := by
  cases arr with
  | nil => exact ⟨_, rfl⟩
  | cons v arr =>
    obtain ⟨⟨r₁, v', w₁⟩, hp⟩ := @processSocket_isOk os w v (hends v (by simp))
    obtain ⟨hle, -, -⟩ := processSocket_ok hp
    rw [eachElement, hp, ok_bind]
    exact ⟨_, if_pos hle⟩

theorem eachSocket_publishes {dict dict' : Entries}
    (he : eachSocket os r dict w = .ok (r', dict', w')) :
    (∀ v ∈ attempts dict, ¬ SocketEnds w.plist v) ∧
      Publishes (∃ v ∈ attempts dict, SocketPublishes v) w.plist w'.plist := by
  induction dict generalizing r r' w w' dict' with
  | nil =>
    cases he
    exact ⟨by simp [attempts], .same (by simp [attempts]) _⟩
  | cons e dict ih =>
    obtain ⟨key, val⟩ := e
    rcases eachSocket_cases he with ⟨arr, r₁, arr', w₁, dict₁, rfl, helem, hloop⟩ |
      ⟨sock, val', rfl, hp⟩ | ⟨hattempts, dict₁, hloop⟩
    · obtain ⟨hends, hpub⟩ := eachElement_publishes helem
      obtain ⟨hends', hpub'⟩ := ih hloop
      simp only [attempts, List.mem_append, or_imp, forall_and, or_and_right, exists_or]
      refine ⟨⟨hends, fun v hv => ?_⟩, hpub.trans hpub'⟩
      rw [← SocketEnds.congr hpub.misplaced]
      exact hends' v hv
    · obtain ⟨hends, hpub⟩ := processSocket_publishes hp
      exact ⟨by simpa [attempts] using hends, by simpa [attempts] using hpub⟩
    · rw [hattempts]
      exact ih hloop

theorem eachSocket_isOk {dict : Entries} (hends : ∀ v ∈ attempts dict, ¬ SocketEnds w.plist v) :
    ∃ x, eachSocket os r dict w = .ok x := by
  induction dict generalizing r w with
  | nil => exact ⟨_, rfl⟩
  | cons e dict ih =>
    obtain ⟨key, val⟩ := e
    have hrest : (∀ v ∈ attempts dict, ¬ SocketEnds w.plist v) →
        ∃ x, (eachSocket os r dict w >>= fun q =>
          Except.ok (q.1, (key, val) :: q.2.1, q.2.2)) = .ok x := by
      intro hends
      obtain ⟨q, hq⟩ := @ih w r hends
      rw [hq]
      exact ⟨_, rfl⟩
    cases val with
    | array arr =>
      simp only [attempts, List.mem_append, or_imp, forall_and] at hends
      obtain ⟨⟨r₁, arr', w₁⟩, helem⟩ := @eachElement_isOk os w r arr hends.1
      obtain ⟨-, hpub⟩ := eachElement_publishes helem
      have hends₁ : ∀ v ∈ attempts dict, ¬ SocketEnds w₁.plist v := by
        intro v hv
        rw [SocketEnds.congr hpub.misplaced]
        exact hends.2 v hv
      obtain ⟨⟨r₂, dict₁, w₂⟩, hloop⟩ := @ih w₁ r₁ hends₁
      rw [eachSocket, helem, ok_bind]
      dsimp only
      rw [hloop]
      exact ⟨_, rfl⟩
    | dictionary sock =>
      have hends₁ := hends (.dictionary sock) (by simp [attempts])
      obtain ⟨⟨r₁, v', w₁⟩, hp⟩ := @processSocket_isOk os w _ hends₁
      obtain ⟨hle, -, -⟩ := processSocket_ok hp
      rw [eachSocket, hp, ok_bind]
      exact ⟨_, if_pos hle⟩
    | string _ => exact hrest hends
    | data _ => exact hrest hends
    | fileHandle _ => exact hrest hends
    | number _ => exact hrest hends
    | date => exact hrest hends

theorem cbSockets_publishes {key : CString} {val val' : NSObject}
    (hc : cbSockets os key val w = .ok (r, val', w')) :
    (∀ v ∈ socketsIn val, ¬ SocketEnds w.plist v) ∧
      Publishes (∃ v ∈ socketsIn val, SocketPublishes v) w.plist w'.plist := by
  cases val with
  | dictionary dict =>
    rw [cbSockets] at hc
    obtain ⟨⟨r₁, dict', w₁⟩, hloop, hc⟩ := bind_eq_ok.mp hc
    cases hc
    exact eachSocket_publishes hloop
  | _ => cases hc

theorem cbSockets_isOk {key : CString} {dict : Entries}
    (hends : ∀ v ∈ attempts dict, ¬ SocketEnds w.plist v) :
    ∃ x, cbSockets os key (.dictionary dict) w = .ok x := by
  obtain ⟨q, hq⟩ := @eachSocket_isOk os w 0 dict hends
  rw [cbSockets, hq]
  exact ⟨_, rfl⟩

end Specifications
end OpenXPC
