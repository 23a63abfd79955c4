import OpenXPC.Validation

/-! # What a failed `process_socket` leaves behind

The descriptor is closed again where the file cannot be removed. The directory of a
secure socket and its path in the environment come before, and nothing undoes them. -/
namespace OpenXPC
open InsertionMap

/-- Where the call fails, the entry, the property list, the descriptors and the
directories are as before. -/
def RollsBack (os : ℕ → SocketOutcome) (val : NSObject) (w : World) : Prop :=
  ∀ r val' w', processSocket os val w = .ok (r, val', w') → r < 0 →
    val' = val ∧ w'.plist = w.plist ∧ w'.descriptors = w.descriptors ∧ w'.dirs = w.dirs

/-- The path that is generated for a secure socket. -/
def generatedPath (out : SocketOutcome) (key : NSString) : List UInt8 :=
  secureSocketPath ((NSString.literal "/tmp/xpcd.").utf8 ++ out.suffix) key

/-- The environment of the job has the path under the key. -/
def Published (plist : Entries) (key : NSString) (path : List UInt8) : Prop :=
  ∃ userenv, plist.lookup userEnvironmentKey = some (.dictionary userenv) ∧
    userenv.lookup key = some (.string ⟨path⟩)

/-- The socket of a secure entry is not opened, after a directory has been made or the
environment has changed. -/
def FailsAfterPublishing (out : SocketOutcome) (val : NSObject) (plist : Entries) : Prop :=
  ∃ sock key, val = .dictionary sock ∧ KnownType sock ∧
    sock.lookup secureSocketKey = some (.string key) ∧ ¬ EnvironmentMisplaced plist ∧
    ¬ out.Opens ∧ (out.mkdtemp = true ∨ ¬ Published plist key (generatedPath out key))

section Failures

variable {os : ℕ → SocketOutcome} {out : SocketOutcome} {w w' : World} {r : ℤ}
  {plist plist' sock : Entries} {key : NSString} {path : List UInt8}

/-- A failure to open the socket leaves no trace of its own. -/
theorem openSocket_fails {type : SocketType} {pathname : NSString}
    (hr : (openSocket out type pathname sock w).1 < 0) :
    (openSocket out type pathname sock w).2 = (sock, w) := by
  cases hsocket : out.socket with
  | error errno => simp only [openSocket, hsocket]
  | ok fd =>
    cases hunlink : out.unlink with
    | ok u => simp [openSocket, hsocket, hunlink] at hr
    | error errno =>
      simp only [openSocket, hsocket, hunlink] at hr ⊢
      split_ifs at hr ⊢
      · exact absurd hr (Int.lt_irrefl 0)
      · rfl

theorem publish_published (hp : publish plist key path = .ok plist') : Published plist' key path := by
  unfold publish at hp
  split at hp
  · cases hp
    exact ⟨_, by rw [lookup_upsert, if_pos rfl], by simp⟩
  · cases hp
    exact ⟨_, by rw [lookup_upsert, if_pos rfl], by rw [lookup_upsert, if_pos rfl]⟩
  · cases hp

theorem publish_eq_self_iff (hp : publish plist key path = .ok plist') :
    plist' = plist ↔ Published plist key path := by
  constructor
  · rintro rfl
    exact publish_published hp
  · rintro ⟨userenv, henv, hpath⟩
    simp only [publish, henv, Except.ok.injEq] at hp
    rw [upsert_of_lookup hpath, upsert_of_lookup henv] at hp
    exact hp.symm

/-- A secure socket is published first, in a directory of its own if one is made. -/
theorem socketPathname_secure {pathname : Option NSString}
    (hsecure : sock.lookup secureSocketKey = some (.string key))
    (hp : socketPathname out sock w = .ok (pathname, w')) :
    pathname = some key ∧ publish w.plist key (generatedPath out key) = .ok w'.plist ∧
      w'.descriptors = w.descriptors ∧ (w'.dirs = w.dirs ↔ out.mkdtemp = false) := by
  simp only [socketPathname, hsecure] at hp
  obtain ⟨plist, hpub, hp⟩ := bind_eq_ok.mp hp
  cases hp
  refine ⟨rfl, hpub, rfl, ?_⟩
  cases out.mkdtemp <;> simp

/-- Without a key for a secure socket nothing changes. -/
theorem socketPathname_insecure {pathname : Option NSString}
    (hsecure : ∀ key, sock.lookup secureSocketKey ≠ some (.string key))
    (hp : socketPathname out sock w = .ok (pathname, w')) : w' = w := by
  unfold socketPathname at hp
  split at hp
  · rename_i key hkey
    exact absurd hkey (hsecure key)
  · cases hp
  · split at hp
    · cases hp
      rfl
    · cases hp
      rfl
    · cases hp

/-- A call that fails has rejected the entry, or has not got beyond the path. -/
theorem processSocket_failed {val val' : NSObject}
    (hrun : processSocket os val w = .ok (r, val', w')) (hneg : r < 0) :
    val' = val ∧ (((∀ sock, val = .dictionary sock → socketType sock = .ok none) ∧
        w' = { w with calls := w.calls + 1 }) ∨
      ∃ sock type pathname, val = .dictionary sock ∧ socketType sock = .ok (some type) ∧
        ¬ (os w.calls).Opens ∧
        socketPathname (os w.calls) sock { w with calls := w.calls + 1 } = .ok (pathname, w')) := by
  rcases processSocket_cases hrun with ⟨hunknown, -, hval, hw'⟩ | ⟨sock, type, pathname, w₁, rfl, htype,
    hpath, hopen⟩
  · exact ⟨hval, .inl ⟨hunknown, hw'⟩⟩
  · rcases hopen with ⟨-, hr, -⟩ | ⟨name, -, hr, hval, hw'⟩
    · exact absurd hneg (by simp [hr])
    · rw [openSocket_fails (hr ▸ hneg)] at hval hw'
      subst hw'
      have hopens : ¬ (os w.calls).Opens := by
        rw [← (openSocket_ok (os w.calls) type name sock w').2.1, ← hr]
        exact Int.not_le.mpr hneg
      exact ⟨hval, .inr ⟨sock, type, pathname, rfl, htype, hopens, hpath⟩⟩

/-- A secure socket that cannot be opened is processed, and the call fails. -/
theorem exists_failed {sock : Entries} (hknown : KnownType sock)
    (hsecure : sock.lookup secureSocketKey = some (.string key))
    (hplaced : ¬ EnvironmentMisplaced w.plist) (hopens : ¬ (os w.calls).Opens) :
    ∃ r val' w', processSocket os (.dictionary sock) w = .ok (r, val', w') ∧ r < 0 := by
  have hends : ¬ SocketEnds w.plist (.dictionary sock) := by
    rintro ⟨sock', hsock, hends⟩
    cases hsock
    rcases hends with hbad | ⟨-, hpath⟩
    · obtain ⟨type, htype⟩ := hknown
      rw [htype] at hbad
      cases hbad
    · simp only [PathEnds, hsecure] at hpath
      exact hplaced hpath
  obtain ⟨⟨r, val', w'⟩, hrun⟩ : ∃ x, processSocket os (.dictionary sock) w = .ok x :=
    processSocket_isOk hends
  refine ⟨r, val', w', hrun, ?_⟩
  by_contra hnot
  obtain ⟨sock', hsock, -, ho⟩ := (processSocket_ok hrun).2.1.mp (Int.not_lt.mp hnot)
  cases hsock
  exact hopens (ho (.inl (by simp [hsecure])))

/-- A call that fails undoes what it did, unless it is for a secure socket that it could
not open after all. -/
theorem rollsBack_iff (os : ℕ → SocketOutcome) (val : NSObject) (w : World) :
    RollsBack os val w ↔ ¬ FailsAfterPublishing (os w.calls) val w.plist := by
  constructor
  · rintro hback ⟨sock, key, rfl, hknown, hsecure, hplaced, hopens, heffect⟩
    obtain ⟨r, val', w', hrun, hneg⟩ := exists_failed hknown hsecure hplaced hopens
    obtain ⟨-, hplist, -, hdirs⟩ := hback r val' w' hrun hneg
    obtain ⟨-, hfailed⟩ := processSocket_failed hrun hneg
    rcases hfailed with ⟨hunknown, -⟩ | ⟨sock', type, pathname, hsock, htype, -, hpath⟩
    · obtain ⟨type, htype⟩ := hknown
      rw [hunknown sock rfl] at htype
      cases htype
    · cases hsock
      obtain ⟨-, hpub, -, hmade⟩ := socketPathname_secure hsecure hpath
      rcases heffect with hmkdtemp | hnew
      · exact absurd (hmade.mp hdirs) (by simp [hmkdtemp])
      · exact hnew ((publish_eq_self_iff hpub).mp hplist)
  · intro hnot r val' w' hrun hneg
    obtain ⟨hval, hfailed⟩ := processSocket_failed hrun hneg
    refine ⟨hval, ?_⟩
    rcases hfailed with ⟨-, rfl⟩ | ⟨sock, type, pathname, rfl, htype, hopens, hpath⟩
    · exact ⟨rfl, rfl, rfl⟩
    · by_cases hsecure : ∃ key, sock.lookup secureSocketKey = some (.string key)
      · obtain ⟨key, hsecure⟩ := hsecure
        obtain ⟨-, hpub, hdescriptors, hmade⟩ := socketPathname_secure hsecure hpath
        have hplaced : ¬ EnvironmentMisplaced w.plist := by
          have hends := (socketPathname_publishes hpath).1
          simpa [PathEnds, hsecure] using hends
        have hnone : ¬ ((os w.calls).mkdtemp = true ∨
            ¬ Published w.plist key (generatedPath (os w.calls) key)) := fun heffect =>
          hnot ⟨sock, key, rfl, ⟨type, htype⟩, hsecure, hplaced, hopens, heffect⟩
        push Not at hnone
        exact ⟨(publish_eq_self_iff hpub).mpr hnone.2, hdescriptors, hmade.mpr (by simpa using hnone.1)⟩
      · push Not at hsecure
        rw [socketPathname_insecure hsecure hpath]
        exact ⟨rfl, rfl, rfl⟩

end Failures

/-- `mkdtemp` succeeds, and there are no sockets. -/
def noSockets : SocketOutcome :=
  { allSucceed.sockets 0 with socket := .error 24, socket_pos := by simp }

/-- A secure socket under the key `K`. -/
def secureSocket : NSObject := .dictionary [(secureSocketKey, .string (.literal "K"))]

/-- The directory and the environment remain. -/
theorem failed_secure_socket_remains :
    (∃ val' w', processSocket (fun _ => noSockets) secureSocket emptyWorld = .ok (-24, val', w') ∧
      w'.dirs = [(NSString.literal "/tmp/xpcd.abcdef").utf8] ∧
      Published w'.plist (.literal "K") (NSString.literal "/tmp/xpcd.abcdef/K").utf8) ∧
    ¬ RollsBack (fun _ => noSockets) secureSocket emptyWorld := by
  refine ⟨⟨_, _, rfl, rfl, _, rfl, rfl⟩, fun hback => ?_⟩
  have hplist := (hback _ _ _ rfl (by decide)).2.1
  cases hplist

end OpenXPC
