import OpenXPC.SocketFailures

/-! # The path of a socket

The variable that holds the name of a secure socket's key is not assigned the path
generated for it, and the copy into `sun_path` is terminated only if it is short. -/
namespace OpenXPC
open InsertionMap

/-- The path configured for a socket: the one published under its key, or the one given. -/
def Configured (sock plist : Entries) (path : List UInt8) : Prop :=
  match sock.lookup secureSocketKey with
  | some (.string key) => Published plist key path
  | _ => sock.lookup sockPathKey = some (.string ⟨path⟩)

/-- The path is in the buffer, with a terminator after it. -/
def Terminated (buf path : List UInt8) : Prop := 0 ∈ buf ∧ buf.takeWhile (· ≠ 0) = path

/-- The `sun_path` that the call passes to `unlink`, if it gets there. -/
def unlinkedPath (os : ℕ → SocketOutcome) (sock : Entries) (w : World) : Option (List UInt8) :=
  match socketPathname (os w.calls) sock { w with calls := w.calls + 1 } with
  | .ok (some pathname, w) => some (sunPath w.sunPathSize pathname)
  | _ => none

/-- If the entry is accepted, then the path removed is the one configured for it. -/
def RemovesConfigured (os : ℕ → SocketOutcome) (sock : Entries) (w : World) : Prop :=
  ∀ r val' w', processSocket os (.dictionary sock) w = .ok (r, val', w') → 0 ≤ r →
    ∀ buf, unlinkedPath os sock w = some buf →
      ∃ path, Configured sock w'.plist path ∧ Terminated buf path

section Paths

variable {os : ℕ → SocketOutcome} {out : SocketOutcome} {w w' : World} {r : ℤ}
  {sock : Entries} {key pathname : NSString} {path : List UInt8} {size : ℕ}

theorem sunPath_takeWhile (size : ℕ) (pathname : NSString) :
    (sunPath size pathname).takeWhile (· ≠ 0) = pathname.utf8String.bytes.take size := by
  have hno : ∀ b ∈ pathname.utf8String.bytes.take size, decide (b ≠ 0) = true := by
    intro b hb
    rw [decide_eq_true_eq]
    rintro rfl
    exact pathname.utf8String.noNul (List.mem_of_mem_take hb)
  rw [sunPath, List.takeWhile_append_of_pos hno]
  simp

theorem zero_mem_sunPath :
    0 ∈ sunPath size pathname ↔ pathname.utf8String.bytes.length < size := by
  have hno : (0 : UInt8) ∉ pathname.utf8String.bytes.take size :=
    fun h => pathname.utf8String.noNul (List.mem_of_mem_take h)
  simp only [sunPath, List.mem_append, hno, List.mem_replicate, List.length_take, and_true, false_or]
  omega

/-- Only a short name is terminated, and the name is that of the C string. -/
theorem terminated_sunPath : Terminated (sunPath size pathname) path ↔
    pathname.utf8String.bytes.length < size ∧ path = pathname.utf8String.bytes := by
  rw [Terminated, zero_mem_sunPath, sunPath_takeWhile]
  refine and_congr_right (fun hshort => ?_)
  rw [List.take_of_length_le (Nat.le_of_lt hshort), eq_comm]

/-- The generated path is longer than what `sun_path` gets of the key. -/
theorem generatedPath_ne (out : SocketOutcome) (key : NSString)
    (hshort : key.utf8String.bytes.length < 253) : generatedPath out key ≠ key.utf8String.bytes := by
  intro heq
  have hlen := congrArg List.length heq
  simp only [generatedPath, secureSocketPath, List.length_take, List.length_append,
    List.length_cons, out.suffix_length] at hlen
  omega

theorem utf8String_bytes_eq_iff (s : NSString) : s.utf8String.bytes = s.utf8 ↔ 0 ∉ s.utf8 := by
  rw [NSString.utf8String, List.takeWhile_eq_self_iff]
  constructor
  · intro h hmem
    simpa using h 0 hmem
  · intro h b hb
    rw [decide_eq_true_eq]
    rintro rfl
    exact h hb

theorem unlinkedPath_eq_some {buf : List UInt8} (hbuf : unlinkedPath os sock w = some buf) :
    ∃ name w₁, socketPathname (os w.calls) sock { w with calls := w.calls + 1 } = .ok (some name, w₁) ∧
      buf = sunPath w.sunPathSize name := by
  unfold unlinkedPath at hbuf
  split at hbuf
  · rename_i name w₁ hpath
    have hsize : w₁.sunPathSize = w.sunPathSize := (socketPathname_ok hpath).1.sunPathSize
    exact ⟨name, w₁, hpath, hsize ▸ (Option.some.inj hbuf).symm⟩
  · cases hbuf

/-- An entry that is accepted is of a known type, and its path is the one opened. -/
theorem processSocket_accepted {val' : NSObject}
    (hp : processSocket os (.dictionary sock) w = .ok (r, val', w')) (hr : 0 ≤ r)
    {name : NSString} {w₁ : World}
    (hpath : socketPathname (os w.calls) sock { w with calls := w.calls + 1 } = .ok (some name, w₁)) :
    ∃ type, socketType sock = .ok (some type) ∧
      w' = (openSocket (os w.calls) type name sock w₁).2.2 := by
  rcases processSocket_cases hp with ⟨-, rfl, -⟩ | ⟨sock', type, pathname, w₂, hsock, htype, hpath',
    hopen⟩
  · exact absurd hr (by decide)
  · cases hsock
    obtain ⟨rfl, rfl⟩ := Prod.mk.inj (Except.ok.inj (hpath.symm.trans hpath'))
    rcases hopen with ⟨hnone, -⟩ | ⟨name', hname, -, -, hw'⟩
    · cases hnone
    · cases hname
      exact ⟨type, htype, hw'⟩

/-- Where a file is there, it is the one of `sun_path` that is removed. -/
theorem processSocket_removed {val' : NSObject} {buf : List UInt8}
    (hp : processSocket os (.dictionary sock) w = .ok (r, val', w')) (hr : 0 ≤ r)
    (hbuf : unlinkedPath os sock w = some buf) (hunlink : (os w.calls).unlink = .ok ()) :
    ∃ removed, w'.removed = buf :: removed := by
  obtain ⟨name, w₁, hpath, rfl⟩ := unlinkedPath_eq_some hbuf
  obtain ⟨type, htype, rfl⟩ := processSocket_accepted hp hr hpath
  obtain ⟨sock', hsock, -, hopens⟩ := (processSocket_ok hp).2.1.mp hr
  cases hsock
  obtain ⟨⟨fd, hsocket⟩, -⟩ := hopens ((socketPathname_ok hpath).2.mp (by simp))
  have hsize : w₁.sunPathSize = w.sunPathSize := (socketPathname_ok hpath).1.sunPathSize
  exact ⟨w₁.removed, by simp only [openSocket, hsocket, hunlink, hsize]⟩

theorem published_unique {plist : Entries} {path' : List UInt8} (h : Published plist key path)
    (h' : Published plist key path') : path = path' := by
  obtain ⟨userenv, henv, hpath⟩ := h
  obtain ⟨userenv', henv', hpath'⟩ := h'
  rw [henv] at henv'
  cases henv'
  rw [hpath] at hpath'
  cases hpath'
  rfl

/-- Of a secure socket, the name of the key is in `sun_path`, and never its path. -/
theorem not_removesConfigured_of_secure {val' : NSObject}
    (hsecure : sock.lookup secureSocketKey = some (.string key))
    (hp : processSocket os (.dictionary sock) w = .ok (r, val', w')) (hr : 0 ≤ r)
    {w₁ : World} {name : Option NSString}
    (hpath : socketPathname (os w.calls) sock { w with calls := w.calls + 1 } = .ok (name, w₁)) :
    ¬ RemovesConfigured os sock w := by
  intro hremoves
  obtain ⟨rfl, hpub, -⟩ := socketPathname_secure hsecure hpath
  have hbuf : unlinkedPath os sock w = some (sunPath w₁.sunPathSize key) := by
    simp only [unlinkedPath, hpath]
  obtain ⟨path, hconf, hterm⟩ := hremoves r val' w' hp hr _ hbuf
  obtain ⟨hshort, rfl⟩ := terminated_sunPath.mp hterm
  obtain ⟨type, -, rfl⟩ := processSocket_accepted hp hr hpath
  simp only [Configured, hsecure, openSocket_plist] at hconf
  have hpublished := published_unique (publish_published hpub) hconf
  exact generatedPath_ne (os w.calls) key (Nat.lt_of_lt_of_le hshort w₁.sunPathSize_le) hpublished

/-- A path that is given is removed if it fits. -/
theorem removesConfigured_of_insecure {val' : NSObject}
    (hsecure : sock.lookup secureSocketKey = none)
    (hp : processSocket os (.dictionary sock) w = .ok (r, val', w')) (hr : 0 ≤ r) :
    RemovesConfigured os sock w ↔ ∀ s, sock.lookup sockPathKey = some (.string s) →
      s.utf8.length < w.sunPathSize ∧ 0 ∉ s.utf8 := by
  have hbuf : ∀ buf, unlinkedPath os sock w = some buf ↔
      ∃ s, sock.lookup sockPathKey = some (.string s) ∧ buf = sunPath w.sunPathSize s := by
    intro buf
    simp only [unlinkedPath, socketPathname, hsecure]
    cases hpath : sock.lookup sockPathKey with
    | none => simp
    | some v => cases v <;> simp [eq_comm]
  have hconf : ∀ s plist path, sock.lookup sockPathKey = some (.string s) →
      ((Configured sock plist path ∧ Terminated (sunPath w.sunPathSize s) path) ↔
        path = s.utf8 ∧ s.utf8.length < w.sunPathSize ∧ 0 ∉ s.utf8) := by
    intro s plist path hs
    simp only [Configured, hsecure, hs, terminated_sunPath, Option.some.injEq, NSObject.string.injEq]
    constructor
    · rintro ⟨rfl, hshort, hbytes⟩
      have hno := (utf8String_bytes_eq_iff ⟨path⟩).mp hbytes.symm
      rw [← hbytes] at hshort
      exact ⟨rfl, hshort, hno⟩
    · rintro ⟨rfl, hshort, hno⟩
      have hbytes := (utf8String_bytes_eq_iff s).mpr hno
      rw [hbytes]
      exact ⟨rfl, hshort, rfl⟩
  constructor
  · intro hremoves s hs
    obtain ⟨path, hboth⟩ := hremoves r val' w' hp hr _ ((hbuf _).mpr ⟨s, hs, rfl⟩)
    exact ((hconf s _ path hs).mp hboth).2
  · intro hall r' val'' w'' hp' hr' buf hbuf'
    obtain ⟨s, hs, rfl⟩ := (hbuf buf).mp hbuf'
    exact ⟨s.utf8, (hconf s _ _ hs).mpr ⟨rfl, hall s hs⟩⟩

/-- What `process_socket` removes is what is configured exactly where it rejects the
entry, or the entry is not for a secure socket and its path fits into `sun_path`. -/
theorem removesConfigured_iff (os : ℕ → SocketOutcome) (sock : Entries) (w : World) :
    RemovesConfigured os sock w ↔ SocketEnds w.plist (.dictionary sock) ∨
      ¬ SocketPasses (os w.calls) (.dictionary sock) ∨
      (sock.lookup secureSocketKey = none ∧ ∀ s, sock.lookup sockPathKey = some (.string s) →
        s.utf8.length < w.sunPathSize ∧ 0 ∉ s.utf8) := by
  by_cases hends : SocketEnds w.plist (.dictionary sock)
  · refine iff_of_true (fun r val' w' hp => ?_) (.inl hends)
    exact absurd hends (processSocket_publishes hp).1
  · obtain ⟨⟨r, val', w'⟩, hp⟩ : ∃ x, processSocket os (.dictionary sock) w = .ok x :=
      processSocket_isOk hends
    by_cases hpasses : SocketPasses (os w.calls) (.dictionary sock)
    · have hr := (processSocket_ok hp).2.1.mpr hpasses
      simp only [hends, hpasses, not_true_eq_false, false_or]
      cases hsecure : sock.lookup secureSocketKey with
      | none => simpa using removesConfigured_of_insecure hsecure hp hr
      | some v =>
        refine iff_of_false (fun hremoves => ?_) (fun h => by cases h.1)
        rcases processSocket_cases hp with ⟨-, rfl, -⟩ | ⟨sock', type, name, w₁, hsock, htype, hpath, -⟩
        · exact absurd hr (by decide)
        · cases hsock
          have hstring : ∃ key, v = .string key := by
            have hnot := (socketPathname_publishes hpath).1
            cases v with
            | string key => exact ⟨key, rfl⟩
            | _ => exact absurd (by simp only [PathEnds, hsecure]) hnot
          obtain ⟨key, rfl⟩ := hstring
          exact not_removesConfigured_of_secure hsecure hp hr hpath hremoves
    · refine iff_of_true (fun r₁ val₁ w₁ hp₁ hr₁ => ?_) (.inr (.inl hpasses))
      exact absurd ((processSocket_ok hp₁).2.1.mp hr₁) hpasses

end Paths

/-- The file called like the key is removed in place of the socket published, and a path
that fills `sun_path` is not terminated. -/
theorem key_removed_for_path :
    (∃ val' w', processSocket allSucceed.sockets secureSocket emptyWorld = .ok (0, val', w') ∧
      w'.removed = [sunPath 108 (.literal "K")] ∧
      Published w'.plist (.literal "K") (NSString.literal "/tmp/xpcd.abcdef/K").utf8) ∧
    ¬ RemovesConfigured allSucceed.sockets [(secureSocketKey, .string (.literal "K"))] emptyWorld ∧
    ¬ RemovesConfigured allSucceed.sockets
      [(sockPathKey, .string ⟨List.replicate 108 97⟩)] emptyWorld := by
  obtain ⟨val', w', hrun, hremoved, hpub⟩ : ∃ val' w',
      processSocket allSucceed.sockets secureSocket emptyWorld = .ok (0, val', w') ∧
      w'.removed = [sunPath 108 (.literal "K")] ∧
      Published w'.plist (.literal "K") (NSString.literal "/tmp/xpcd.abcdef/K").utf8 :=
    ⟨_, _, rfl, rfl, _, rfl, rfl⟩
  refine ⟨⟨val', w', hrun, hremoved, hpub⟩, fun hremoves => ?_, fun hremoves => ?_⟩
  · obtain ⟨path, hconf, hterm⟩ := hremoves 0 val' w' hrun (Int.le_refl 0) _ rfl
    obtain ⟨-, rfl⟩ := terminated_sunPath.mp hterm
    exact absurd (published_unique hpub hconf) (by decide)
  · obtain ⟨path, -, hterm⟩ := hremoves _ _ _ rfl (Int.le_refl 0) _ rfl
    have hshort := (terminated_sunPath.mp hterm).1
    simp [NSString.utf8String, emptyWorld] at hshort

end OpenXPC
