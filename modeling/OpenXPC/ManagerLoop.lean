import OpenXPC.JobLaunch
import OpenXPC.Outcomes
import OpenXPC.Responses

/-! # The main loop of the manager

`Manager::main` watches one signal, launches one job and then hands out events until it
is told to stop. It is interleaved with the child of the launch and with the signals that
arrive. A filter of the kqueue holds back what has happened since it was last asked for,
and `kevent` waits until one of them has something. -/
namespace OpenXPC.ManagerLoop
open GuardedRuns Responses

/-- What `kqueue`, and `kevent` and `signal` in `kqueue_signal`, return. -/
structure Calls where
  kqueue : ℤ
  kevent : ℤ
  signalFails : Bool
  errno : ℤ
  launch : JobLaunch.Outcomes
  errno_pos : 0 < errno

inductive Filter
  | signal
  | proc
  deriving DecidableEq

/-- The objects that are handed to the kqueue as `udata`. -/
inductive KEventHandler
  | manager
  | job
  deriving DecidableEq

structure Kevent where
  ident : ℤ
  filter : Filter
  udata : KEventHandler
  deriving DecidableEq

def sigint : ℤ := 2

def sigterm : ℤ := 15

/-- What the manager and the job write to the log. -/
inductive Line
  | noKqueue
  | notWatched
  | received (signo : ℤ)
  | gotEvent (ident : ℤ) (filter : Filter)
  | keventFailed
  | unexpectedTimeout
  | shuttingDown
  deriving DecidableEq

/-- The call that the manager makes next, or how the process has ended. -/
inductive ManagerAt
  | kqueue
  | watchSignal
  | ignoreSignal
  | launch
  | test
  | wait
  | dispatch (kev : List Kevent)
  | returned (result : ℤ)
  | exitFailure
  | aborted
  | killed
  deriving DecidableEq

/-- `watched` says whether the interrupt signal has been added to the kqueue, `interrupts`
how often it has come since, and `childChanged` whether the filter of the child has
something to report. -/
structure State where
  manager : ManagerAt
  launch : JobLaunch.State
  shouldExit : Bool
  watched : Bool
  ignored : Bool
  interrupts : ℕ
  childChanged : Bool
  log : List Line

def initial : State where
  manager := .kqueue
  launch := JobLaunch.initial
  shouldExit := false
  watched := false
  ignored := false
  interrupts := 0
  childChanged := false
  log := []

/-- What the `kevent` of the loop returns; with no events, whether `errno` is `EINTR`. -/
inductive Nev
  | failed
  | none (eintr : Bool)
  | some (kev : List Kevent)

inductive Action
  | step
  | kevent (nev : Nev)
  | child
  | childEvent
  | interrupt
  | terminate

def State.write (s : State) (line : Line) : State := { s with log := s.log ++ [line] }

def KEventHandler.eventCb (handler : KEventHandler) (ident : ℤ) (filter : Filter) (s : State) :
    State :=
  match handler with
  | .manager =>
    if filter = .signal then
      let s := s.write (.received ident)
      if ident = sigint ∨ ident = sigterm then { s with shouldExit := true } else s
    else s
  | .job => s.write (.gotEvent ident filter)

/-- The next call of the manager, where it is not waiting. -/
def managerStep (c : Calls) (s : State) : Except JobLaunch.Undefined State :=
  match s.manager with
  | .kqueue =>
    if c.kqueue = -1 then .ok { s.write .noKqueue with manager := .returned c.errno }
    else .ok { s with manager := .watchSignal }
  | .watchSignal =>
    if c.kevent = -1 then .ok { s.write .notWatched with manager := .exitFailure }
    else .ok { s with manager := .ignoreSignal, watched := true }
  -- the assertion on what `signal` returns
  | .ignoreSignal =>
    if c.signalFails then .ok { s with manager := .aborted }
    else .ok { s with manager := .launch, ignored := true }
  | .launch =>
    match s.launch.parent with
    -- `bootstrap_sys` does not look at the result
    | .returned _ => .ok { s with manager := .test }
    | _ => (JobLaunch.parentStep c.launch s.launch).map (fun launch => { s with launch := launch })
  | .test =>
    if s.shouldExit then .ok { s.write .shuttingDown with manager := .returned 0 }
    else .ok { s with manager := .wait }
  | .dispatch [] => .ok { s with manager := .test }
  | .dispatch (e :: kev) =>
    .ok (e.udata.eventCb e.ident e.filter { s with manager := .dispatch kev })
  | .wait | .returned _ | .exitFailure | .aborted | .killed => .ok s

/-- The filters that have something to report. -/
def State.active (s : State) : List Kevent :=
  (if 0 < s.interrupts then [⟨sigint, .signal, .manager⟩] else []) ++
    (if s.childChanged then (s.launch.watched.map (fun i => ⟨i, .proc, .job⟩)).toList else [])

def exec (c : Calls) (s : State) : Action → Except JobLaunch.Undefined State
  | .step => managerStep c s
  | .kevent .failed => .ok { s.write .keventFailed with manager := .exitFailure }
  | .kevent (.none eintr) =>
    if eintr then .ok { s with manager := .test }
    else .ok { s.write .unexpectedTimeout with manager := .test }
  -- what is reported is taken out of the filters
  | .kevent (.some kev) =>
    .ok { s with manager := .dispatch kev, interrupts := 0, childChanged := false }
  | .child => (JobLaunch.childStep s.launch).map (fun launch => { s with launch := launch })
  | .childEvent => .ok { s with childChanged := s.launch.watched.isSome }
  -- a signal that is not ignored ends the process, whether it is watched or not
  | .interrupt =>
    if s.ignored then .ok { s with interrupts := s.interrupts + s.watched.toNat }
    else .ok { s with manager := .killed }
  | .terminate => .ok { s with manager := .killed }

def ManagerAt.Ended : ManagerAt → Prop
  | .returned _ | .exitFailure | .aborted | .killed => True
  | _ => False

/-- The events come in any order, and there is room for all that can be active. -/
def allowed (s : State) : Action → Prop
  | .step => ¬ s.manager.Ended ∧ s.manager ≠ .wait
  | .kevent .failed | .kevent (.none _) => s.manager = .wait
  | .kevent (.some kev) => s.manager = .wait ∧ kev ≠ [] ∧ kev.Perm s.active
  | .child => JobLaunch.allowed s.launch .child
  | .childEvent => s.launch.child ≠ .absent
  | .interrupt | .terminate => ¬ s.manager.Ended

def machine (c : Calls) : Machine State Action JobLaunch.Undefined := ⟨allowed, exec c⟩

/-! ## What a step of the manager can do -/

/-- The event tells the manager to stop. -/
def Kevent.Stops (e : Kevent) : Prop :=
  e.udata = .manager ∧ e.filter = .signal ∧ (e.ident = sigint ∨ e.ident = sigterm)

instance (e : Kevent) : Decidable e.Stops := by
  unfold Kevent.Stops
  infer_instance

theorem eventCb_eq (e : Kevent) (s : State) : ∃ lines,
    e.udata.eventCb e.ident e.filter s =
      { s with shouldExit := s.shouldExit || decide e.Stops, log := lines } := by
  obtain ⟨ident, filter, handler⟩ := e
  cases handler with
  | manager =>
    by_cases hfilter : filter = .signal
    · refine ⟨s.log ++ [.received ident], ?_⟩
      by_cases hident : ident = sigint ∨ ident = sigterm
      all_goals simp [KEventHandler.eventCb, Kevent.Stops, State.write, hfilter, hident]
    · refine ⟨s.log, ?_⟩
      simp [KEventHandler.eventCb, Kevent.Stops, hfilter]
  | job =>
    refine ⟨s.log ++ [.gotEvent ident filter], ?_⟩
    simp [KEventHandler.eventCb, Kevent.Stops, State.write]

inductive Moves (c : Calls) (s : State) : State → Prop
  | fails {m : ManagerAt} {lines : List Line}
      (hm : s.manager = .kqueue ∨ s.manager = .watchSignal ∨ s.manager = .ignoreSignal)
      (hend : m = .returned c.errno ∨ m = .exitFailure ∨ m = .aborted) :
      Moves c s { s with manager := m, log := lines }
  | created (hm : s.manager = .kqueue) : Moves c s { s with manager := .watchSignal }
  | watched (hm : s.manager = .watchSignal) :
      Moves c s { s with manager := .ignoreSignal, watched := true }
  | ignored (hm : s.manager = .ignoreSignal) :
      Moves c s { s with manager := .launch, ignored := true }
  | launching {l : JobLaunch.State} (hm : s.manager = .launch)
      (ha : JobLaunch.allowed s.launch .parent)
      (he : JobLaunch.parentStep c.launch s.launch = .ok l) : Moves c s { s with launch := l }
  | launched (hm : s.manager = .launch) : Moves c s { s with manager := .test }
  | stops {lines : List Line} (hm : s.manager = .test) (hexit : s.shouldExit = true) :
      Moves c s { s with manager := .returned 0, log := lines }
  | waits (hm : s.manager = .test) (hexit : s.shouldExit = false) :
      Moves c s { s with manager := .wait }
  | dispatched (hm : s.manager = .dispatch []) : Moves c s { s with manager := .test }
  | event {e : Kevent} {kev : List Kevent} {lines : List Line} (hm : s.manager = .dispatch (e :: kev)) :
      Moves c s { s with manager := .dispatch kev, shouldExit := s.shouldExit || decide e.Stops,
                         log := lines }

variable {c : Calls} {s s' : State}

theorem moves_of_managerStep (ha : allowed s .step) (he : managerStep c s = .ok s') :
    Moves c s s' := by
  unfold managerStep at he
  cases hm : s.manager with
  | kqueue =>
    simp only [hm] at he
    split_ifs at he <;> cases he
    · exact .fails (.inl hm) (.inl rfl)
    · exact .created hm
  | watchSignal =>
    simp only [hm] at he
    split_ifs at he <;> cases he
    · exact .fails (.inr (.inl hm)) (.inr (.inl rfl))
    · exact .watched hm
  | ignoreSignal =>
    simp only [hm] at he
    split_ifs at he <;> cases he
    · exact .fails (.inr (.inr hm)) (.inr (.inr rfl))
    · exact .ignored hm
  | launch =>
    simp only [hm] at he
    split at he
    · cases he
      exact .launched hm
    · rename_i hp
      cases hl : JobLaunch.parentStep c.launch s.launch with
      | error e =>
        rw [hl] at he
        cases he
      | ok l =>
        rw [hl] at he
        cases he
        have hmove : Moves c s { s with launch := l } := .launching hm hp hl
        rw [hm] at hmove
        exact hmove
  | test =>
    simp only [hm] at he
    split_ifs at he with hexit <;> cases he
    · exact .stops hm hexit
    · exact .waits hm (Bool.eq_false_iff.mpr hexit)
  | dispatch kev =>
    cases kev with
    | nil =>
      simp only [hm] at he
      cases he
      exact .dispatched hm
    | cons e kev =>
      simp only [hm, Except.ok.injEq] at he
      obtain ⟨lines, heq⟩ := eventCb_eq e { s with manager := .dispatch kev }
      rw [← he, heq]
      exact .event hm
  | wait => exact absurd hm ha.2
  | returned | exitFailure | aborted | killed => exact absurd (by simp [hm, ManagerAt.Ended]) ha.1

/-! ## What is known of a reached state -/

def interruptEvent : Kevent := ⟨sigint, .signal, .manager⟩

/-- After `kqueue_signal`, and before any end. -/
def ManagerAt.Running : ManagerAt → Prop
  | .launch | .test | .wait | .dispatch _ => True
  | _ => False

structure Inv (c : Calls) (s : State) : Prop where
  launch : JobLaunch.Inv c.launch s.launch
  watched : s.manager = .ignoreSignal ∨ s.ignored = true → s.watched = true
  running : ¬ s.manager.Ended → (s.ignored = true ↔ s.manager.Running)
  waits : s.manager = .wait → s.shouldExit = false
  room : ∀ kev, s.manager = .dispatch kev → kev.length ≤ 2

theorem inv_initial (c : Calls) : Inv c initial := by
  refine ⟨JobLaunch.inv_initial c.launch, ?_, ?_, ?_, ?_⟩ <;>
    simp [initial, ManagerAt.Running]

theorem length_active_le (s : State) : s.active.length ≤ 2 := by
  unfold State.active
  cases s.launch.watched <;> split_ifs <;> simp

theorem inv_moves (hs : Inv c s) (hm : Moves c s s') : Inv c s' := by
  obtain ⟨hlaunch, hwatched, hrunning, hwaits, hroom⟩ := hs
  cases hm with
  | fails hm hend =>
    rcases hend with rfl | rfl | rfl <;> constructor <;> simp_all [ManagerAt.Ended]
  | launching hm ha he =>
    exact ⟨JobLaunch.inv_parent hlaunch ha he, hwatched, hrunning, hwaits, hroom⟩
  | event hm =>
    have hlen := hroom _ hm
    rw [List.length_cons] at hlen
    constructor <;> simp_all [ManagerAt.Ended, ManagerAt.Running]
    omega
  | _ => constructor <;> simp_all [ManagerAt.Ended, ManagerAt.Running]

/-- Outside `kqueue_signal`, where the launch and the registration are as they were. -/
theorem Inv.goOn {m : ManagerAt} {n : ℕ} {changed : Bool} {lines : List Line} (hs : Inv c s)
    (hwait : s.manager = .wait) (hm : m.Ended ∨ m.Running) (hnot : m ≠ .wait)
    (hroom : ∀ kev, m = .dispatch kev → kev.length ≤ 2) :
    Inv c { s with manager := m, interrupts := n, childChanged := changed, log := lines } := by
  have hignored : s.ignored = true := by
    refine (hs.running ?_).mpr ?_ <;> simp [hwait, ManagerAt.Ended, ManagerAt.Running]
  refine ⟨hs.launch, fun _ => hs.watched (.inr hignored), fun hlive => ?_,
    fun h => absurd h hnot, hroom⟩
  exact iff_of_true hignored (hm.resolve_left hlive)

theorem inv_exec {a : Action} (hs : Inv c s) (ha : allowed s a) (he : exec c s a = .ok s') :
    Inv c s' := by
  cases a with
  | step => exact inv_moves hs (moves_of_managerStep ha he)
  | kevent nev =>
    cases nev with
    | failed =>
      cases he
      exact hs.goOn ha (.inl trivial) nofun nofun
    | none eintr =>
      cases eintr <;> cases he
      all_goals exact hs.goOn ha (.inr trivial) nofun nofun
    | some kev =>
      cases he
      refine hs.goOn ha.1 (.inr trivial) nofun fun kev' hkev' => ?_
      cases hkev'
      rw [ha.2.2.length_eq]
      exact length_active_le s
  | child =>
    cases hl : JobLaunch.childStep s.launch with
    | error e =>
      rw [exec, hl] at he
      cases he
    | ok l =>
      rw [exec, hl] at he
      cases he
      exact ⟨JobLaunch.inv_child hs.launch ha hl, hs.watched, hs.running, hs.waits, hs.room⟩
  | childEvent =>
    cases he
    exact ⟨hs.launch, hs.watched, hs.running, hs.waits, hs.room⟩
  | interrupt =>
    rw [exec] at he
    split_ifs at he with hignored <;> cases he
    · exact ⟨hs.launch, hs.watched, hs.running, hs.waits, hs.room⟩
    · refine ⟨hs.launch, ?_, fun hlive => absurd trivial hlive, nofun, nofun⟩
      rintro (hm | hi)
      · cases hm
      · exact hs.watched (.inr hi)
  | terminate =>
    cases he
    refine ⟨hs.launch, ?_, fun hlive => absurd trivial hlive, nofun, nofun⟩
    rintro (hm | hi)
    · cases hm
    · exact hs.watched (.inr hi)

/-- With a pipe nothing undefined is used. -/
theorem exec_ok {a : Action} (hpipe : c.launch.pipe = 0) (hs : Inv c s) (ha : allowed s a) :
    ∃ s', exec c s a = .ok s' := by
  cases a with
  | step =>
    unfold exec managerStep
    cases hm : s.manager with
    | launch =>
      dsimp only
      split
      · exact ⟨_, rfl⟩
      · rename_i hp
        obtain ⟨l, hl, -⟩ := JobLaunch.step_of_pipe (p := .parent) hpipe hs.launch hp
        have hstep : JobLaunch.parentStep c.launch s.launch = .ok l := hl
        exact ⟨_, by rw [hstep]; rfl⟩
    | dispatch kev => cases kev <;> exact ⟨_, rfl⟩
    | kqueue | watchSignal | ignoreSignal | test =>
      dsimp only
      split_ifs <;> exact ⟨_, rfl⟩
    | wait | returned | exitFailure | aborted | killed => exact ⟨_, rfl⟩
  | kevent nev =>
    cases nev with
    | none eintr => cases eintr <;> exact ⟨_, rfl⟩
    | failed | some => exact ⟨_, rfl⟩
  | child =>
    obtain ⟨l, hl, -⟩ := JobLaunch.step_of_pipe (p := .child) hpipe hs.launch ha
    have hstep : JobLaunch.childStep s.launch = .ok l := hl
    exact ⟨_, by rw [exec, hstep]; rfl⟩
  | interrupt =>
    unfold exec
    split_ifs <;> exact ⟨_, rfl⟩
  | childEvent | terminate => exact ⟨_, rfl⟩

/-! ## Every interrupt is answered -/

/-- An interrupt has come and is not yet acted upon. -/
def Called (s : State) : Prop :=
  s.shouldExit = true ∨ 0 < s.interrupts ∨
    ∃ kev, s.manager = .dispatch kev ∧ interruptEvent ∈ kev

/-- What the manager still has to do once it has been called. -/
def stepsLeft (s : State) : ℕ :=
  match s.manager with
  | .launch => s.launch.parent.stepsLeft + 7
  | .test => if s.shouldExit then 1 else 6
  | .wait => 5
  | .dispatch kev =>
    if s.shouldExit ∨ interruptEvent ∈ kev then kev.length + 2 else kev.length + 7
  | _ => 0

def Action.cost : Action → ℕ
  | .step | .kevent _ => 1
  | _ => 0

/-- A wait that ends without an event starts over. -/
def Action.allowance : Action → ℕ
  | .kevent (.none _) => 2
  | _ => 0

theorem stepsLeft_le (hs : Inv c s) : stepsLeft s ≤ 15 := by
  unfold stepsLeft
  cases hm : s.manager with
  | launch =>
    have hparent : s.launch.parent.stepsLeft ≤ 8 := by
      cases s.launch.parent <;> simp [JobLaunch.ParentAt.stepsLeft]
    dsimp only
    omega
  | dispatch kev =>
    have hlen := hs.room kev hm
    dsimp only
    split_ifs <;> omega
  | test =>
    dsimp only
    split_ifs <;> omega
  | _ => simp

theorem childStep_parent {l l' : JobLaunch.State} (he : JobLaunch.childStep l = .ok l') :
    l'.parent = l.parent := by
  unfold JobLaunch.childStep at he
  cases hc : l.child with
  | absent | setupSubproc =>
    simp only [hc] at he
    cases he
    rfl
  | read | closeRead =>
    simp only [hc] at he
    obtain ⟨-, rfl⟩ := JobLaunch.ok_of_withWaitfd he
    rfl

theorem interruptEvent_stops : interruptEvent.Stops := by decide

theorem answers_moves (hm : Moves c s s') (hrun : s.manager.Running) (hcall : Called s) :
    (s'.manager = .returned 0 ∨ s'.manager.Running ∧ Called s') ∧ stepsLeft s' < stepsLeft s := by
  cases hm with
  | fails hm => rcases hm with hm | hm | hm <;> simp [hm, ManagerAt.Running] at hrun
  | created hm | watched hm | ignored hm => simp [hm, ManagerAt.Running] at hrun
  | launching hm ha he =>
    have hlt := JobLaunch.stepsLeft_lt ha he
    refine ⟨.inr ⟨hrun, hcall⟩, ?_⟩
    simp only [stepsLeft, hm]
    omega
  | launched hm =>
    refine ⟨.inr ⟨trivial, by simpa [Called, hm] using hcall⟩, ?_⟩
    simp only [stepsLeft, hm]
    split_ifs <;> omega
  | stops hm hexit =>
    refine ⟨.inl rfl, ?_⟩
    simp [stepsLeft, hm, hexit]
  | waits hm hexit =>
    refine ⟨.inr ⟨trivial, by simpa [Called, hm] using hcall⟩, ?_⟩
    simp [stepsLeft, hm, hexit]
  | dispatched hm =>
    refine ⟨.inr ⟨trivial, by simpa [Called, hm] using hcall⟩, ?_⟩
    simp only [stepsLeft, hm, List.not_mem_nil, or_false, List.length_nil]
    split_ifs <;> omega
  | @event e kev lines hm =>
    have hfirst : e = interruptEvent → e.Stops := by
      rintro rfl
      exact interruptEvent_stops
    have hcalled : s.shouldExit = true ∨ interruptEvent ∈ e :: kev →
        (s.shouldExit || decide e.Stops) = true ∨ interruptEvent ∈ kev := by
      rintro (hexit | hmem)
      · exact .inl (by rw [hexit, Bool.true_or])
      · rcases List.mem_cons.mp hmem with heq | hmem
        · exact .inl (by rw [decide_eq_true (hfirst heq.symm), Bool.or_true])
        · exact .inr hmem
    refine ⟨.inr ⟨trivial, ?_⟩, ?_⟩
    · rcases hcall with hexit | hpending | ⟨kev', hkev', hmem⟩
      · exact .inl (by simp [hexit])
      · exact .inr (.inl hpending)
      · rw [hm] at hkev'
        cases hkev'
        rcases hcalled (.inr hmem) with hexit | hmem
        · exact .inl hexit
        · exact .inr (.inr ⟨kev, rfl, hmem⟩)
    · simp only [stepsLeft, hm, List.length_cons]
      by_cases hnow : s.shouldExit = true ∨ interruptEvent ∈ e :: kev
      · rw [if_pos hnow, if_pos (hcalled hnow)]
        omega
      · rw [if_neg hnow]
        split_ifs <;> omega

/-- Called while it waits, the manager is given the interrupt with the next events. -/
theorem interruptEvent_mem {kev : List Kevent} (hpending : 0 < s.interrupts)
    (hperm : kev.Perm s.active) : interruptEvent ∈ kev := by
  rw [hperm.mem_iff, State.active, if_pos hpending]
  exact List.mem_cons_self

theorem Called.pending (hs : Inv c s) (hcall : Called s) (hwait : s.manager = .wait) :
    0 < s.interrupts := by
  have hexit := hs.waits hwait
  simpa [Called, hexit, hwait] using hcall

/-- The steps after which nothing is left to answer. -/
def Action.Cuts : Action → Prop
  | .kevent .failed | .terminate => True
  | _ => False

theorem answers_exec {a : Action} (hs : Inv c s) (ha : allowed s a) (he : exec c s a = .ok s')
    (hrun : s.manager.Running) (hcall : Called s) :
    (s'.manager = .returned 0 ∨ s'.manager.Running ∧ Called s' ∨ s'.manager.Ended ∧ a.Cuts) ∧
      stepsLeft s' + a.cost ≤ stepsLeft s + a.allowance := by
  cases a with
  | step =>
    obtain ⟨hnext, hlt⟩ := answers_moves (moves_of_managerStep ha he) hrun hcall
    refine ⟨?_, hlt⟩
    rcases hnext with hret | hgo
    · exact .inl hret
    · exact .inr (.inl hgo)
  | kevent nev =>
    cases nev with
    | failed =>
      cases he
      have hwait : s.manager = .wait := ha
      refine ⟨.inr (.inr ⟨trivial, trivial⟩), ?_⟩
      simp [stepsLeft, hwait, Action.cost, Action.allowance]
    | none eintr =>
      have hwait : s.manager = .wait := ha
      have hpending := hcall.pending hs hwait
      have hexit := hs.waits hwait
      cases eintr <;> cases he
      all_goals
        refine ⟨.inr (.inl ⟨trivial, .inr (.inl hpending)⟩), ?_⟩
        simp [stepsLeft, hwait, State.write, hexit, Action.cost, Action.allowance]
    | some kev =>
      cases he
      obtain ⟨hwait, -, hperm⟩ := ha
      have hmem := interruptEvent_mem (hcall.pending hs hwait) hperm
      have hlen := length_active_le s
      rw [← hperm.length_eq] at hlen
      refine ⟨.inr (.inl ⟨trivial, .inr (.inr ⟨kev, rfl, hmem⟩)⟩), ?_⟩
      simp only [stepsLeft, hwait, hmem, or_true, if_true, Action.cost, Action.allowance]
      omega
  | child =>
    cases hl : JobLaunch.childStep s.launch with
    | error e =>
      rw [exec, hl] at he
      cases he
    | ok l =>
      rw [exec, hl] at he
      cases he
      refine ⟨.inr (.inl ⟨hrun, hcall⟩), ?_⟩
      have hparent := childStep_parent hl
      simp [stepsLeft, hparent, Action.cost, Action.allowance]
  | childEvent =>
    cases he
    exact ⟨.inr (.inl ⟨hrun, hcall⟩), Nat.le_refl _⟩
  | interrupt =>
    have hlive : ¬ s.manager.Ended := ha
    have hignored : s.ignored = true := (hs.running hlive).mpr hrun
    rw [exec, if_pos hignored] at he
    cases he
    refine ⟨.inr (.inl ⟨hrun, ?_⟩), Nat.le_refl _⟩
    rcases hcall with hexit | hpending | hmem
    · exact .inl hexit
    · exact .inr (.inl (Nat.lt_of_lt_of_le hpending (Nat.le_add_right _ _)))
    · exact .inr (.inr hmem)
  | terminate =>
    cases he
    exact ⟨.inr (.inr ⟨trivial, trivial⟩), Nat.zero_le _⟩

/-- After the manager has ended only the child goes on. -/
theorem ended_exec {a : Action} (hend : s.manager.Ended) (ha : allowed s a)
    (he : exec c s a = .ok s') : s'.manager = s.manager ∧ a.cost = 0 := by
  cases a with
  | step => exact absurd hend ha.1
  | kevent nev =>
    have hwait : s.manager = .wait := by
      cases nev with
      | some kev => exact ha.1
      | failed | none => exact ha
    rw [hwait] at hend
    exact hend.elim
  | child =>
    cases hl : JobLaunch.childStep s.launch with
    | error e =>
      rw [exec, hl] at he
      cases he
    | ok l =>
      rw [exec, hl] at he
      cases he
      exact ⟨rfl, rfl⟩
  | childEvent =>
    cases he
    exact ⟨rfl, rfl⟩
  | interrupt | terminate => exact absurd hend ha

/-- The manager has answered, or is about to, or has ended otherwise after a cut. -/
structure Answering (c : Calls) (cut : Prop) (s : State) : Prop where
  inv : Inv c s
  answered : s.manager = .returned 0 ∨ s.manager.Running ∧ Called s ∨ s.manager.Ended ∧ cut

theorem answering_exec {cut : Prop} {a : Action} (hpipe : c.launch.pipe = 0)
    (hs : Answering c cut s) (ha : allowed s a) (hcut : a.Cuts → cut) :
    ∃ s', exec c s a = .ok s' ∧ Answering c cut s' ∧
      stepsLeft s' + a.cost ≤ stepsLeft s + a.allowance := by
  obtain ⟨s', he⟩ := exec_ok hpipe hs.inv ha
  have hinv := inv_exec hs.inv ha he
  have hended : s.manager.Ended →
      s'.manager = s.manager ∧ stepsLeft s' + a.cost ≤ stepsLeft s + a.allowance := by
    intro hend
    obtain ⟨hmanager, hcost⟩ := ended_exec hend ha he
    have hzero : stepsLeft s' = 0 := by
      unfold stepsLeft
      rw [hmanager]
      cases hm : s.manager <;> simp_all [ManagerAt.Ended]
    refine ⟨hmanager, ?_⟩
    rw [hzero, hcost]
    exact Nat.zero_le _
  refine ⟨s', he, ?_⟩
  rcases hs.answered with hret | ⟨hrun, hcall⟩ | ⟨hend, hwas⟩
  · obtain ⟨hmanager, hpaid⟩ := hended (by rw [hret]; trivial)
    exact ⟨⟨hinv, .inl (hmanager.trans hret)⟩, hpaid⟩
  · obtain ⟨hnext, hpaid⟩ := answers_exec hs.inv ha he hrun hcall
    exact ⟨⟨hinv, hnext.imp_right (Or.imp_right (And.imp_right hcut))⟩, hpaid⟩
  · obtain ⟨hmanager, hpaid⟩ := hended hend
    exact ⟨⟨hinv, .inr (.inr ⟨by rwa [hmanager], hwas⟩)⟩, hpaid⟩

/-- A step of the manager other than a wait that gives no events. -/
def Action.Proceeds : Action → Prop
  | .step | .kevent (.some _) => True
  | _ => False

/-- A manager that has been called never waits in vain. -/
theorem exists_proceeds (hs : Inv c s) (hrun : s.manager.Running) (hcall : Called s) :
    ∃ a : Action, a.Proceeds ∧ allowed s a := by
  by_cases hwait : s.manager = .wait
  · refine ⟨.kevent (.some s.active), trivial, hwait, ?_, List.Perm.refl _⟩
    exact List.ne_nil_of_mem (interruptEvent_mem (hcall.pending hs hwait) (List.Perm.refl _))
  · refine ⟨.step, trivial, fun hend => ?_, hwait⟩
    cases hm : s.manager <;> simp_all [ManagerAt.Ended, ManagerAt.Running]

/-- An interrupt that comes once the signal is ignored is answered, in whatever order the
manager, the child and further signals go on, and wherever in the launch or in the loop
the manager was: it takes fifteen more steps at most, two more for each wait that ends
without events, it can always take its next one, and it returns 0 unless the process is
terminated or `kevent` fails. -/
theorem interrupt_answered {tr tr' : List (Action × Except JobLaunch.Undefined State)}
    (hpipe : c.launch.pipe = 0) (hignored : s.ignored = true)
    (hr : Run (machine c) initial (tr ++ (.interrupt, .ok s) :: tr')) :
    total Action.cost tr' ≤ 15 + total Action.allowance tr' ∧
      ∀ p ∈ tr', Holds (fun s' =>
        (¬ s'.manager.Ended → ∃ a : Action, a.Proceeds ∧ allowed s' a) ∧
        (s'.manager.Ended → s'.manager = .returned 0 ∨ ∃ q ∈ tr', q.1.Cuts)) p.2 := by
  obtain ⟨s₀, hs₀, ha, he, hr'⟩ := exists_of_append (I := Inv c)
    (fun s a s' hs ha he => @inv_exec c s s' a hs ha he) hr (inv_initial c)
  have hlive : ¬ s₀.manager.Ended := ha
  have hexec : exec c s₀ .interrupt = .ok s := he
  have hs : Inv c s := inv_exec (a := .interrupt) hs₀ hlive hexec
  have hcalled : s.manager.Running ∧ Called s := by
    rw [exec] at hexec
    split_ifs at hexec with hignored₀
    · cases hexec
      have hwatched := hs₀.watched (.inr hignored₀)
      refine ⟨(hs₀.running hlive).mp hignored₀, .inr (.inl ?_)⟩
      simp [hwatched]
    · cases hexec
      exact absurd hignored hignored₀
  constructor
  · have hstart : Answering c True s := ⟨hs, .inr (.inl hcalled)⟩
    have hpaid := total_le (I := Answering c True)
      (fun s a hs ha => answering_exec hpipe hs ha (fun _ => trivial)) hr' hstart
    have hbound := stepsLeft_le hs
    omega
  · have hstart : Answering c (∃ q ∈ tr', q.1.Cuts) s := ⟨hs, .inr (.inl hcalled)⟩
    refine hr'.holds (I := Answering c (∃ q ∈ tr', q.1.Cuts))
      (C := fun _ a => a.Cuts → ∃ q ∈ tr', q.1.Cuts) (fun s a hs ha hcut => ?_) (fun s hs => ?_)
      hstart (meets_of_forall fun p hp hcut => ⟨p, hp, hcut⟩)
    · obtain ⟨s', he, hs', -⟩ := answering_exec hpipe hs ha hcut
      exact ⟨s', he, hs'⟩
    · rcases hs.answered with hret | ⟨hrun, hcall⟩ | ⟨hend, hcut⟩
      · exact ⟨fun hlive => absurd (by rw [hret]; trivial) hlive, fun _ => .inl hret⟩
      · refine ⟨fun _ => exists_proceeds hs.inv hrun hcall, fun hend => ?_⟩
        cases hm : s.manager <;> simp_all [ManagerAt.Ended, ManagerAt.Running]
      · exact ⟨fun hlive => absurd hend hlive, fun _ => .inr hcut⟩

/-- The launch cannot register its child. -/
def launchFails : Calls := ⟨5, 0, false, 1, JobLaunch.keventFails, Int.zero_lt_one⟩

/-- An interrupt during the launch is answered from the loop. -/
theorem exists_answered : ∃ tr s tr' s', Run (machine launchFails) initial
      (tr ++ (.interrupt, .ok s) :: tr') ∧ s.ignored = true ∧ total Action.cost tr' = 10 ∧
    (.step, .ok s') ∈ tr' ∧ s'.manager = .returned 0 := by
  have hr : ∃ s₁ s₂ s₃ s₄ s₅ s₆ s₇ s₈ s₉ s₁₀ s₁₁ s₁₂ s₁₃ s₁₄, Run (machine launchFails) initial
      ([(.step, .ok s₁), (.step, .ok s₂), (.step, .ok s₃)] ++ (.interrupt, .ok s₄) ::
        [(.step, .ok s₅), (.step, .ok s₆), (.step, .ok s₇), (.step, .ok s₈), (.step, .ok s₉),
          (.step, .ok s₁₀), (.kevent (.some [interruptEvent]), .ok s₁₁), (.step, .ok s₁₂),
          (.step, .ok s₁₃), (.step, .ok s₁₄)]) ∧
      s₄.ignored = true ∧ s₁₄.manager = .returned 0 :=
    ⟨_, _, _, _, _, _, _, _, _, _, _, _, _, _,
      .step ⟨id, nofun⟩ rfl (.step ⟨id, nofun⟩ rfl (.step ⟨id, nofun⟩ rfl (.step id rfl
        (.step ⟨id, nofun⟩ rfl (.step ⟨id, nofun⟩ rfl (.step ⟨id, nofun⟩ rfl (.step ⟨id, nofun⟩ rfl
        (.step ⟨id, nofun⟩ rfl (.step ⟨id, nofun⟩ rfl
        (.step ⟨rfl, nofun, List.Perm.refl _⟩ rfl (.step ⟨id, nofun⟩ rfl (.step ⟨id, nofun⟩ rfl
        (.step ⟨id, nofun⟩ rfl (.nil _)))))))))))))), rfl, rfl⟩
  obtain ⟨s₁, s₂, s₃, s₄, s₅, s₆, s₇, s₈, s₉, s₁₀, s₁₁, s₁₂, s₁₃, s₁₄, hr, hignored, hret⟩ := hr
  exact ⟨_, s₄, _, s₁₄, hr, hignored, rfl, by simp, hret⟩

theorem interrupt_answered_launchFails : ∃ tr s tr', Run (machine launchFails) initial
      (tr ++ (.interrupt, .ok s) :: tr') ∧ total Action.cost tr' = 10 ∧
    total Action.cost tr' ≤ 15 + total Action.allowance tr' ∧
      ∀ p ∈ tr', Holds (fun s' =>
        (¬ s'.manager.Ended → ∃ a : Action, a.Proceeds ∧ allowed s' a) ∧
        (s'.manager.Ended → s'.manager = .returned 0 ∨ ∃ q ∈ tr', q.1.Cuts)) p.2 := by
  obtain ⟨tr, s, tr', s', hr, hignored, hcost, -, -⟩ := exists_answered
  exact ⟨tr, s, tr', hr, hcost, interrupt_answered rfl hignored hr⟩

/-! ## Nothing else is taken for an interrupt -/

/-- No interrupt has come. -/
structure Quiet (c : Calls) (s : State) : Prop where
  stays : s.shouldExit = false
  none : s.interrupts = 0
  batch : ∀ kev, s.manager = .dispatch kev → ∀ e ∈ kev, ¬ e.Stops
  notReturned : s.manager ≠ .returned 0

theorem quiet_moves (hs : Quiet c s) (hm : Moves c s s') : Quiet c s' := by
  obtain ⟨hstays, hnone, hbatch, hnot⟩ := hs
  cases hm with
  | fails hm hend =>
    have herrno := c.errno_pos
    rcases hend with rfl | rfl | rfl
    · refine ⟨hstays, hnone, nofun, fun h => ?_⟩
      have hzero := ManagerAt.returned.inj h
      omega
    all_goals exact ⟨hstays, hnone, nofun, nofun⟩
  | launching => exact ⟨hstays, hnone, hbatch, hnot⟩
  | stops hm hexit =>
    rw [hstays] at hexit
    cases hexit
  | @event e kev lines hm =>
    obtain ⟨he, hkev⟩ := List.forall_mem_cons.mp (hbatch _ hm)
    refine ⟨?_, hnone, fun kev' hkev' => ?_, nofun⟩
    · rw [hstays, decide_eq_false he, Bool.or_false]
    · cases hkev'
      exact hkev
  | _ => exact ⟨hstays, hnone, nofun, nofun⟩

/-- Only an interrupt puts the event of an interrupt into a filter. -/
theorem not_stops_of_active (hnone : s.interrupts = 0) : ∀ e ∈ s.active, ¬ e.Stops := by
  intro e he hstops
  rw [State.active, hnone, if_neg (Nat.lt_irrefl 0), List.nil_append] at he
  split_ifs at he with hchanged
  · cases hw : s.launch.watched with
    | none => simp [hw] at he
    | some i =>
      rw [hw, Option.map_some, Option.toList_some, List.mem_singleton] at he
      rw [he] at hstops
      cases hstops.1
  · cases he

theorem quiet_exec {a : Action} (hs : Quiet c s) (ha : allowed s a) (hno : a ≠ .interrupt) :
    Outcomes.Ends (fun _ => True) (Quiet c) (exec c s a) := by
  obtain ⟨hstays, hnone, hbatch, hnot⟩ := hs
  cases a with
  | step =>
    cases he : exec c s .step with
    | error e => trivial
    | ok s' => exact quiet_moves ⟨hstays, hnone, hbatch, hnot⟩ (moves_of_managerStep ha he)
  | kevent nev =>
    cases nev with
    | failed => exact ⟨hstays, hnone, nofun, nofun⟩
    | none eintr => cases eintr <;> exact ⟨hstays, hnone, nofun, nofun⟩
    | some kev =>
      refine ⟨hstays, rfl, fun kev' hkev' e he => ?_, nofun⟩
      cases hkev'
      exact not_stops_of_active hnone e (ha.2.2.mem_iff.mp he)
  | child =>
    rw [exec]
    cases JobLaunch.childStep s.launch with
    | error e => trivial
    | ok l => exact ⟨hstays, hnone, hbatch, hnot⟩
  | childEvent => exact ⟨hstays, hnone, hbatch, hnot⟩
  | interrupt => exact absurd rfl hno
  | terminate => exact ⟨hstays, hnone, nofun, nofun⟩

/-- The manager returns 0 only after an interrupt: no event of the child, and nothing
that goes wrong in the launch, makes it leave the loop. -/
theorem returned_interrupted {tr : List (Action × Except JobLaunch.Undefined State)} {a : Action}
    (hr : Run (machine c) initial tr) (hmem : (a, .ok s) ∈ tr) (hret : s.manager = .returned 0) :
    ∃ p ∈ tr, p.1 = .interrupt := by
  by_contra hno
  have hall : ∀ p ∈ tr, p.1 ≠ .interrupt := fun p hp heq => hno ⟨p, hp, heq⟩
  have hquiet : Quiet c initial := ⟨rfl, rfl, nofun, nofun⟩
  have hends := Outcomes.Run.ends (P := Quiet c) (C := fun _ a => a ≠ .interrupt)
    (fun s a hs ha hc => quiet_exec hs ha hc) hr hquiet (meets_of_forall hall)
  exact (hends _ hmem : Quiet c s).notReturned hret

theorem returned_interrupted_launchFails : ∃ tr s, Run (machine launchFails) initial tr ∧
    (.step, .ok s) ∈ tr ∧ s.manager = .returned 0 ∧ ∃ p ∈ tr, p.1 = .interrupt := by
  obtain ⟨tr, s, tr', s', hr, -, -, hmem, hret⟩ := exists_answered
  have hlast := List.mem_append_right tr (List.mem_cons_of_mem (.interrupt, .ok s) hmem)
  exact ⟨_, s', hr, hlast, hret, returned_interrupted hr hlast hret⟩

end OpenXPC.ManagerLoop
