import Mathlib.Data.Int.Notation
import OpenXPC.GuardedRuns

/-! # Launching a job

`Job::exec` forks a child that waits on a pipe until the parent has registered it
with the kqueue. The two processes are interleaved in every order; what the four
system calls of the parent return is chosen once for a launch. -/
namespace OpenXPC.JobLaunch
open GuardedRuns

/-- What `pipe`, `fork`, `kevent` and `write` return, and the `errno` of a failure. -/
structure Outcomes where
  pipe : ℤ
  fork : ℤ
  kevent : ℤ
  write : ℤ
  errno : ℤ
  pipe_mem : pipe = -1 ∨ pipe = 0
  fork_mem : fork = -1 ∨ 0 < fork
  kevent_mem : kevent = -1 ∨ kevent = 0
  write_mem : write = -1 ∨ write = 0 ∨ write = 1
  errno_pos : 0 < errno

attribute [simp] Outcomes.errno_pos

@[simp] theorem Outcomes.not_errno_nonpos (o : Outcomes) : ¬ o.errno ≤ 0 :=
  Int.not_le.mpr o.errno_pos

@[simp] theorem Outcomes.not_fork_lt (o : Outcomes) : ¬ o.fork < -1 := by
  have hfork := o.fork_mem
  omega

inductive Process
  | parent
  | child
  deriving DecidableEq

/-- The call that the parent makes next. -/
inductive ParentAt
  | pipe
  | fork
  | branch
  | kevent
  | closeRead
  | write
  | closeWrite
  | logJob
  | returned (result : ℤ)
  deriving DecidableEq

/-- The call that the child makes next, once there is a child. -/
inductive ChildAt
  | absent
  | read
  | closeRead
  | setupSubproc
  deriving DecidableEq

/-- `waitfd` says whether the descriptors have been initialised, and `watched` what
the kqueue watches; each process has its own copies of the two ends. -/
structure State where
  parent : ParentAt
  child : ChildAt
  i : ℤ
  waitfd : Bool
  parentRead : Bool
  parentWrite : Bool
  childRead : Bool
  childWrite : Bool
  bytes : ℕ
  watched : Option ℤ
  told : Bool
  deriving DecidableEq

def initial : State where
  parent := .pipe
  child := .absent
  i := 0
  waitfd := false
  parentRead := false
  parentWrite := false
  childRead := false
  childWrite := false
  bytes := 0
  watched := none
  told := false

/-- The descriptors of a pipe that was never made are used. -/
inductive Undefined
  | waitfd
  deriving DecidableEq

def withWaitfd (s s' : State) : Except Undefined State :=
  if s.waitfd then .ok s' else .error .waitfd

def parentStep (o : Outcomes) (s : State) : Except Undefined State :=
  match s.parent with
  -- the result is not looked at
  | .pipe =>
    if o.pipe = 0 then
      .ok { s with parent := .fork, waitfd := true, parentRead := true, parentWrite := true }
    else .ok { s with parent := .fork }
  | .fork =>
    if 0 < o.fork then
      .ok { s with parent := .branch, i := o.fork, child := .read, childRead := s.parentRead,
                   childWrite := s.parentWrite }
    else .ok { s with parent := .branch, i := o.fork }
  | .branch =>
    if s.i < -1 then .ok { s with parent := .returned (-o.errno) } else .ok { s with parent := .kevent }
  | .kevent =>
    if o.kevent = -1 then .ok { s with parent := .returned (-o.errno) }
    else .ok { s with parent := .closeRead, watched := some s.i }
  | .closeRead => withWaitfd s { s with parent := .write, parentRead := false }
  | .write =>
    withWaitfd s (if o.write ≤ 0 then { s with parent := .closeWrite }
      else { s with parent := .closeWrite, bytes := s.bytes + 1, told := true })
  | .closeWrite => withWaitfd s { s with parent := .logJob, parentWrite := false }
  | .logJob => .ok { s with parent := .returned 0 }
  | .returned _ => .ok s

def childStep (s : State) : Except Undefined State :=
  match s.child with
  | .absent => .ok s
  -- the child goes on with a byte as with the end of the file
  | .read => withWaitfd s { s with child := .closeRead, bytes := s.bytes - 1 }
  | .closeRead => withWaitfd s { s with child := .setupSubproc, childRead := false }
  | .setupSubproc => .ok s

def exec (o : Outcomes) (s : State) : Process → Except Undefined State
  | .parent => parentStep o s
  | .child => childStep s

/-- A read returns with a byte, or when no copy of the write end is open. -/
def CanRead (s : State) : Prop :=
  s.waitfd = true → 0 < s.bytes ∨ (s.parentWrite = false ∧ s.childWrite = false)

/-- A process that has returned, or handed over to `setup_subproc`, is done. -/
def allowed (s : State) : Process → Prop
  | .parent => ∀ r, s.parent ≠ .returned r
  | .child => (s.child = .read ∧ CanRead s) ∨ s.child = .closeRead

def machine (o : Outcomes) : Machine State Process Undefined := ⟨allowed, exec o⟩

/-- The child waits, and goes on waiting however the two processes run on. -/
def Blocked (o : Outcomes) (s : State) : Prop :=
  s.child = .read ∧ ∀ tr, Run (machine o) s tr →
    ∀ p ∈ tr, ∀ s', p.2 = .ok s' → s'.child = .read

/-- A child has been created, is watched and has been told to start. -/
def Launched (s : State) : Prop :=
  s.child ≠ .absent ∧ s.watched = some s.i ∧ s.told = true

structure ReturnsWell (o : Outcomes) (s : State) (result : ℤ) : Prop where
  readClosed : s.parentRead = false
  writeClosed : s.parentWrite = false
  notBlocked : ¬ Blocked o s
  nonneg_iff : 0 ≤ result ↔ Launched s

/-- Whenever the parent has returned, it has returned well. -/
def CleanExit (o : Outcomes) (s : State) : Prop :=
  ∀ result, s.parent = .returned result → ReturnsWell o s result

/-- The child hands over only once it is watched. -/
def StartsWatched (o : Outcomes) (s : State) : Prop :=
  s.child = .setupSubproc → s.watched = some o.fork

/-! ## What is known at each position -/

namespace ParentAt

@[simp] def Forked : ParentAt → Prop
  | .pipe | .fork => False
  | _ => True

@[simp] def Registered : ParentAt → Prop
  | .closeRead | .write | .closeWrite | .logJob => True
  | .returned result => 0 ≤ result
  | _ => False

@[simp] def Wrote : ParentAt → Prop
  | .closeWrite | .logJob => True
  | .returned result => 0 ≤ result
  | _ => False

/-- An early return leaves both ends open. -/
@[simp] def HoldsRead : ParentAt → Prop
  | .fork | .branch | .kevent | .closeRead => True
  | .returned result => result < 0
  | _ => False

@[simp] def HoldsWrite : ParentAt → Prop
  | .fork | .branch | .kevent | .closeRead | .write | .closeWrite => True
  | .returned result => result < 0
  | _ => False

end ParentAt

structure Inv (o : Outcomes) (s : State) : Prop where
  waitfd : s.waitfd = true ↔ s.parent ≠ .pipe ∧ o.pipe = 0
  i : s.parent.Forked → s.i = o.fork
  child : s.child ≠ .absent ↔ s.parent.Forked ∧ 0 < o.fork
  watched : s.parent.Registered → o.kevent = 0 ∧ s.watched = some o.fork
  told : s.told = true ↔ s.parent.Wrote ∧ 0 < o.write
  parentRead : s.parentRead = true ↔ o.pipe = 0 ∧ s.parent.HoldsRead
  parentWrite : s.parentWrite = true ↔ o.pipe = 0 ∧ s.parent.HoldsWrite
  -- its own copy of the write end keeps the child from seeing the end of the file
  childWrite : s.child = .read → s.waitfd = true → s.childWrite = true
  bytes : 0 < s.bytes → s.told = true
  unread : s.told = true → s.child = .read → 0 < s.bytes
  early : ∀ r, s.parent = .returned r → 0 ≤ r ∨ o.kevent = -1
  woken : s.child = .closeRead ∨ s.child = .setupSubproc → s.told = true

variable {o : Outcomes} {s s' : State}

theorem inv_initial (o : Outcomes) : Inv o initial := by
  constructor <;> simp [initial]

theorem ok_of_withWaitfd {s₁ : State} (he : withWaitfd s s₁ = .ok s') :
    s.waitfd = true ∧ s' = s₁ := by
  unfold withWaitfd at he
  split_ifs at he with hw
  cases he
  exact ⟨hw, rfl⟩

theorem inv_parent (hs : Inv o s) (ha : allowed s .parent) (he : parentStep o s = .ok s') :
    Inv o s' := by
  obtain ⟨hwaitfd, hi, hchild, hwatched, htold, hread, hwrite, hcw, hbytes, hunread, hearly, hwoken⟩ := hs
  unfold parentStep at he
  cases hp : s.parent with
  | pipe =>
    simp only [hp] at he
    split_ifs at he <;> cases he <;> constructor <;> first | assumption | simp_all
  | fork =>
    simp only [hp] at he
    split_ifs at he <;> cases he <;> constructor <;> first | assumption | simp_all
  | branch =>
    simp only [hp] at he
    split_ifs at he <;> cases he <;> constructor <;> first | assumption | simp_all
  | kevent =>
    simp only [hp] at he
    have hk := o.kevent_mem
    split_ifs at he <;> cases he <;> constructor <;> first | assumption | simp_all
  | closeRead =>
    simp only [hp] at he
    obtain ⟨hw, rfl⟩ := ok_of_withWaitfd he
    constructor <;> first | assumption | simp_all
  | write =>
    simp only [hp] at he
    obtain ⟨hw, rfl⟩ := ok_of_withWaitfd he
    split_ifs <;> constructor <;> first | assumption | simp_all
  | closeWrite =>
    simp only [hp] at he
    obtain ⟨hw, rfl⟩ := ok_of_withWaitfd he
    constructor <;> first | assumption | simp_all
  | logJob =>
    simp only [hp, Except.ok.injEq] at he
    subst he
    constructor <;> first | assumption | simp_all
  | returned r => exact absurd hp (ha r)

theorem inv_child (hs : Inv o s) (ha : allowed s .child) (he : childStep s = .ok s') :
    Inv o s' := by
  obtain ⟨hwaitfd, hi, hchild, hwatched, htold, hread, hwrite, hcw, hbytes, hunread, hearly, hwoken⟩ := hs
  unfold childStep at he
  rcases ha with ⟨hc, hcan⟩ | hc
  · simp only [hc] at he
    obtain ⟨hw, rfl⟩ := ok_of_withWaitfd he
    -- there is a byte, for the child itself holds the write end open
    have hbyte : 0 < s.bytes := by
      rcases hcan hw with hbyte | ⟨-, hclosed⟩
      · exact hbyte
      · simp [hcw hc hw] at hclosed
    have hsaid := hbytes hbyte
    constructor <;> first | assumption | simp_all
  · simp only [hc] at he
    obtain ⟨hw, rfl⟩ := ok_of_withWaitfd he
    constructor <;> first | assumption | simp_all

theorem inv_step {p : Process} (hs : Inv o s) (ha : allowed s p) (he : exec o s p = .ok s') :
    Inv o s' := by
  cases p with
  | parent => exact inv_parent hs ha he
  | child => exact inv_child hs ha he

/-- The step closes, writes or reads an end of the pipe. -/
def UsesWaitfd (s : State) : Process → Prop
  | .parent => s.parent = .closeRead ∨ s.parent = .write ∨ s.parent = .closeWrite
  | .child => s.child = .read ∨ s.child = .closeRead

theorem exec_ok {p : Process} (hw : UsesWaitfd s p → s.waitfd = true) :
    ∃ s', exec o s p = .ok s' := by
  cases p with
  | parent =>
    unfold exec parentStep
    cases hp : s.parent with
    | pipe | fork | branch | kevent =>
      dsimp only
      split_ifs
      all_goals exact ⟨_, rfl⟩
    | closeRead | write | closeWrite => exact ⟨_, if_pos (hw (by simp [UsesWaitfd, hp]))⟩
    | logJob | returned => exact ⟨_, rfl⟩
  | child =>
    unfold exec childStep
    cases hc : s.child with
    | read | closeRead => exact ⟨_, if_pos (hw (by simp [UsesWaitfd, hc]))⟩
    | absent | setupSubproc => exact ⟨_, rfl⟩

/-- With a pipe nothing undefined is used. -/
theorem step_of_pipe (hpipe : o.pipe = 0) {p : Process} (hs : Inv o s) (ha : allowed s p) :
    ∃ s', exec o s p = .ok s' ∧ Inv o s' := by
  have hw : UsesWaitfd s p → s.waitfd = true := by
    intro huses
    refine hs.waitfd.mpr ⟨fun hp => ?_, hpipe⟩
    have hchild := hs.child
    cases p <;> simp_all [UsesWaitfd]
  obtain ⟨s', he⟩ := exec_ok hw
  exact ⟨s', he, inv_step hs ha he⟩

theorem inv_run {tr : List (Process × Except Undefined State)} (hpipe : o.pipe = 0)
    (hr : Run (machine o) initial tr) : ∀ p ∈ tr, Holds (Inv o) p.2 :=
  hr.holds (C := fun _ _ => True) (fun _ _ hs ha _ => step_of_pipe hpipe hs ha) (fun _ hs => hs)
    (inv_initial o) (meets_true initial tr)

theorem Inv.startsWatched (hs : Inv o s) : StartsWatched o s := by
  intro hc
  have htold := hs.told.mp (hs.woken (.inr hc))
  refine (hs.watched ?_).2
  cases hp : s.parent <;> simp_all

/-- In every interleaving, whatever `kevent` and `write` return, the child hands
over to `setup_subproc` only when the kqueue already watches it. -/
theorem child_starts_watched {tr : List (Process × Except Undefined State)} (hpipe : o.pipe = 0)
    (hr : Run (machine o) initial tr) : ∀ p ∈ tr, Holds (StartsWatched o) p.2 := by
  intro p hp
  obtain ⟨s, he, hs⟩ := inv_run hpipe hr p hp
  exact ⟨s, he, hs.startsWatched⟩

def allGo : Outcomes := ⟨0, 7, 0, 1, 3, by decide, by decide, by decide, by decide, by decide⟩

/-- The child gets its byte while the parent has not yet returned. -/
theorem allGo_startsWatched : ∃ tr s, Run (machine allGo) initial tr ∧ (.child, .ok s) ∈ tr ∧
    s.child = .setupSubproc ∧ s.watched = some 7 := by
  have hr : ∃ s₁ s₂ s₃ s₄ s₅ s₆ s₇ s₈, Run (machine allGo) initial
      [(.parent, .ok s₁), (.parent, .ok s₂), (.parent, .ok s₃), (.parent, .ok s₄),
        (.parent, .ok s₅), (.parent, .ok s₆), (.child, .ok s₇), (.child, .ok s₈)] ∧
      s₈.child = .setupSubproc :=
    ⟨_, _, _, _, _, _, _, _, .step (fun _ => nofun) rfl (.step (fun _ => nofun) rfl
      (.step (fun _ => nofun) rfl (.step (fun _ => nofun) rfl (.step (fun _ => nofun) rfl
      (.step (fun _ => nofun) rfl (.step (.inl ⟨rfl, fun _ => .inl Nat.one_pos⟩) rfl
      (.step (.inr rfl) rfl (.nil _)))))))), rfl⟩
  obtain ⟨s₁, s₂, s₃, s₄, s₅, s₆, s₇, s₈, hr, hc⟩ := hr
  have hlast := child_starts_watched rfl hr (.child, .ok s₈) (by simp)
  exact ⟨_, s₈, hr, by simp, hc, holds_ok.mp hlast hc⟩

/-! ## When a launch leaves nothing behind -/

def Outcomes.AllSucceed (o : Outcomes) : Prop :=
  o.pipe = 0 ∧ 0 < o.fork ∧ o.kevent = 0 ∧ 0 < o.write

/-- The launch stops before it has begun. -/
def Outcomes.NothingBegun (o : Outcomes) : Prop :=
  o.pipe = -1 ∧ o.fork = -1 ∧ o.kevent = -1

/-- A child with a byte to read is not blocked. -/
theorem not_blocked_of_told (hs : Inv o s) (hw : s.waitfd = true) (htold : s.told = true) :
    ¬ Blocked o s := by
  intro hb
  obtain ⟨hc, hall⟩ := hb
  have ha : (machine o).allowed s .child := .inl ⟨hc, fun _ => .inl (hs.unread htold hc)⟩
  have he : (machine o).exec s .child = .ok { s with child := .closeRead, bytes := s.bytes - 1 } := by
    simp [machine, exec, childStep, hc, withWaitfd, hw]
  have hstill := hall _ (.step ha he (.nil _)) _ List.mem_cons_self _ rfl
  cases hstill

theorem Inv.cleanExit_of_allSucceed (ho : o.AllSucceed) (hs : Inv o s) : CleanExit o s := by
  obtain ⟨hpipe, hfork, hkevent, hwrote⟩ := ho
  intro r hr
  have hnonneg : 0 ≤ r := (hs.early r hr).resolve_right (by omega)
  have hneg : ¬ r < 0 := Int.not_lt.mpr hnonneg
  have htold : s.told = true := hs.told.mpr ⟨by simp [hr, hnonneg], hwrote⟩
  have hforked : s.parent.Forked := by simp [hr]
  have hw : s.waitfd = true := hs.waitfd.mpr ⟨by simp [hr], hpipe⟩
  refine ⟨?_, ?_, not_blocked_of_told hs hw htold, iff_of_true hnonneg ⟨?_, ?_, htold⟩⟩
  · have hread := hs.parentRead
    simpa [hr, hneg] using hread
  · have hwrite := hs.parentWrite
    simpa [hr, hneg] using hwrite
  · exact hs.child.mpr ⟨hforked, hfork⟩
  · rw [hs.i hforked]
    exact (hs.watched (by simp [hr, hnonneg])).2

theorem Inv.cleanExit_of_nothingBegun (ho : o.NothingBegun) (hs : Inv o s) : CleanExit o s := by
  obtain ⟨hpipe, hfork, hkevent⟩ := ho
  intro r hr
  have habsent : s.child = .absent := by
    by_contra hc
    have hpos := (hs.child.mp hc).2
    omega
  have hneg : ¬ 0 ≤ r := by
    intro hnonneg
    have hwatched := (hs.watched (by simp [hr, hnonneg])).1
    omega
  refine ⟨?_, ?_, fun hb => ?_, iff_of_false hneg fun hl => hl.1 habsent⟩
  · have hread := hs.parentRead
    simpa [hpipe] using hread
  · have hwrite := hs.parentWrite
    simpa [hpipe] using hwrite
  · have hc := hb.1
    rw [habsent] at hc
    cases hc

/-- The parent returns before it would use the pipe, and there is no child. -/
theorem step_of_nothingBegun (ho : o.NothingBegun) {p : Process} (hs : Inv o s) (ha : allowed s p) :
    ∃ s', exec o s p = .ok s' ∧ Inv o s' := by
  have hw : UsesWaitfd s p → s.waitfd = true := by
    intro huses
    obtain ⟨-, hfork, hkevent⟩ := ho
    have hchild := hs.child
    have hwatched := hs.watched
    cases p with
    | parent => rcases huses with hp | hp | hp <;> simp_all
    | child => rcases huses with hc | hc <;> simp_all
  obtain ⟨s', he⟩ := exec_ok hw
  exact ⟨s', he, inv_step hs ha he⟩

/-! ## The parent on its own -/

/-- The run in which only the parent takes steps. -/
def alone (o : Outcomes) : ℕ → State → List (Process × Except Undefined State)
  | 0, _ => []
  | n + 1, s => match s.parent with
    | .returned _ => []
    | _ => match parentStep o s with
      | .ok s' => (.parent, .ok s') :: alone o n s'
      | .error e => [(.parent, .error e)]

theorem run_alone (o : Outcomes) (n : ℕ) (s : State) : Run (machine o) s (alone o n s) := by
  induction n generalizing s with
  | zero => exact .nil s
  | succ n ih =>
    unfold alone
    split
    · exact .nil s
    · rename_i hp
      have ha : (machine o).allowed s .parent := hp
      cases he : parentStep o s with
      | ok s' => exact .step ha he (ih s')
      | error e => exact .fault ha he

def ParentAt.stepsLeft : ParentAt → ℕ
  | .pipe => 8
  | .fork => 7
  | .branch => 6
  | .kevent => 5
  | .closeRead => 4
  | .write => 3
  | .closeWrite => 2
  | .logJob => 1
  | .returned _ => 0

theorem stepsLeft_lt (ha : allowed s .parent) (he : parentStep o s = .ok s') :
    s'.parent.stepsLeft < s.parent.stepsLeft := by
  unfold parentStep at he
  cases hp : s.parent with
  | pipe | fork | branch | kevent =>
    simp only [hp] at he
    split_ifs at he
    all_goals
      cases he
      simp [ParentAt.stepsLeft]
  | closeRead | closeWrite =>
    simp only [hp] at he
    obtain ⟨-, rfl⟩ := ok_of_withWaitfd he
    simp [ParentAt.stepsLeft]
  | write =>
    simp only [hp] at he
    obtain ⟨-, rfl⟩ := ok_of_withWaitfd he
    split_ifs
    all_goals simp [ParentAt.stepsLeft]
  | logJob =>
    simp only [hp, Except.ok.injEq] at he
    subst he
    simp [ParentAt.stepsLeft]
  | returned r => exact absurd hp (ha r)

/-- With a pipe the parent returns. -/
theorem exists_returned (hpipe : o.pipe = 0) {n : ℕ} (hs : Inv o s) (ha : allowed s .parent)
    (hn : s.parent.stepsLeft ≤ n) :
    ∃ s' r, (.parent, .ok s') ∈ alone o n s ∧ s'.parent = .returned r ∧ Inv o s' := by
  induction n generalizing s with
  | zero =>
    cases hp : s.parent with
    | returned r => exact absurd hp (ha r)
    | _ => simp [hp, ParentAt.stepsLeft] at hn
  | succ n ih =>
    obtain ⟨s₁, he, hs₁⟩ := step_of_pipe hpipe hs ha
    have hlt := stepsLeft_lt ha he
    have halone : alone o (n + 1) s = (.parent, .ok s₁) :: alone o n s₁ := by
      rw [alone]
      split
      · rename_i r hp
        exact absurd hp (ha r)
      · rw [show parentStep o s = .ok s₁ from he]
    rw [halone]
    by_cases ha₁ : allowed s₁ .parent
    · obtain ⟨s', r, hmem, hr, hs'⟩ := ih hs₁ ha₁ (by omega)
      exact ⟨s', r, List.mem_cons_of_mem _ hmem, hr, hs'⟩
    · simp only [allowed, not_forall, not_not] at ha₁
      obtain ⟨r, hr⟩ := ha₁
      exact ⟨s₁, r, List.mem_cons_self, hr, hs₁⟩

theorem allSucceed_of_cleanExit (hpipe : o.pipe = 0)
    (hall : ∀ tr, Run (machine o) initial tr → ∀ p ∈ tr, Holds (CleanExit o) p.2) :
    o.AllSucceed := by
  obtain ⟨s, r, hmem, hr, hs⟩ :=
    exists_returned (n := 8) hpipe (inv_initial o) (fun _ => nofun) (Nat.le_refl 8)
  have hclean := holds_ok.mp (hall _ (run_alone o 8 initial) _ hmem) r hr
  have hnonneg : 0 ≤ r := by
    have hread := hs.parentRead
    rw [hclean.readClosed] at hread
    simpa [hpipe, hr] using hread
  obtain ⟨hchild, -, htold⟩ := hclean.nonneg_iff.mp hnonneg
  exact ⟨hpipe, (hs.child.mp hchild).2, (hs.watched (by simp [hr, hnonneg])).1, (hs.told.mp htold).2⟩

theorem nothingBegun_of_cleanExit (hpipe : o.pipe = -1)
    (hall : ∀ tr, Run (machine o) initial tr → ∀ p ∈ tr, Holds (CleanExit o) p.2) :
    o.NothingBegun := by
  have hkevent : o.kevent = -1 := by
    by_contra hk
    have hfault : (.parent, .error .waitfd) ∈ alone o 5 initial := by
      by_cases hfork : 0 < o.fork <;>
        simp [alone, parentStep, initial, withWaitfd, hpipe, hk, hfork]
    exact not_holds_error (hall _ (run_alone o 5 initial) _ hfault)
  refine ⟨hpipe, o.fork_mem.resolve_right (fun hfork => ?_), hkevent⟩
  -- the child reads from a descriptor that was never set
  let s₁ : State := { initial with parent := .fork }
  let s₂ : State := { initial with parent := .branch, i := o.fork, child := .read }
  have hpipe' : (machine o).exec initial .parent = .ok s₁ := by
    simp [machine, exec, parentStep, initial, hpipe, s₁]
  have hfork' : (machine o).exec s₁ .parent = .ok s₂ := by
    simp [machine, exec, parentStep, initial, hfork, s₁, s₂]
  have hrun : Run (machine o) initial
      [(.parent, .ok s₁), (.parent, .ok s₂), (.child, .error .waitfd)] :=
    .step (fun _ => nofun) hpipe' (.step (fun _ => nofun) hfork'
      (.fault (.inl ⟨rfl, nofun⟩) rfl))
  exact not_holds_error (hall _ hrun (.child, .error .waitfd) (by simp))

/-- In every interleaving the parent returns well, if and only if all four calls
succeed or the first three fail. -/
theorem cleanExit_iff (o : Outcomes) :
    (∀ tr, Run (machine o) initial tr → ∀ p ∈ tr, Holds (CleanExit o) p.2) ↔
      o.AllSucceed ∨ o.NothingBegun := by
  constructor
  · intro hall
    rcases o.pipe_mem with hpipe | hpipe
    · exact .inr (nothingBegun_of_cleanExit hpipe hall)
    · exact .inl (allSucceed_of_cleanExit hpipe hall)
  · intro ho tr hr
    rcases ho with ho | ho
    · exact hr.holds (C := fun _ _ => True) (fun _ _ hs ha _ => step_of_pipe ho.1 hs ha)
        (fun _ hs => hs.cleanExit_of_allSucceed ho) (inv_initial o) (meets_true initial tr)
    · exact hr.holds (C := fun _ _ => True) (fun _ _ hs ha _ => step_of_nothingBegun ho hs ha)
        (fun _ hs => hs.cleanExit_of_nothingBegun ho) (inv_initial o) (meets_true initial tr)

/-- After the parent has returned, a child without a byte waits for ever: it holds
the write end of its own pipe open. -/
theorem blocked_of_untold {r : ℤ} (hs : Inv o s) (hw : s.waitfd = true)
    (hr : s.parent = .returned r) (hc : s.child = .read) (htold : s.told = false) :
    Blocked o s := by
  have hstopped : ∀ p, ¬ allowed s p := by
    intro p ha
    cases p with
    | parent => exact ha r hr
    | child =>
      rcases ha with ⟨-, hcan⟩ | hclose
      · rcases hcan hw with hbyte | ⟨-, hclosed⟩
        · simp [hs.bytes hbyte] at htold
        · simp [hs.childWrite hc hw] at hclosed
      · simp [hc] at hclose
  refine ⟨hc, fun tr hrun p hp => ?_⟩
  cases hrun with
  | nil => cases hp
  | fault ha => exact absurd ha (hstopped _)
  | step ha => exact absurd ha (hstopped _)

def keventFails : Outcomes := ⟨0, 7, -1, 1, 3, by decide, by decide, by decide, by decide, by decide⟩

/-- The parent returns the error with both ends open, and the child waits for ever. -/
theorem keventFails_not_cleanExit : ∃ tr s, Run (machine keventFails) initial tr ∧
    (.parent, .ok s) ∈ tr ∧ s.parent = .returned (-3) ∧ s.parentRead = true ∧
    s.parentWrite = true ∧ Blocked keventFails s ∧ ¬ CleanExit keventFails s := by
  have hr : ∃ s₁ s₂ s₃ s₄, Run (machine keventFails) initial
      [(.parent, .ok s₁), (.parent, .ok s₂), (.parent, .ok s₃), (.parent, .ok s₄)] ∧
      s₄.parent = .returned (-3) ∧ s₄.parentRead = true ∧ s₄.parentWrite = true ∧
      s₄.child = .read ∧ s₄.told = false :=
    ⟨_, _, _, _, .step (fun _ => nofun) rfl (.step (fun _ => nofun) rfl
      (.step (fun _ => nofun) rfl (.step (fun _ => nofun) rfl (.nil _)))), rfl, rfl, rfl, rfl, rfl⟩
  obtain ⟨s₁, s₂, s₃, s, hr, hret, hread, hwrite, hc, htold⟩ := hr
  have hinv : Inv keventFails s := holds_ok.mp (inv_run rfl hr (.parent, .ok s) (by simp))
  have hw : s.waitfd = true := hinv.waitfd.mpr ⟨by simp [hret], rfl⟩
  refine ⟨_, s, hr, by simp, hret, hread, hwrite, blocked_of_untold hinv hw hret hc htold, ?_⟩
  intro hclean
  simp [(hclean _ hret).readClosed] at hread

end OpenXPC.JobLaunch
