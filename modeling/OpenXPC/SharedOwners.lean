import Mathlib.Data.Finset.Insert
import OpenXPC.Lifetimes

/-! # Owners in parallel

Any number of owners share one object, and their calls interleave. A retain is one
atomic addition. A release is two steps of its caller: an atomic addition, and later
the test of the value it returned, followed by the return or the destruction. -/
namespace OpenXPC.SharedOwners
open GuardedRuns

/-- The value returned is the new one. -/
def atomicFetchaddInt {A : Type} (xo : XpcObject A) (v : UInt32) : XpcObject A × UInt32 :=
  ({ xo with xoRefcnt := xo.xoRefcnt + v }, xo.xoRefcnt + v)

/-- A call of `xpc_release` between its two steps. Calls are numbered in the order of
their additions. -/
structure Call (Owner : Type) where
  number : ℕ
  owner : Owner
  value : UInt32
  deriving DecidableEq

variable {Owner : Type}

/-- The object, gone once it is destroyed; the references held; how many releases have
begun, and which are not over; the releases that have called `xpc_object_destroy`, and
the one that gave up the last reference. -/
structure State (Owner : Type) where
  object : Option (XpcObject (List ObjId))
  held : Multiset Owner
  begun : ℕ
  running : Finset (Call Owner)
  destroyers : List ℕ
  last : Option ℕ

inductive Action (Owner : Type)
  | retain (o : Owner)
  | release (o : Owner)
  | finish (call : Call Owner)
  | handOver (o o' : Owner)

def State.access (s : State Owner) : Except Fault (XpcObject (List ObjId)) :=
  match s.object with
  | some xo => .ok xo
  | none => .error .dangling

def exec [DecidableEq Owner] (s : State Owner) : Action Owner → Except Fault (State Owner)
  | .retain o => do
    let xo ← s.access
    .ok { s with object := some (atomicFetchaddInt xo 1).1, held := o ::ₘ s.held }
  | .release o => do
    let xo ← s.access
    let (xo, value) := atomicFetchaddInt xo (-1)
    let held := s.held.erase o
    .ok { s with
      object := some xo
      held
      begun := s.begun + 1
      running := insert ⟨s.begun, o, value⟩ s.running
      last := if held = 0 then some s.begun else s.last }
  | .finish call =>
    if call.value > 0 then
      .ok { s with running := s.running.erase call }
    else do
      let _ ← s.access
      .ok { s with
        object := none
        running := s.running.erase call
        destroyers := s.destroyers ++ [call.number] }
  -- no call of the library: the pointer changes hands
  | .handOver o o' => .ok { s with held := o' ::ₘ s.held.erase o }

/-- An owner acts only while it holds a reference, and there are fewer than 2^32. -/
def allowed (s : State Owner) : Action Owner → Prop
  | .retain o => o ∈ s.held ∧ s.held.card + 1 < 2 ^ 32
  | .release o => o ∈ s.held
  | .finish call => call ∈ s.running
  | .handOver o _ => o ∈ s.held

instance [DecidableEq Owner] (s : State Owner) : (a : Action Owner) → Decidable (allowed s a)
  | .retain o => inferInstanceAs (Decidable (o ∈ s.held ∧ s.held.card + 1 < 2 ^ 32))
  | .release o => inferInstanceAs (Decidable (o ∈ s.held))
  | .finish call => inferInstanceAs (Decidable (call ∈ s.running))
  | .handOver o _ => inferInstanceAs (Decidable (o ∈ s.held))

def machine (Owner : Type) [DecidableEq Owner] : Machine (State Owner) (Action Owner) Fault :=
  ⟨allowed, exec⟩

/-- Some references are held, and they are counted; no release has begun. -/
structure Initial (s : State Owner) : Prop where
  counted : ∃ xo, s.object = some xo ∧ xo.xoRefcnt.toNat = s.held.card
  held : s.held ≠ 0
  running : s.running = ∅
  destroyers : s.destroyers = []

/-- The destructor is called once at most, when nothing is held any more, by the release
that gave up the last reference; no other release will call it, and once nothing is
held it has been called or that release is about to, in its second step. -/
structure DestroyedByLast [DecidableEq Owner] (s : State Owner) : Prop where
  once : s.destroyers.length ≤ 1
  unheld : s.destroyers ≠ [] → s.held = 0
  byLast : ∀ i ∈ s.destroyers, s.last = some i
  others : ∀ call ∈ s.running, ¬ call.value > 0 → s.last = some call.number ∧ s.destroyers = []
  awaited : s.held = 0 → s.destroyers ≠ [] ∨ ∃ call ∈ s.running, ¬ call.value > 0
  destroys : ∀ call ∈ s.running, ¬ call.value > 0 →
    ∃ s', exec s (.finish call) = .ok s' ∧ s'.object = none ∧ s'.destroyers = [call.number]

/-! ## The steps and the library calls -/

section Steps

variable {xo : XpcObject (List ObjId)}

theorem atomicFetchaddInt_one : (atomicFetchaddInt xo 1).1 = xo.retained := rfl

theorem atomicFetchaddInt_neg_one :
    atomicFetchaddInt xo (-1) = (xo.released, xo.released.xoRefcnt) := by
  simp only [atomicFetchaddInt, XpcObject.released, UInt32.sub_eq_add_neg]

/-- The two steps of a release, one right after the other. -/
theorem xpcRelease_eq {h : Heap (List ObjId)} {x : ObjId} (hx : h.get x = some xo) :
    xpcRelease h x =
      let (xo', value) := atomicFetchaddInt xo (-1)
      if value > 0 then .ok (h.set x xo')
      else xpcObjectDestroy ((h.set x xo').slotTotal + 1) (h.set x xo') x := by
  simp only [atomicFetchaddInt_neg_one, xpcRelease, Heap.deref_of_get hx, ok_bind]
  rfl

end Steps

/-! ## The phases -/

/-- While references are held they are counted and no release has seen zero. Once none is
held, one release has, and after it has destroyed the object none is left that has. -/
inductive Phase (s : State Owner) : Prop
  | held {xo : XpcObject (List ObjId)} (hobject : s.object = some xo)
      (hcount : xo.xoRefcnt.toNat = s.held.card) (hheld : s.held ≠ 0) (hnone : s.destroyers = [])
      (hrunning : ∀ call ∈ s.running, 0 < call.value)
  | dying {xo : XpcObject (List ObjId)} {call : Call Owner} (hobject : s.object = some xo)
      (hheld : s.held = 0) (hcall : call ∈ s.running) (hzero : call.value = 0)
      (hlast : s.last = some call.number) (hnone : s.destroyers = [])
      (hrunning : ∀ other ∈ s.running, other ≠ call → 0 < other.value)
  | destroyed {i : ℕ} (hheld : s.held = 0) (hlast : s.last = some i) (hone : s.destroyers = [i])
      (hrunning : ∀ call ∈ s.running, 0 < call.value)

variable {s : State Owner}

theorem Initial.phase (hi : Initial s) : Phase s := by
  obtain ⟨xo, hobject, hcount⟩ := hi.counted
  exact .held hobject hcount hi.held hi.destroyers (by simp [hi.running])

/-- References are held only while the object is there. -/
theorem Phase.of_mem (hs : Phase s) {o : Owner} (ho : o ∈ s.held) :
    ∃ xo, s.object = some xo ∧ xo.xoRefcnt.toNat = s.held.card ∧ s.destroyers = [] ∧
      ∀ call ∈ s.running, 0 < call.value := by
  cases hs with
  | held hobject hcount hheld hnone hrunning => exact ⟨_, hobject, hcount, hnone, hrunning⟩
  | dying hobject hheld => simp [hheld] at ho
  | destroyed hheld => simp [hheld] at ho

variable [DecidableEq Owner]

/-- The second step of a release that has seen zero, with the object still there. -/
theorem exec_finish_zero {call : Call Owner} {xo : XpcObject (List ObjId)}
    (hobject : s.object = some xo) (hzero : ¬ call.value > 0) :
    exec s (.finish call) = .ok { s with
      object := none
      running := s.running.erase call
      destroyers := s.destroyers ++ [call.number] } := by
  rw [exec, if_neg hzero, State.access, hobject, ok_bind]

theorem Phase.destroyedByLast (hs : Phase s) : DestroyedByLast s := by
  cases hs with
  | held hobject hcount hheld hnone hrunning =>
    exact ⟨by simp [hnone], fun hne => absurd hnone hne, by simp [hnone],
      fun call hcall hzero => absurd (hrunning call hcall) hzero, fun hzero => absurd hzero hheld,
      fun call hcall hzero => absurd (hrunning call hcall) hzero⟩
  | @dying xo call hobject hheld hcall hzero hlast hnone hrunning =>
    have honly : ∀ other ∈ s.running, ¬ other.value > 0 → other = call := by
      intro other hother hnot
      by_contra hne
      exact hnot (hrunning other hother hne)
    refine ⟨by simp [hnone], fun _ => hheld, by simp [hnone], fun other hother hnot => ?_,
      fun _ => .inr ⟨call, hcall, by simp [hzero]⟩, fun other hother hnot => ?_⟩
    · rw [honly other hother hnot]
      exact ⟨hlast, hnone⟩
    · exact ⟨_, exec_finish_zero hobject hnot, rfl, by simp only [hnone, List.nil_append]⟩
  | destroyed hheld hlast hone hrunning =>
    exact ⟨by simp [hone], fun _ => hheld, by simp [hone, hlast],
      fun call hcall hzero => absurd (hrunning call hcall) hzero, fun _ => .inl (by simp [hone]),
      fun call hcall hzero => absurd (hrunning call hcall) hzero⟩

theorem phase_retain (hs : Phase s) {o : Owner} (ha : allowed s (.retain o)) :
    ∃ s', exec s (.retain o) = .ok s' ∧ Phase s' := by
  obtain ⟨xo, hobject, hcount, hnone, hrunning⟩ := hs.of_mem ha.1
  refine ⟨_, by rw [exec, State.access, hobject, ok_bind], ?_⟩
  refine .held rfl ?_ Multiset.cons_ne_zero hnone hrunning
  rw [atomicFetchaddInt_one, Lifetimes.toNat_retained (hcount ▸ ha.2), hcount,
    Multiset.card_cons]

/-- The value is zero exactly when no reference is left. -/
theorem phase_release (hs : Phase s) {o : Owner} (ha : allowed s (.release o)) :
    ∃ s', exec s (.release o) = .ok s' ∧ Phase s' := by
  obtain ⟨xo, hobject, hcount, hnone, hrunning⟩ := hs.of_mem ha
  have hcard : (s.held.erase o).card + 1 = s.held.card := Multiset.card_erase_add_one ha
  have hvalue : xo.released.xoRefcnt.toNat = (s.held.erase o).card := by
    rw [XpcObject.released, Lifetimes.toNat_released (by omega)]
    omega
  refine ⟨_, by rw [exec, State.access, hobject, ok_bind, atomicFetchaddInt_neg_one], ?_⟩
  by_cases hempty : s.held.erase o = 0
  · refine .dying rfl hempty (Finset.mem_insert_self _ _) ?_ (if_pos hempty) hnone ?_
    · rw [hempty, Multiset.card_zero] at hvalue
      exact UInt32.toNat_inj.mp hvalue
    · intro other hother hne
      exact hrunning other (Finset.mem_of_mem_insert_of_ne hother hne)
  · refine .held rfl hvalue hempty hnone (fun call hcall => ?_)
    rcases Finset.mem_insert.mp hcall with rfl | hcall
    · apply UInt32.lt_iff_toNat_lt.mpr
      change 0 < xo.released.xoRefcnt.toNat
      rw [hvalue]
      exact Multiset.card_pos.mpr hempty
    · exact hrunning call hcall

theorem phase_finish (hs : Phase s) {call : Call Owner} (ha : allowed s (.finish call)) :
    ∃ s', exec s (.finish call) = .ok s' ∧ Phase s' := by
  have hreturn : 0 < call.value →
      exec s (.finish call) = .ok { s with running := s.running.erase call } :=
    fun hpos => by rw [exec, if_pos hpos]
  cases hs with
  | held hobject hcount hheld hnone hrunning =>
    refine ⟨_, hreturn (hrunning call ha), .held hobject hcount hheld hnone ?_⟩
    exact fun c hc => hrunning c (Finset.mem_of_mem_erase hc)
  | @dying xo last hobject hheld hcall hzero hlast hnone hrunning =>
    by_cases heq : call = last
    · subst heq
      have hnot : ¬ call.value > 0 := by simp [hzero]
      refine ⟨_, exec_finish_zero hobject hnot, ?_⟩
      refine .destroyed hheld hlast (by simp only [hnone, List.nil_append]) (fun c hc => ?_)
      exact hrunning c (Finset.mem_of_mem_erase hc) (Finset.ne_of_mem_erase hc)
    · refine ⟨_, hreturn (hrunning call ha heq), .dying hobject hheld ?_ hzero hlast hnone ?_⟩
      · exact Finset.mem_erase.mpr ⟨Ne.symm heq, hcall⟩
      · exact fun c hc => hrunning c (Finset.mem_of_mem_erase hc)
  | destroyed hheld hlast hone hrunning =>
    refine ⟨_, hreturn (hrunning call ha), .destroyed hheld hlast hone ?_⟩
    exact fun c hc => hrunning c (Finset.mem_of_mem_erase hc)

theorem phase_handOver (hs : Phase s) {o : Owner} (o' : Owner) (ha : allowed s (.handOver o o')) :
    ∃ s', exec s (.handOver o o') = .ok s' ∧ Phase s' := by
  obtain ⟨xo, hobject, hcount, hnone, hrunning⟩ := hs.of_mem ha
  refine ⟨_, rfl, .held hobject ?_ Multiset.cons_ne_zero hnone hrunning⟩
  rw [Multiset.card_cons, Multiset.card_erase_add_one ha, hcount]

theorem phase_step {a : Action Owner} (hs : Phase s) (ha : allowed s a) :
    ∃ s', exec s a = .ok s' ∧ Phase s' := by
  cases a with
  | retain o => exact phase_retain hs ha
  | release o => exact phase_release hs ha
  | finish call => exact phase_finish hs ha
  | handOver o o' => exact phase_handOver hs o' ha

/-- However the calls of the owners interleave, no step touches a destroyed object, and
the object is destroyed once at most, by the release of the last reference. -/
theorem destroyed_by_last {tr : List (Action Owner × Except Fault (State Owner))} (hi : Initial s)
    (hr : Run (machine Owner) s tr) : ∀ p ∈ tr, Holds DestroyedByLast p.2 := by
  apply hr.holds (I := Phase) (C := fun _ _ => True)
  · exact fun _ _ hs ha _ => phase_step hs ha
  · exact fun _ => Phase.destroyedByLast
  · exact hi.phase
  · exact meets_true s tr

/-- An object just created, with one owner. -/
def created : State ℕ :=
  ⟨some ⟨0, 1, 1, .leaf (.bool true), trivial⟩, {0}, 0, ∅, [], none⟩

/-- A second owner; the first release, which has not seen zero, is over after the second. -/
theorem second_release_destroys : ∃ s₁ s₂ s₃ s₄ s₅ s₆,
    Run (machine ℕ) created [(.retain 0, .ok s₁), (.handOver 0 1, .ok s₂), (.release 0, .ok s₃),
      (.release 1, .ok s₄), (.finish ⟨1, 1, 0⟩, .ok s₅), (.finish ⟨0, 0, 1⟩, .ok s₆)] ∧
    (∀ p ∈ [((.retain 0, .ok s₁) : Action ℕ × Except Fault (State ℕ)), (.handOver 0 1, .ok s₂),
      (.release 0, .ok s₃), (.release 1, .ok s₄), (.finish ⟨1, 1, 0⟩, .ok s₅),
      (.finish ⟨0, 0, 1⟩, .ok s₆)], Holds DestroyedByLast p.2) ∧
    s₄.destroyers = [] ∧ s₆.destroyers = [1] ∧ s₆.object.isNone := by
  have hr : ∃ s₁ s₂ s₃ s₄ s₅ s₆,
      Run (machine ℕ) created [(.retain 0, .ok s₁), (.handOver 0 1, .ok s₂), (.release 0, .ok s₃),
        (.release 1, .ok s₄), (.finish ⟨1, 1, 0⟩, .ok s₅), (.finish ⟨0, 0, 1⟩, .ok s₆)] ∧
      s₄.destroyers = [] ∧ s₆.destroyers = [1] ∧ s₆.object.isNone := by
    refine ⟨_, _, _, _, _, _, .step ?_ rfl (.step ?_ rfl (.step ?_ rfl (.step ?_ rfl (.step ?_ rfl
      (.step ?_ rfl (.nil _)))))), rfl, rfl, rfl⟩
    all_goals
      simp only [machine]
      decide
  obtain ⟨s₁, s₂, s₃, s₄, s₅, s₆, hr, hend⟩ := hr
  exact ⟨s₁, s₂, s₃, s₄, s₅, s₆, hr, destroyed_by_last ⟨⟨_, rfl, rfl⟩, by decide, rfl, rfl⟩ hr, hend⟩

end OpenXPC.SharedOwners
