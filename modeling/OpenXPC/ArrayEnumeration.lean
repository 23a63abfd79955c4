import OpenXPC.GuardedRuns
import OpenXPC.LinkedArrays

/-! # What arrays enumerate when they share objects

An object carries one link, so it has one successor, whatever arrays it is in. A
run of creations and appends keeps every array enumerable exactly when it never
asks for two different successors of one object. -/
namespace OpenXPC.ArrayEnumeration
open TailQueue LinkedArrays GuardedRuns

inductive Op
  | create (objects : List ObjId)
  | append (xarray value : ObjId)
  | setAppend (xarray value : ObjId)

/-- The heap, and the objects appended to each created array so far. -/
structure State where
  m : LinkedHeap
  appended : ObjId → Option (List ObjId)

def appendedTo (s : State) (a v : ObjId) : ObjId → Option (List ObjId) :=
  Function.update s.appended a ((s.appended a).map (· ++ [v]))

def appendedAfter (s : State) : Op → ObjId → Option (List ObjId)
  | .create objects => Function.update s.appended s.m.heap.size (some objects)
  | .append a v => appendedTo s a v
  | .setAppend a v => appendedTo s a v

def execHeap (s : State) : Op → Except Fault LinkedHeap
  | .create objects => (xpcArrayCreate s.m objects).map Prod.fst
  | .append a v => xpcArrayAppendValue s.m a v
  | .setAppend a v => xpcArraySetValue s.m a xpcArrayAppend v

def exec (s : State) (op : Op) : Except Fault State := do
  let m ← execHeap s op
  .ok { m, appended := appendedAfter s op }

def Live (s : State) (v : ObjId) : Prop := ∃ o, s.m.heap.get v = some o

def allowed (s : State) : Op → Prop
  | .create objects => ∀ v ∈ objects, Live s v
  | .append a v => (s.appended a).isSome ∧ Live s v
  | .setAppend a v => (s.appended a).isSome ∧ Live s v

def machine : Machine State Op Fault := ⟨allowed, exec⟩

/-- Before the first creation: any objects, with anything in their link fields. -/
def Initial (s : State) : Prop := ∀ a, s.appended a = none

/-- Every array's traversal ends after visiting exactly the appended objects, in
order and with their indices. -/
def Enumerated (s : State) : Prop := ∀ a es, s.appended a = some es → Traverses s.m a es

/-- No array has an object twice, and an object of several arrays is followed by
the same object, or by none, in all of them. -/
def Coherent (appended : ObjId → Option (List ObjId)) : Prop :=
  ∀ a es, appended a = some es → es.Nodup ∧ ∀ b ks, appended b = some ks →
    ∀ x ∈ ks, x ∈ es → Links.successor x ks = Links.successor x es

def StaysCoherent (s : State) (op : Op) : Prop := Coherent (appendedAfter s op)

structure Invariant (s : State) : Prop where
  isArray : ∀ a es, s.appended a = some es → IsArray s.m.heap a
  enumerates : ∀ a es, s.appended a = some es → s.m.links.Enumerates a es

theorem invariant_initial {s : State} (hs : Initial s) : Invariant s :=
  ⟨fun a es h => by simp [hs a] at h, fun a es h => by simp [hs a] at h⟩

theorem Invariant.enumerated {s : State} (hs : Invariant s) : Enumerated s :=
  fun a es h => (traverses_iff (hs.isArray a es h)).mpr (hs.enumerates a es h).chain

/-- Two chains through one link store agree on the successors of common members. -/
theorem coherent_of_chains {q : Links ObjId ObjId} {appended : ObjId → Option (List ObjId)}
    (h : ∀ a es, appended a = some es → q.Chain (.first a) es) : Coherent appended := by
  intro a es ha
  refine ⟨(h a es ha).nodup, fun b ks hb x hxk hxe => ?_⟩
  rw [← (h a es ha).load_next hxe, ← (h b ks hb).load_next hxk]

/-- No object but `x` has been appended, and `x` to no array twice. -/
def AtMost (x : ObjId) (appended : ObjId → Option (List ObjId)) : Prop :=
  ∀ a es, appended a = some es → es = [] ∨ es = [x]

theorem AtMost.update {x : ObjId} {appended : ObjId → Option (List ObjId)} (h : AtMost x appended)
    (a : ObjId) {es : List ObjId} (he : es = [] ∨ es = [x]) :
    AtMost x (Function.update appended a (some es)) := by
  intro b ks hb
  by_cases hba : b = a
  · subst hba
    obtain rfl : es = ks := by simpa using hb
    exact he
  · exact h b ks (by simpa [hba] using hb)

theorem AtMost.coherent {x : ObjId} {appended : ObjId → Option (List ObjId)}
    (h : AtMost x appended) : Coherent appended := by
  have honly : ∀ {b y ks}, appended b = some ks → y ∈ ks → ks = [x] :=
    fun hb hy => (h _ _ hb).resolve_left (List.ne_nil_of_mem hy)
  intro a es ha
  constructor
  · cases h a es ha with
    | inl hnil => exact hnil ▸ List.nodup_nil
    | inr hone => exact hone ▸ List.nodup_singleton x
  · intro b ks hb y hyk hye
    rw [honly hb hyk, honly ha hye]

theorem appendAll_ok {m : LinkedHeap} {a : ObjId} (ha : IsArray m.heap a) (xs : List ObjId)
    (hv : ∀ x ∈ xs, ∃ w, m.heap.get x = some w) :
    ∃ m', xs.foldlM (fun m x => xpcArrayAppendValue m a x) m = .ok m' ∧ m.heap.Keeps m'.heap ∧
      m'.heap.size = m.heap.size ∧ m'.links = m.links.insertTails a xs := by
  induction xs generalizing m with
  | nil => exact ⟨m, rfl, Heap.Keeps.refl _, rfl, rfl⟩
  | cons x xs ih =>
    obtain ⟨w, hw⟩ := hv x List.mem_cons_self
    obtain ⟨m₁, he, hk, hsize, hl⟩ := xpcArrayAppendValue_ok ha hw
    have hv₁ : ∀ y ∈ xs, ∃ w, m₁.heap.get y = some w := by
      intro y hy
      obtain ⟨w, hw⟩ := hv y (List.mem_cons_of_mem _ hy)
      obtain ⟨w', hw', -⟩ := hk.get_of_get hw
      exact ⟨w', hw'⟩
    obtain ⟨m₂, he₂, hk₂, hsize₂, hl₂⟩ := ih (ha.keeps hk) hv₁
    refine ⟨m₂, ?_, hk.trans hk₂, hsize₂.trans hsize, ?_⟩
    · rw [List.foldlM_cons, he]
      exact he₂
    · rw [hl₂, hl]
      rfl

/-- Extending one array by a list of objects, seen on the links and the lists. -/
theorem Invariant.extend {s : State} (hs : Invariant s) {a : ObjId} {es xs : List ObjId}
    {m' : LinkedHeap} {q : Links ObjId ObjId} (hq : q.Enumerates a es)
    (hold : ∀ b ks, b ≠ a → s.appended b = some ks → q.Enumerates b ks)
    (ha : IsArray m'.heap a) (hk : s.m.heap.Keeps m'.heap) (hl : m'.links = q.insertTails a xs)
    (hc : Coherent (Function.update s.appended a (some (es ++ xs)))) :
    Invariant ⟨m', Function.update s.appended a (some (es ++ xs))⟩ := by
  obtain ⟨hn, hagree⟩ := hc a (es ++ xs) (by simp)
  obtain ⟨henum, hlast, hload⟩ := hq.insertTails hn
  constructor
  · intro b ks hb
    by_cases hba : b = a
    · exact hba ▸ ha
    · have hbk : s.appended b = some ks := by simpa [hba] using hb
      exact (hs.isArray b ks hbk).keeps hk
  · intro b ks hb
    simp only [hl]
    by_cases hba : b = a
    · subst hba
      obtain rfl : es ++ xs = ks := by simpa using hb
      exact henum
    · have hbk : s.appended b = some ks := by simpa [hba] using hb
      exact (hold b ks hba hbk).of_agree henum hba (hlast b hba) hload (hagree b ks hb)

theorem invariant_append {s : State} (hs : Invariant s) {a v : ObjId}
    (ha : (s.appended a).isSome) (hv : Live s v) (hc : Coherent (appendedTo s a v)) :
    ∃ m', xpcArrayAppendValue s.m a v = .ok m' ∧ Invariant ⟨m', appendedTo s a v⟩ := by
  obtain ⟨es, hes⟩ := Option.isSome_iff_exists.mp ha
  obtain ⟨w, hw⟩ := hv
  obtain ⟨m', he, hk, -, hl⟩ := xpcArrayAppendValue_ok (hs.isArray a es hes) hw
  have happ : appendedTo s a v = Function.update s.appended a (some (es ++ [v])) := by
    simp [appendedTo, hes]
  rw [happ] at hc ⊢
  exact ⟨m', he, hs.extend (hs.enumerates a es hes) (fun b ks _ hb => hs.enumerates b ks hb)
    ((hs.isArray a es hes).keeps hk) hk hl hc⟩

theorem invariant_create {s : State} (hs : Invariant s) {objects : List ObjId}
    (hv : ∀ v ∈ objects, Live s v) (hc : Coherent (appendedAfter s (.create objects))) :
    ∃ m' a, xpcArrayCreate s.m objects = .ok (m', a) ∧
      Invariant ⟨m', appendedAfter s (.create objects)⟩ := by
  let o : XpcObject Unit := ⟨0, 1, 0, .array (), trivial⟩
  have hkeep := s.m.heap.keeps_alloc o
  have hnew : IsArray (s.m.heap.alloc o).1 s.m.heap.size := ⟨o, by simp [Heap.get_alloc], rfl⟩
  have hlive : ∀ x ∈ objects, ∃ w, (s.m.heap.alloc o).1.get x = some w := by
    intro x hx
    obtain ⟨w, hw⟩ := hv x hx
    exact ⟨w, Heap.get_alloc_of_get hw o⟩
  let m₀ : LinkedHeap := ⟨(s.m.heap.alloc o).1, s.m.links.init s.m.heap.size⟩
  have hall := appendAll_ok (show IsArray m₀.heap s.m.heap.size from hnew) objects hlive
  obtain ⟨m', he, hk, -, hl⟩ := hall
  refine ⟨m', s.m.heap.size, ?_, ?_⟩
  · change (objects.foldlM (fun m x => xpcArrayAppendValue m s.m.heap.size x) m₀ >>= _) = _
    rw [he]
    rfl
  · exact hs.extend (Links.enumerates_init _ _)
      (fun b ks hb hbk => (hs.enumerates b ks hbk).init_other hb) (hnew.keeps hk) (hkeep.trans hk) hl hc

theorem invariant_step {s : State} {op : Op} (hs : Invariant s) (ha : allowed s op)
    (hc : StaysCoherent s op) : ∃ s', exec s op = .ok s' ∧ Invariant s' := by
  cases op with
  | create objects =>
    obtain ⟨m', a, he, hi⟩ := invariant_create hs ha hc
    exact ⟨_, by simp [exec, execHeap, he, Except.map], hi⟩
  | append a v =>
    obtain ⟨m', he, hi⟩ := invariant_append hs ha.1 ha.2 hc
    exact ⟨⟨m', appendedTo s a v⟩, by simp [exec, execHeap, he, appendedAfter], hi⟩
  | setAppend a v =>
    obtain ⟨m', he, hi⟩ := invariant_append hs ha.1 ha.2 hc
    have hset : xpcArraySetValue s.m a xpcArrayAppend v = .ok m' := by
      rw [xpcArraySetValue, if_pos rfl, he]
    exact ⟨⟨m', appendedTo s a v⟩, by simp [exec, execHeap, hset, appendedAfter], hi⟩

theorem appended_exec {s s' : State} {op : Op} (he : exec s op = .ok s') :
    s'.appended = appendedAfter s op := by
  obtain ⟨m, -, hm⟩ := bind_eq_ok.mp he
  cases hm
  rfl

/-- In a run of creations and appends on objects in any state, every array
enumerates exactly what was appended to it, in every state reached, if and only
if no step asks for an object to be in one array twice or to have two different
successors. -/
theorem enumerated_iff_staysCoherent {s : State} {tr : List (Op × Except Fault State)}
    (hs : Initial s) (hr : Run machine s tr) :
    (∀ p ∈ tr, Holds Enumerated p.2) ↔ Meets StaysCoherent s tr := by
  refine hr.holds_iff_meets (fun s op hs ha hc => invariant_step hs ha hc)
    (fun s hs => hs.enumerated) ?_ (invariant_initial hs)
  intro s op s' hs ha he hg
  rw [StaysCoherent, ← appended_exec he]
  exact coherent_of_chains (fun a es h => (hg a es h).chain)

/-- One boolean, and no array yet. -/
def oneObject : State where
  m := { heap := ⟨[some ⟨0, 1, 1, .leaf (.bool true), trivial⟩]⟩
         links := ⟨fun _ => none, .first, fun _ => none, .first⟩ }
  appended := fun _ => none

/-- The boolean is the last element of two arrays at once. -/
theorem last_of_two_enumerated :
    ∃ r₁ r₂ r₃ r₄, Run machine oneObject
        [(.create [], r₁), (.create [], r₂), (.append 1 0, r₃), (.setAppend 2 0, r₄)] ∧
      ∀ p ∈ [(Op.create [], r₁), (.create [], r₂), (.append 1 0, r₃), (.setAppend 2 0, r₄)],
        Holds Enumerated p.2 := by
  have hr : ∃ s₁ s₂ s₃ s₄, Run machine oneObject
      [(.create [], .ok s₁), (.create [], .ok s₂), (.append 1 0, .ok s₃),
        (.setAppend 2 0, .ok s₄)] ∧
      s₁.appended = Function.update oneObject.appended 1 (some []) ∧
      s₁.m.heap.size = 2 ∧
      s₂.appended = Function.update s₁.appended 2 (some []) ∧
      s₃.appended = Function.update s₂.appended 1 (some [0]) :=
    ⟨_, _, _, _, .step (by simp [machine, allowed]) rfl (.step (by simp [machine, allowed]) rfl
      (.step ⟨rfl, _, rfl⟩ rfl (.step ⟨rfl, _, rfl⟩ rfl (.nil _)))), rfl, rfl, rfl, rfl⟩
  obtain ⟨s₁, s₂, s₃, s₄, hr, h₁, hsize, h₂, h₃⟩ := hr
  have a₀ : AtMost 0 oneObject.appended := fun _ _ h => nomatch h
  have a₁ : AtMost 0 s₁.appended := h₁ ▸ a₀.update 1 (.inl rfl)
  have a₂ : AtMost 0 s₂.appended := h₂ ▸ a₁.update 2 (.inl rfl)
  have a₃ : AtMost 0 s₃.appended := h₃ ▸ a₂.update 1 (.inr rfl)
  have h₄ : appendedTo s₃ 2 0 = Function.update s₃.appended 2 (some [0]) := by
    simp [appendedTo, h₃, h₂]
  refine ⟨_, _, _, _, hr, (enumerated_iff_staysCoherent (fun _ => rfl) hr).mpr
    ⟨?_, ?_, ?_, ?_, trivial⟩⟩
  · exact (a₀.update 1 (.inl rfl)).coherent
  · rw [StaysCoherent, appendedAfter, hsize]
    exact (a₁.update 2 (.inl rfl)).coherent
  · have h : appendedTo s₂ 1 0 = s₃.appended := by
      simp [appendedTo, h₃, h₂, h₁]
    rw [StaysCoherent, appendedAfter, h]
    exact a₃.coherent
  · rw [StaysCoherent, appendedAfter, h₄]
    exact (a₃.update 2 (.inr rfl)).coherent

/-- Appending the same object twice to one array links it to itself. -/
theorem append_twice_not_enumerated :
    ∃ r₁ r₂ r₃, Run machine oneObject [(.create [], r₁), (.append 1 0, r₂), (.append 1 0, r₃)] ∧
      ¬ Holds Enumerated r₃ := by
  refine ⟨.ok _, .ok _, .ok _, .step (by simp [machine, allowed]) rfl
    (.step ⟨rfl, _, rfl⟩ rfl (.step ⟨rfl, _, rfl⟩ rfl (.nil _))), ?_⟩
  intro h
  have htwice := (holds_ok.mp h 1 [0, 0] rfl).chain.nodup
  simp at htwice

end OpenXPC.ArrayEnumeration
