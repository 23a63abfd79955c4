import OpenXPC.DictionaryCounts
import OpenXPC.Encoding
import OpenXPC.Hashing

/-! # Bytes that are never written

A constructor writes one member of the union and leaves its other bytes as they
were, and so does the creation of a connection with the flag of a listener. What
`malloc` and the stack held before is a parameter of each run; two runs of the same
calls are compared. -/
namespace OpenXPC.UnwrittenBytes
open GuardedRuns

/-- What memory held where the first word of an object's union, or the `passive`
byte of a connection, came to lie. -/
structure Filling where
  word : ObjId → UInt64
  passive : ℕ → UInt8

/-- The heap, with the first word of each union. -/
structure Memory where
  heap : Heap (List ObjId)
  words : ObjId → UInt64

/-- What a constructor leaves in the union of the object it makes. -/
def Filling.wordOf (φ : Filling) (h : Heap (List ObjId)) (x : ObjId) : UInt64 :=
  match h.get x with
  | some o => match o.xoU with
    | .leaf v => v.unionWord (φ.word x)
    | _ => φ.word x
  | none => φ.word x

/-- A heap in which only constructors have made objects since. -/
def Memory.fill (φ : Filling) (m : Memory) (h : Heap (List ObjId)) : Memory :=
  ⟨h, fun x => if x < m.heap.size then m.words x else φ.wordOf h x⟩

/-! ## Copies -/

theorem leafSizeOk (v : Leaf) : (Payload.leaf v : Payload (List ObjId)).SizeOk v.size := v.sizeOk

/-- Scalars are copied with the whole union. -/
def copyLeafUnion (φ : Filling) (m : Memory) (obj : ObjId) (v : Leaf) : Memory × Option ObjId :=
  match v with
  | .bool _ | .int64 _ | .uint64 _ | .date _ | .endpoint _ =>
    let (h, xo) := xpcPrimCreate m.heap (.leaf v) v.size (leafSizeOk v)
    (⟨h, Function.update m.words xo (m.words obj)⟩, some xo)
  | _ =>
    let (h, xo) := copyLeaf m.heap v
    (m.fill φ h, xo)

/-- `xpc_copy`, with the unions. -/
def copyUnion (φ : Filling) : ℕ → Memory → ObjId → Except Fault (Memory × Option ObjId)
  | 0, _, _ => .error .outOfFuel
  | n + 1, m, obj => do
    let xo ← m.heap.deref obj
    match xo.xoU with
    | .leaf v => .ok (copyLeafUnion φ m obj v)
    | .dictionary _ => do
      let (h, xotmp) ← xpcDictionaryCreate m.heap []
      let (m, _) ← xpcDictionaryApplyFun h obj (fun k v m => do
        let (m, copy) ← copyUnion φ n m v
        let h ← dictCopyCb xotmp k m.heap copy
        .ok (m.fill φ h, true)) (m.fill φ h)
      .ok (m, some xotmp)
    | .array _ => do
      let (h, xotmp) ← Arrays.xpcArrayCreate m.heap []
      let (m, _) ← Arrays.xpcArrayApplyFun h obj (fun idx v m => do
        let (m, copy) ← copyUnion φ n m v
        let h ← arrayCopyCb xotmp idx m.heap copy
        .ok (m.fill φ h, true)) (m.fill φ h)
      .ok (m, some xotmp)

section Projection

variable {σ τ : Type} (g : σ → τ)

theorem xpcDictionaryApplyFun_map {A : Type} {f : CString → ObjId → σ → Except Fault (σ × Bool)}
    {f' : CString → ObjId → τ → Except Fault (τ × Bool)}
    (hf : ∀ k v s t, g s = t → (f k v s).map (fun r => (g r.1, r.2)) = f' k v t) (h : Heap A) (d : ObjId)
    (s : σ) :
    (xpcDictionaryApplyFun h d f s).map (fun r => (g r.1, r.2)) =
      xpcDictionaryApplyFun h d f' (g s) := by
  unfold xpcDictionaryApplyFun
  cases h.deref d with
  | error e => rfl
  | ok o =>
    cases hps : o.dict with
    | error e => simp [hps, Except.map]
    | ok ps => simpa [hps] using applyPairs_map g hf ps s

theorem xpcArrayApplyFun_map {f : ℕ → ObjId → σ → Except Fault (σ × Bool)}
    {f' : ℕ → ObjId → τ → Except Fault (τ × Bool)}
    (hf : ∀ i v s t, g s = t → (f i v s).map (fun r => (g r.1, r.2)) = f' i v t)
    (h : Heap (List ObjId)) (a : ObjId) (s : σ) :
    (Arrays.xpcArrayApplyFun h a f s).map (fun r => (g r.1, r.2)) =
      Arrays.xpcArrayApplyFun h a f' (g s) := by
  unfold Arrays.xpcArrayApplyFun
  cases h.deref a with
  | error e => rfl
  | ok o =>
    cases hes : o.arr with
    | error e => simp [hes, Except.map]
    | ok es => simpa [hes] using applyElems_map g hf 0 es s

end Projection

variable {φ ψ : Filling} {m m' : Memory} {h h' : Heap (List ObjId)} {x n : ℕ}

theorem copyLeafUnion_heap (φ : Filling) (m : Memory) (x : ObjId) (v : Leaf) :
    ((copyLeafUnion φ m x v).1.heap, (copyLeafUnion φ m x v).2) = copyLeaf m.heap v := by
  cases v <;> rfl

/-- The unions play no part in what is copied. -/
theorem copyUnion_heap (φ : Filling) (n : ℕ) (m : Memory) (x : ObjId) :
    (copyUnion φ n m x).map (fun r => (r.1.heap, r.2)) = xpcCopy n m.heap x := by
  induction n generalizing m x with
  | zero => rfl
  | succ n ih =>
    -- the two callbacks differ in the unions alone
    have hdict : ∀ xotmp k v (m : Memory) h, m.heap = h → ((do
          let (m, copy) ← copyUnion φ n m v
          let h ← dictCopyCb xotmp k m.heap copy
          .ok (m.fill φ h, true)) : Except Fault (Memory × Bool)).map (fun r => (r.1.heap, r.2)) = (do
          let (h, copy) ← xpcCopy n h v
          let h ← dictCopyCb xotmp k h copy
          .ok (h, true)) := by
      rintro xotmp k v m _ rfl
      rw [← ih]
      cases copyUnion φ n m v with
      | error e => rfl
      | ok r =>
        simp only [Except.map, ok_bind]
        cases dictCopyCb xotmp k r.1.heap r.2 <;> rfl
    have harray : ∀ xotmp i v (m : Memory) h, m.heap = h → ((do
          let (m, copy) ← copyUnion φ n m v
          let h ← arrayCopyCb xotmp i m.heap copy
          .ok (m.fill φ h, true)) : Except Fault (Memory × Bool)).map (fun r => (r.1.heap, r.2)) = (do
          let (h, copy) ← xpcCopy n h v
          let h ← arrayCopyCb xotmp i h copy
          .ok (h, true)) := by
      rintro xotmp i v m _ rfl
      rw [← ih]
      cases copyUnion φ n m v with
      | error e => rfl
      | ok r =>
        simp only [Except.map, ok_bind]
        cases arrayCopyCb xotmp i r.1.heap r.2 <;> rfl
    unfold copyUnion xpcCopy
    cases hd : m.heap.deref x with
    | error e => rfl
    | ok o =>
      simp only [ok_bind]
      cases hu : o.xoU with
      | leaf v => exact congrArg Except.ok (copyLeafUnion_heap φ m x v)
      | dictionary ps =>
        cases hc : xpcDictionaryCreate m.heap [] with
        | error e => rfl
        | ok r =>
          simp only [ok_bind]
          have happly := xpcDictionaryApplyFun_map Memory.heap (hdict r.2) r.1 x (m.fill φ r.1)
          rw [show (m.fill φ r.1).heap = r.1 from rfl] at happly
          rw [← happly]
          cases xpcDictionaryApplyFun r.1 x _ (m.fill φ r.1) <;> rfl
      | array es =>
        cases hc : Arrays.xpcArrayCreate m.heap [] with
        | error e => rfl
        | ok r =>
          simp only [ok_bind]
          have happly := xpcArrayApplyFun_map Memory.heap (harray r.2) r.1 x (m.fill φ r.1)
          rw [show (m.fill φ r.1).heap = r.1 from rfl] at happly
          rw [← happly]
          cases Arrays.xpcArrayApplyFun r.1 x _ (m.fill φ r.1) <;> rfl

/-! ## Words that are written whole -/

/-- The values whose constructor writes all of the first word. -/
def WholeWord : Leaf → Prop
  | .int64 _ | .uint64 _ | .date _ | .endpoint _ => True
  | _ => False

theorem unionWord_of_wholeWord {v : Leaf} (hv : WholeWord v) (garbage : UInt64) :
    v.unionWord garbage = v.unionWord 0 := by
  cases v <;> first | rfl | exact hv.elim

/-- Every number in the heap has its own bits as its word. -/
def Written (m : Memory) : Prop :=
  ∀ x o v, m.heap.get x = some o → o.xoU = .leaf v → WholeWord v → m.words x = v.unionWord 0

/-- No object has become a value it was not. -/
structure KeepsLeaves (h h' : Heap (List ObjId)) : Prop where
  size_le : h.size ≤ h'.size
  leaf : ∀ x o' v, x < h.size → h'.get x = some o' → o'.xoU = .leaf v →
    ∃ o, h.get x = some o ∧ o.xoU = .leaf v

namespace KeepsLeaves

variable {h'' : Heap (List ObjId)} {o old : XpcObject (List ObjId)}

theorem refl (h : Heap (List ObjId)) : KeepsLeaves h h :=
  ⟨Nat.le_refl _, fun _ o' _ _ hx hu => ⟨o', hx, hu⟩⟩

theorem trans (h₁ : KeepsLeaves h h') (h₂ : KeepsLeaves h' h'') : KeepsLeaves h h'' := by
  refine ⟨Nat.le_trans h₁.size_le h₂.size_le, fun x o'' v hlt hx hu => ?_⟩
  obtain ⟨o', hx', hu'⟩ := h₂.leaf x o'' v (Nat.lt_of_lt_of_le hlt h₁.size_le) hx hu
  exact h₁.leaf x o' v hlt hx' hu'

theorem alloc (h : Heap (List ObjId)) (o : XpcObject (List ObjId)) : KeepsLeaves h (h.alloc o).1 := by
  refine ⟨by simp, fun x o' v hlt hx hu => ?_⟩
  rw [Heap.get_alloc, if_neg (Nat.ne_of_lt hlt)] at hx
  exact ⟨o', hx, hu⟩

theorem free (h : Heap (List ObjId)) (x : ObjId) : KeepsLeaves h (h.free x) := by
  refine ⟨by simp, fun y o' v _ hy hu => ?_⟩
  rw [Heap.get_free] at hy
  split_ifs at hy
  exact ⟨o', hy, hu⟩

theorem set (hx : h.get x = some old) (ho : ∀ v, o.xoU = .leaf v → old.xoU = .leaf v) :
    KeepsLeaves h (h.set x o) := by
  refine ⟨by simp, fun y o' v _ hy hu => ?_⟩
  rw [Heap.get_set hx] at hy
  split_ifs at hy with hyx
  · cases hy
    exact ⟨old, hyx ▸ hx, ho v hu⟩
  · exact ⟨o', hy, hu⟩

theorem retain (he : xpcRetain h x = .ok h') : KeepsLeaves h h' := by
  obtain ⟨o, ho, he⟩ := bind_eq_ok.mp he
  cases he
  exact set (Heap.get_of_deref ho) (fun _ hu => hu)

theorem dictionarySet {d v : ObjId} {k : CString} (he : xpcDictionarySetValue h d k v = .ok h') :
    KeepsLeaves h h' := by
  obtain ⟨o, ps, hd, -, hcase⟩ := xpcDictionarySetValue_cases he
  have hset : ∀ qs n, KeepsLeaves h (h.set d (o.withPairs qs n)) :=
    fun _ _ => set hd (fun _ => nofun)
  rcases hcase with ⟨qs, -, rfl⟩ | ⟨-, he⟩
  · exact hset _ _
  · exact (hset _ _).trans (retain he)

theorem arrayAppend {a v : ObjId} (he : Arrays.xpcArrayAppendValue h a v = .ok h') :
    KeepsLeaves h h' := by
  obtain ⟨o, es, ha, -, he⟩ := Arrays.xpcArrayAppendValue_cases he
  exact (set ha (fun _ hu => by cases hu)).trans (retain he)

theorem arraySet {a i v : ℕ} (he : Arrays.xpcArraySetValue h a i v = .ok h') : KeepsLeaves h h' := by
  rcases Arrays.xpcArraySetValue_cases he with he | rfl | ⟨o, es, old, h₁, ha, -, hretain, rfl⟩
  · exact arrayAppend he
  · exact refl _
  · exact ((set ha (fun _ hu => by cases hu)).trans (retain hretain)).trans (free _ _)

theorem foldlM {α : Type} {f : Heap (List ObjId) → α → Except Fault (Heap (List ObjId))}
    (hf : ∀ h h' a, f h a = .ok h' → KeepsLeaves h h') {as : List α}
    (he : as.foldlM f h = .ok h') : KeepsLeaves h h' :=
  foldlM_preserves (fun _ _ _ hkeep hstep => hkeep.trans (hf _ _ _ hstep)) (refl h) he

/-- Relative to an earlier heap this is kept by all that is built. -/
theorem closed (h₀ : Heap (List ObjId)) : DictionaryCounts.Closed (KeepsLeaves h₀) where
  leafCreate := fun _ _ hh => hh.trans (alloc _ _)
  dictionaryCreate := by
    intro h h' d hh he
    cases he
    exact hh.trans (alloc _ _)
  dictionarySet := fun _ _ _ _ _ hh he => hh.trans (dictionarySet he)
  arrayCreate := by
    intro h h' a hh he
    cases he
    exact hh.trans (alloc _ _)
  arraySet := fun _ _ _ _ _ hh he => hh.trans (arraySet he)

end KeepsLeaves

theorem Written.fill (hm : Written m) (hk : KeepsLeaves m.heap h) (φ : Filling) :
    Written (m.fill φ h) := by
  intro x o v hx hu hv
  by_cases hlt : x < m.heap.size
  · obtain ⟨o', hx', hu'⟩ := hk.leaf x o v hlt hx hu
    simp only [Memory.fill, if_pos hlt]
    exact hm x o' v hx' hu' hv
  · have hx : h.get x = some o := hx
    simp [Memory.fill, hlt, Filling.wordOf, hx, hu, unionWord_of_wholeWord hv]

theorem Written.copyLeafUnion {v : Leaf} {o : XpcObject (List ObjId)} (hm : Written m)
    (hx : m.heap.get x = some o) (hu : o.xoU = .leaf v) (φ : Filling) :
    Written (copyLeafUnion φ m x v).1 := by
  have hscalar : Written ⟨(leafCreate m.heap v).1,
      Function.update m.words m.heap.size (m.words x)⟩ := by
    intro y p w hy hpu hw
    have hy : (leafCreate m.heap v).1.get y = some p := hy
    rw [leafCreate, xpcPrimCreate, xpcPrimCreateFlags, Heap.get_alloc] at hy
    split_ifs at hy with hnew
    · cases hy
      cases hpu
      simp only [hnew, Function.update_self]
      exact hm x o v hx hu hw
    · simp only [Function.update_of_ne hnew]
      exact hm y p w hy hpu hw
  cases v with
  | bool | int64 | uint64 | date | endpoint => exact hscalar
  | null | double | fd | uuid | connection => exact hm.fill (KeepsLeaves.refl _) φ
  | string | data => exact hm.fill (KeepsLeaves.alloc _ _) φ

theorem Written.copyUnion {r : Option ObjId} (hm : Written m)
    (he : copyUnion φ n m x = .ok (m', r)) : Written m' := by
  induction n generalizing m x m' r with
  | zero => cases he
  | succ n ih =>
    obtain ⟨o, ho, he⟩ := bind_eq_ok.mp he
    cases hu : o.xoU with
    | leaf v =>
      simp only [hu, Except.ok.injEq] at he
      have hcopy := hm.copyLeafUnion (Heap.get_of_deref ho) hu φ
      rwa [he] at hcopy
    | dictionary ps =>
      simp only [hu] at he
      obtain ⟨⟨h₁, d⟩, hcreate, he⟩ := bind_eq_ok.mp he
      obtain ⟨⟨m₂, go⟩, happly, he⟩ := bind_eq_ok.mp he
      cases he
      obtain ⟨o₁, -, happly⟩ := bind_eq_ok.mp happly
      obtain ⟨qs, -, happly⟩ := bind_eq_ok.mp happly
      have hcreated := (KeepsLeaves.closed m.heap).dictionaryCreate _ _ _ (KeepsLeaves.refl _) hcreate
      refine applyPairs_preserves ?_ (hm.fill hcreated φ) happly
      intro k v m₃ m₄ b hm₃ hstep
      obtain ⟨⟨m₅, copy⟩, hcopy, hstep⟩ := bind_eq_ok.mp hstep
      obtain ⟨h₄, hset, hstep⟩ := bind_eq_ok.mp hstep
      cases hstep
      have hset := (KeepsLeaves.closed m₅.heap).dictCopyCb (KeepsLeaves.refl _) hset
      exact (ih hm₃ hcopy).fill hset φ
    | array es =>
      simp only [hu] at he
      obtain ⟨⟨h₁, a⟩, hcreate, he⟩ := bind_eq_ok.mp he
      obtain ⟨⟨m₂, go⟩, happly, he⟩ := bind_eq_ok.mp he
      cases he
      obtain ⟨o₁, -, happly⟩ := bind_eq_ok.mp happly
      obtain ⟨qs, -, happly⟩ := bind_eq_ok.mp happly
      have hcreated := (KeepsLeaves.closed m.heap).arrayCreate _ _ _ (KeepsLeaves.refl _) hcreate
      refine applyElems_preserves ?_ (hm.fill hcreated φ) happly
      intro i v m₃ m₄ b hm₃ hstep
      obtain ⟨⟨m₅, copy⟩, hcopy, hstep⟩ := bind_eq_ok.mp hstep
      obtain ⟨h₄, hset, hstep⟩ := bind_eq_ok.mp hstep
      cases hstep
      have hset := (KeepsLeaves.closed m₅.heap).arrayCopyCb (KeepsLeaves.refl _) hset
      exact (ih hm₃ hcopy).fill hset φ

/-! ## Hashes -/

/-- No boolean is reached from the object through slots. -/
def NoBoolBelow (h : Heap (List ObjId)) (x : ObjId) : Prop :=
  ∀ y o b, Relation.ReflTransGen h.Slot x y → h.get y = some o → o.xoU ≠ .leaf (.bool b)

/-- Without a boolean only words are read that were written whole. -/
theorem xpcHash_written (hm : Written m) (hb : NoBoolBelow m.heap x) (n : ℕ) :
    xpcHash m.words m.heap n x = xpcHash (zeroFilled m.heap) m.heap n x := by
  refine xpcHash_congr (fun _ _ => rfl) ?_ ?_ hb n
  · intro y o v hy ho hu hv
    have hwhole : WholeWord v := by
      cases v with
      | bool b => exact absurd hu (hy y o b .refl ho)
      | _ => exact hv
    rw [hm y o v ho hu hwhole]
    simp [zeroFilled, ho, hu]
  · exact fun y z hy hyz z' o b hzz' => hy z' o b (.head hyz hzz')

/-! ## Runs -/

/-- The constructors and insertions; the typed ones are those with a value. -/
inductive Build
  | leaf (v : Leaf)
  | dictionary (entries : Pairs)
  | array (objects : List ObjId)
  | dictionarySetValue (xdict : ObjId) (key : CString) (value : ObjId)
  | dictionarySetLeaf (xdict : ObjId) (key : CString) (v : Leaf)
  | arrayAppendValue (xarray value : ObjId)
  | arraySetValue (xarray : ObjId) (index : ℕ) (value : ObjId)
  | arraySetLeaf (xarray : ObjId) (index : ℕ) (v : Leaf)

def build (h : Heap (List ObjId)) : Build → Except Fault (Heap (List ObjId))
  | .leaf v => .ok (leafCreate h v).1
  | .dictionary entries => (xpcDictionaryCreate h entries).map Prod.fst
  | .array objects => (Arrays.xpcArrayCreate h objects).map Prod.fst
  | .dictionarySetValue d k v => xpcDictionarySetValue h d k v
  | .dictionarySetLeaf d k v => dictionarySetLeaf h d k v
  | .arrayAppendValue a v => Arrays.xpcArrayAppendValue h a v
  | .arraySetValue a i v => Arrays.xpcArraySetValue h a i v
  | .arraySetLeaf a i v => Arrays.arraySetLeaf h a i v

inductive Call
  | build (b : Build)
  | copy (fuel : ℕ) (obj : ObjId)
  | hash (fuel : ℕ) (obj : ObjId)
  | connectionCreateMachService (flags : UInt64)
  | connectionSendMessage (xconn : ℕ) (xmsg : Tree) (f : Pattern)

/-- A connection, with the flag it was created with. -/
structure Connection where
  listener : Bool
  passive : Bool

inductive Output
  | hash (value : UInt64)
  | send (listener refused : Bool)
  deriving DecidableEq

structure State where
  mem : Memory
  connections : List Connection
  outputs : List Output

def initial : State := ⟨⟨⟨[]⟩, fun _ => 0⟩, [], []⟩

/-- `XPC_CONNECTION_MACH_SERVICE_LISTENER` -/
def machServiceListener : UInt64 := 1

/-- A listener that does not get its name ends the process. -/
def connectionCreate (φ : Filling) (s : State) (flags : UInt64) : State :=
  let listener := flags &&& machServiceListener != 0
  let passive := if listener then true else φ.passive s.connections.length != 0
  { s with connections := s.connections ++ [⟨listener, passive⟩] }

def connectionSend (φ : Filling) (s : State) (xconn : ℕ) (xmsg : Tree) (f : Pattern) :
    Except Fault State :=
  match s.connections[xconn]? with
  | none => .error .dangling
  | some conn =>
    let outputs := s.outputs ++ [.send conn.listener conn.passive]
    match xpcConnectionSendMessage conn.passive f xmsg with
    | none => .ok { s with outputs }
    -- it is the message sent that is deserialised, and the object is dropped
    | some body => do
      let (h, _) ← deserialiseMessage s.mem.heap body
      .ok { s with outputs, mem := s.mem.fill φ h }

def exec (φ : Filling) (s : State) : Call → Except Fault State
  | .build b => do
    let h ← build s.mem.heap b
    .ok { s with mem := s.mem.fill φ h }
  | .copy n x => do
    let (m, _) ← copyUnion φ n s.mem x
    .ok { s with mem := m }
  | .hash n x => do
    let value ← xpcHash s.mem.words s.mem.heap n x
    .ok { s with outputs := s.outputs ++ [.hash value] }
  | .connectionCreateMachService flags => .ok (connectionCreate φ s flags)
  | .connectionSendMessage c t f => connectionSend φ s c t f

/-- Only a build for Mach makes endpoints. -/
def Build.Available : Build → Prop
  | .leaf (.endpoint _) | .dictionarySetLeaf _ _ (.endpoint _) | .arraySetLeaf _ _ (.endpoint _) =>
    False
  | _ => True

/-- The calls that run to their end; what is sent is the tree of some object. -/
def allowed (s : State) : Call → Prop
  | .build b => b.Available ∧ ∃ h, build s.mem.heap b = .ok h
  | .copy n x => ∃ r, xpcCopy n s.mem.heap x = .ok r
  | .hash n x => ∃ r, xpcHash (zeroFilled s.mem.heap) s.mem.heap n x = .ok r
  | .connectionCreateMachService _ => True
  | .connectionSendMessage c t _ => c < s.connections.length ∧ ∃ x, TreeAt s.mem.heap x t

/-- The same calls, in two memories. -/
def machine (φ ψ : Filling) : Machine (State × State) Call Fault where
  allowed p call := allowed p.1 call ∧ allowed p.2 call
  exec p call := do
    let s ← exec φ p.1 call
    let s' ← exec ψ p.2 call
    .ok (s, s')

/-- Both runs have had the same results, and refused to send on listeners only. -/
structure SameResults (p : State × State) : Prop where
  outputs : p.1.outputs = p.2.outputs
  refused : ∀ listener refused, .send listener refused ∈ p.1.outputs → refused = listener

/-- Nothing that a constructor leaves alone is read. -/
def ReadsWritten (p : State × State) : Call → Prop
  | .hash _ x => NoBoolBelow p.1.mem.heap x
  | .connectionSendMessage c _ _ => ∀ conn, p.1.connections[c]? = some conn → conn.listener = true
  | _ => True

structure Paired (s s' : State) : Prop where
  heap : s.mem.heap = s'.mem.heap
  written : Written s.mem
  written' : Written s'.mem
  listeners : s.connections.map Connection.listener = s'.connections.map Connection.listener
  passive : ∀ conn ∈ s.connections, conn.listener = true → conn.passive = true
  passive' : ∀ conn ∈ s'.connections, conn.listener = true → conn.passive = true
  results : SameResults (s, s')

theorem keepsLeaves_build {b : Build} (he : build h b = .ok h') : KeepsLeaves h h' := by
  cases b with
  | leaf v =>
    cases he
    exact .alloc _ _
  | dictionary entries =>
    obtain ⟨r, hc, rfl⟩ := map_eq_ok.mp he
    obtain ⟨h₁, hsets, hr⟩ := bind_eq_ok.mp hc
    cases hr
    exact (KeepsLeaves.alloc _ _).trans (.foldlM (fun _ _ _ => .dictionarySet) hsets)
  | array objects =>
    obtain ⟨r, hc, rfl⟩ := map_eq_ok.mp he
    obtain ⟨h₁, happends, hr⟩ := bind_eq_ok.mp hc
    cases hr
    exact (KeepsLeaves.alloc _ _).trans (.foldlM (fun _ _ _ => .arrayAppend) happends)
  | dictionarySetValue d k v => exact .dictionarySet he
  | dictionarySetLeaf d k v => exact (KeepsLeaves.alloc _ _).trans (.dictionarySet he)
  | arrayAppendValue a v => exact .arrayAppend he
  | arraySetValue a i v => exact .arraySet he
  | arraySetLeaf a i v => exact (KeepsLeaves.alloc _ _).trans (.arraySet he)

theorem exists_copyUnion {r : Heap (List ObjId) × Option ObjId} (φ : Filling)
    (he : xpcCopy n m.heap x = .ok r) : ∃ m', copyUnion φ n m x = .ok (m', r.2) ∧ m'.heap = r.1 := by
  have hmap := copyUnion_heap φ n m x
  rw [he] at hmap
  obtain ⟨q, hc, rfl⟩ := map_eq_ok.mp hmap
  exact ⟨q.1, hc, rfl⟩

theorem SameResults.snoc {s s' t t' : State} (hr : SameResults (s, s')) {out : Output}
    (ht : t.outputs = s.outputs ++ [out]) (ht' : t'.outputs = s'.outputs ++ [out])
    (hout : ∀ listener refused, out = .send listener refused → refused = listener) :
    SameResults (t, t') := by
  refine ⟨?_, fun listener refused hmem => ?_⟩
  · rw [ht, ht', hr.outputs]
  · rw [ht, List.mem_append, List.mem_singleton] at hmem
    rcases hmem with hmem | hmem
    · exact hr.refused listener refused hmem
    · exact hout listener refused hmem.symm

theorem passive_connectionCreate {s : State} (φ : Filling) (flags : UInt64)
    (hs : ∀ conn ∈ s.connections, conn.listener = true → conn.passive = true) :
    ∀ conn ∈ (connectionCreate φ s flags).connections, conn.listener = true → conn.passive = true := by
  intro conn hmem hl
  rcases List.mem_append.mp hmem with hmem | hmem
  · exact hs conn hmem hl
  · obtain rfl := List.mem_singleton.mp hmem
    exact if_pos hl

/-- A connection created with the flag refuses to send. -/
theorem connectionSend_listener {s : State} {c : ℕ} {conn : Connection} (φ : Filling) (t : Tree)
    (f : Pattern) (hget : s.connections[c]? = some conn) (hl : conn.listener = true)
    (hs : ∀ conn ∈ s.connections, conn.listener = true → conn.passive = true) :
    connectionSend φ s c t f = .ok { s with outputs := s.outputs ++ [.send true true] } := by
  have hp := hs conn (List.mem_of_getElem? hget) hl
  simp [connectionSend, hget, xpcConnectionSendMessage, hl, hp]

theorem paired_step {s s' : State} {call : Call} (hp : Paired s s') (ha : allowed s call)
    (hc : ReadsWritten (s, s') call) :
    ∃ t t', exec φ s call = .ok t ∧ exec ψ s' call = .ok t' ∧ Paired t t' := by
  cases call with
  | build b =>
    obtain ⟨-, h, he⟩ := ha
    have hk := keepsLeaves_build he
    refine ⟨{ s with mem := s.mem.fill φ h }, { s' with mem := s'.mem.fill ψ h }, ?_, ?_, ?_⟩
    · simp [exec, he]
    · simp [exec, ← hp.heap, he]
    · exact { hp with
        heap := rfl
        written := hp.written.fill hk φ
        written' := hp.written'.fill (hp.heap ▸ hk) ψ
        results := ⟨hp.results.outputs, hp.results.refused⟩ }
  | copy n x =>
    obtain ⟨r, he⟩ := ha
    obtain ⟨m, hm, hheap⟩ := exists_copyUnion φ he
    obtain ⟨m', hm', hheap'⟩ := exists_copyUnion ψ (hp.heap ▸ he : xpcCopy n s'.mem.heap x = .ok r)
    refine ⟨{ s with mem := m }, { s' with mem := m' }, by simp [exec, hm], by simp [exec, hm'], ?_⟩
    exact { hp with
      heap := hheap.trans hheap'.symm
      written := hp.written.copyUnion hm
      written' := hp.written'.copyUnion hm'
      results := ⟨hp.results.outputs, hp.results.refused⟩ }
  | hash n x =>
    obtain ⟨value, he⟩ := ha
    have hb : NoBoolBelow s.mem.heap x := hc
    have hv := (xpcHash_written hp.written hb n).trans he
    have hv' := (xpcHash_written hp.written' (hp.heap ▸ hb) n).trans (hp.heap ▸ he)
    refine ⟨{ s with outputs := s.outputs ++ [.hash value] },
      { s' with outputs := s'.outputs ++ [.hash value] }, by simp [exec, hv], by simp [exec, hv'], ?_⟩
    exact { hp with results := hp.results.snoc rfl rfl (fun _ _ => nofun) }
  | connectionCreateMachService flags =>
    refine ⟨connectionCreate φ s flags, connectionCreate ψ s' flags, rfl, rfl, ?_⟩
    exact { hp with
      listeners := by simp [connectionCreate, hp.listeners]
      passive := passive_connectionCreate φ flags hp.passive
      passive' := passive_connectionCreate ψ flags hp.passive'
      results := ⟨hp.results.outputs, hp.results.refused⟩ }
  | connectionSendMessage c t f =>
    have hlt : c < s.connections.length := ha.1
    have hget : s.connections[c]? = some s.connections[c] := List.getElem?_eq_getElem hlt
    have hl := hc _ hget
    obtain ⟨conn', hget', hl'⟩ : ∃ conn', s'.connections[c]? = some conn' ∧ conn'.listener = true := by
      have hmap := congrArg (fun ls => ls[c]?) hp.listeners
      simp only [List.getElem?_map, hget, Option.map_some] at hmap
      obtain ⟨conn', hconn', hsame⟩ := Option.map_eq_some_iff.mp hmap.symm
      exact ⟨conn', hconn', hsame.trans hl⟩
    refine ⟨_, _, connectionSend_listener φ t f hget hl hp.passive,
      connectionSend_listener ψ t f hget' hl' hp.passive', ?_⟩
    refine { hp with results := hp.results.snoc rfl rfl ?_ }
    rintro _ _ ⟨⟩
    rfl

theorem paired_initial : Paired initial initial where
  heap := rfl
  written := fun _ _ _ hx => by cases hx
  written' := fun _ _ _ hx => by cases hx
  listeners := rfl
  passive := fun _ hmem => by cases hmem
  passive' := fun _ hmem => by cases hmem
  results := ⟨rfl, fun _ _ hmem => by cases hmem⟩

/-- The same calls have the same results in any two memories, and a send is refused
exactly on a listener, as long as no hash reaches a boolean and messages are sent on
listeners only. -/
theorem sameResults_of_readsWritten (φ ψ : Filling)
    {tr : List (Call × Except Fault (State × State))} (hr : Run (machine φ ψ) (initial, initial) tr)
    (hc : Meets ReadsWritten (initial, initial) tr) : ∀ p ∈ tr, Holds SameResults p.2 := by
  refine hr.holds (I := fun p => Paired p.1 p.2) (fun p call hp ha hc => ?_) (fun p hp => hp.results)
    paired_initial hc
  obtain ⟨t, t', he, he', hpaired⟩ := @paired_step φ ψ _ _ _ hp ha.1 hc
  exact ⟨(t, t'), by simp [machine, he, he'], hpaired⟩

def zeros : Filling := ⟨fun _ => 0, fun _ => 0⟩

def ones : Filling := ⟨fun _ => 0xffffffffffffffff, fun _ => 0xff⟩

/-- A number is hashed and its message refused by a listener. -/
theorem number_sameResults : ∃ p₁ p₂ p₃ p₄, Run (machine zeros ones) (initial, initial)
      [(.build (.leaf (.int64 5)), .ok p₁), (.hash 1 0, .ok p₂),
        (.connectionCreateMachService 1, .ok p₃),
        (.connectionSendMessage 0 (.leaf (.int64 5)) noFailure, .ok p₄)] ∧
    p₄.1.outputs = [.hash 5, .send true true] ∧ SameResults p₄ := by
  have hr : ∃ p₁ p₂ p₃ p₄, Run (machine zeros ones) (initial, initial)
      [(.build (.leaf (.int64 5)), .ok p₁), (.hash 1 0, .ok p₂),
        (.connectionCreateMachService 1, .ok p₃),
        (.connectionSendMessage 0 (.leaf (.int64 5)) noFailure, .ok p₄)] ∧
      p₄.1.outputs = [.hash 5, .send true true] ∧
      p₁.1.mem.heap.objs = [some ⟨0, 1, 1, .leaf (.int64 5), trivial⟩] ∧
      p₃.1.connections = [⟨true, true⟩] := by
    have ht : ∀ words, TreeAt (Memory.heap ⟨⟨[some ⟨0, 1, 1, .leaf (.int64 5), trivial⟩]⟩, words⟩) 0
        (.leaf (.int64 5)) := fun _ => ⟨Nat.le_refl 0, _, rfl, rfl⟩
    exact ⟨_, _, _, _, .step ⟨⟨trivial, _, rfl⟩, trivial, _, rfl⟩ rfl
      (.step ⟨⟨_, rfl⟩, _, rfl⟩ rfl (.step ⟨trivial, trivial⟩ rfl
      (.step ⟨⟨Nat.one_pos, 0, ht _⟩, Nat.one_pos, 0, ht _⟩ rfl (.nil _)))), rfl, rfl, rfl⟩
  obtain ⟨p₁, p₂, p₃, p₄, hr, hout, hobjs, hconns⟩ := hr
  have hall := sameResults_of_readsWritten zeros ones hr ⟨trivial, ?_, trivial, ?_, trivial⟩
  · have hlast := hall (.connectionSendMessage 0 (.leaf (.int64 5)) noFailure, .ok p₄) (by simp)
    exact ⟨p₁, p₂, p₃, p₄, hr, hout, holds_ok.mp hlast⟩
  · intro y o b _ hy hu
    have hmem := Heap.mem_of_get hy
    rw [hobjs] at hmem
    obtain rfl := Option.some.inj (List.mem_singleton.mp hmem)
    cases hu
  · intro conn hget
    rw [hconns] at hget
    cases hget
    rfl

/-- The hash of `true`, and the decision to send on a connection that was not made
a listener, depend on what was in memory. -/
theorem results_differ :
    (∃ p₁ p₂, Run (machine zeros ones) (initial, initial)
        [(.build (.leaf (.bool true)), .ok p₁), (.hash 1 0, .ok p₂)] ∧
      p₂.1.outputs = [.hash 1] ∧ p₂.2.outputs = [.hash 0xffffffffffffff01] ∧ ¬ SameResults p₂) ∧
    ∃ p₁ p₂ p₃, Run (machine zeros ones) (initial, initial)
        [(.build (.leaf .null), .ok p₁), (.connectionCreateMachService 0, .ok p₂),
          (.connectionSendMessage 0 (.leaf .null) noFailure, .ok p₃)] ∧
      p₃.1.outputs = [.send false false] ∧ p₃.2.outputs = [.send false true] ∧
      ¬ SameResults p₃ := by
  constructor
  · refine ⟨_, _, .step ⟨⟨trivial, _, rfl⟩, trivial, _, rfl⟩ rfl
      (.step ⟨⟨_, rfl⟩, _, rfl⟩ rfl (.nil _)), rfl, by decide, fun h => ?_⟩
    exact absurd h.outputs (by decide)
  · have ht : ∀ words, TreeAt (Memory.heap ⟨⟨[some ⟨0, 1, 0, .leaf .null, trivial⟩]⟩, words⟩) 0
        (.leaf .null) := fun _ => ⟨Nat.le_refl 0, _, rfl, rfl⟩
    refine ⟨_, _, _, .step ⟨⟨trivial, _, rfl⟩, trivial, _, rfl⟩ rfl
      (.step ⟨trivial, trivial⟩ rfl (.step ⟨⟨Nat.one_pos, 0, ht _⟩, Nat.one_pos, 0, ht _⟩ rfl
      (.nil _))), rfl, by decide, fun h => ?_⟩
    exact absurd h.outputs (by decide)

end OpenXPC.UnwrittenBytes
