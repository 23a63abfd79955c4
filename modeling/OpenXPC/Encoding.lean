import Mathlib.Data.Int.Notation
import OpenXPC.Trees
import OpenXPC.WireValues

/-! # Serialisation to message values

`append_xpc` reads an object through its type, the getters and the two apply
loops, that is, as a tree. Each call into the message library may fail, in any
pattern; a call that fails writes nothing, and neither does the closing of a
container whose opening has failed. -/
namespace OpenXPC
open Wire

/-! ## The message library -/

inductive Target
  | body
  | inside (c : Container)
  | unopened

structure Iter where
  target : Target
  content : List (Val CString)

def Iter.append (it : Iter) (vs : List (Val CString)) : Iter := { it with content := it.content ++ vs }

def appendBasic (ok : Bool) (it : Iter) (b : BasicVal CString) : Iter × Bool :=
  if ok then (it.append [.basic b], true) else (it, false)

/-- Only legal inside an array of that element type. -/
def appendFixedArray (ok : Bool) (it : Iter) (bytes : List UInt8) : Iter × Bool :=
  match ok, it.target with
  | true, .inside (.array (.basic .byte)) =>
    (it.append (bytes.map (fun b => .basic (.byte b))), true)
  | _, _ => (it, false)

def openContainer (ok : Bool) (c : Container) : Iter × Bool :=
  (⟨if ok then .inside c else .unopened, []⟩, ok)

def closeContainer (ok : Bool) (it sub : Iter) : Iter × Bool :=
  match ok, sub.target with
  | true, .inside c => (it.append [.container c sub.content], true)
  | ok, _ => (it, ok)

/-- The calls made for one object; those of the loops carry the index. -/
inductive Call
  | appendValue
  | openContainer
  | openEntry (i : ℕ)
  | appendKey (i : ℕ)
  | openVariant (i : ℕ)
  | closeVariant (i : ℕ)
  | closeEntry (i : ℕ)
  | closeContainer
  deriving DecidableEq

/-- Which calls succeed, by the path of indices to the object they are made for. -/
abbrev Pattern := List ℕ → Call → Bool

def noFailure : Pattern := fun _ _ => true

/-! ## The encoder -/

def xpcDbusType : Tree → Ty
  | .leaf (.bool _) => .basic .boolean
  | .leaf (.int64 _) => .basic .int64
  | .leaf (.uint64 _) => .basic .uint64
  | .leaf (.date _) => .basic .int64
  | .leaf (.string _) => .basic .string
  | .leaf (.data _) => .array (.basic .byte)
  | .dictionary _ => .array (.dictEntry .string .variant)
  | .array _ => .array .variant
  | .leaf (.fd _) => .basic .unixFd
  | .leaf _ => .basic .boolean

/-- `-ENOMEM` -/
def logOom : ℤ := -12

def appendLeaf (ok : Bool) (it : Iter) : Leaf → Iter × Bool
  | .bool val => appendBasic ok it (.boolean val)
  | .int64 val => appendBasic ok it (.int64 val)
  | .uint64 val => appendBasic ok it (.uint64 val)
  | .date val => appendBasic ok it (.int64 val)
  | .string val => appendBasic ok it (.string val)
  | .data bytes => appendFixedArray ok it bytes
  | .fd file => appendBasic ok it (.unixFd file)
  | .null | .double _ | .endpoint _ | .uuid _ | .connection _ => appendBasic ok it (.boolean false)

mutual

/-- The iterator afterwards, the results of the calls made, and the return value. -/
def appendXpc (f : Pattern) (path : List ℕ) : Tree → Iter → Iter × List Bool × ℤ
  | .leaf v, iter =>
    let (iter, r) := appendLeaf (f path .appendValue) iter v
    (iter, [r], 0)
  | .dictionary pairs, iter =>
    let (sub, r) := openContainer (f path .openContainer) (.array (.dictEntry .string .variant))
    let (sub, log, succ) := appendPairs f path 0 pairs sub
    if succ then
      let (iter, r') := closeContainer (f path .closeContainer) iter sub
      (iter, r :: log ++ [r'], if r' then 0 else logOom)
    else (iter, r :: log, logOom)
  | .array elems, iter =>
    let (sub, r) := openContainer (f path .openContainer) (.array .variant)
    let (sub, log, succ) := appendElems f path 0 elems sub
    if succ then
      let (iter, r') := closeContainer (f path .closeContainer) iter sub
      (iter, r :: log ++ [r'], if r' then 0 else logOom)
    else (iter, r :: log, logOom)

/-- The block of the dictionary branch, under `xpc_dictionary_apply`: it does not
look at what opening, appending and the nested `append_xpc` return. -/
def appendPairs (f : Pattern) (path : List ℕ) :
    ℕ → List (CString × Tree) → Iter → Iter × List Bool × Bool
  | _, [], sub => (sub, [], true)
  | i, (key, value) :: pairs, sub =>
    let (sub2, r₁) := openContainer (f path (.openEntry i)) .dictEntry
    let (sub2, r₂) := appendBasic (f path (.appendKey i)) sub2 (.string key)
    let (sub3, r₃) := openContainer (f path (.openVariant i)) (.variant (xpcDbusType value))
    let (sub3, log, _) := appendXpc f (path ++ [i]) value sub3
    let (sub2, r₄) := closeContainer (f path (.closeVariant i)) sub2 sub3
    if r₄ then
      let (sub, r₅) := closeContainer (f path (.closeEntry i)) sub sub2
      if r₅ then
        let (sub, log', succ) := appendPairs f path (i + 1) pairs sub
        (sub, [r₁, r₂, r₃] ++ log ++ [r₄, r₅] ++ log', succ)
      else (sub, [r₁, r₂, r₃] ++ log ++ [r₄, r₅], false)
    else (sub, [r₁, r₂, r₃] ++ log ++ [r₄], false)

def appendElems (f : Pattern) (path : List ℕ) : ℕ → List Tree → Iter → Iter × List Bool × Bool
  | _, [], sub => (sub, [], true)
  | i, value :: elems, sub =>
    let (sub2, r₁) := openContainer (f path (.openVariant i)) (.variant (xpcDbusType value))
    let (sub2, log, _) := appendXpc f (path ++ [i]) value sub2
    let (sub, r₂) := closeContainer (f path (.closeVariant i)) sub sub2
    if r₂ then
      let (sub, log', succ) := appendElems f path (i + 1) elems sub
      (sub, [r₁] ++ log ++ [r₂] ++ log', succ)
    else (sub, [r₁] ++ log ++ [r₂], false)

end

/-- The body of the message sent, if one is sent. -/
def xpcConnectionSendMessage (passive : Bool) (f : Pattern) (xmsg : Tree) :
    Option (List (Val CString)) :=
  if passive then none
  else
    let (iter, _, ret) := appendXpc f [] xmsg ⟨.body, []⟩
    if ret < 0 then none else some iter.content

/-! ## What is written when no call fails -/

def writtenLeaf : Leaf → List (Val CString)
  | .bool val => [.basic (.boolean val)]
  | .int64 val => [.basic (.int64 val)]
  | .uint64 val => [.basic (.uint64 val)]
  | .date val => [.basic (.int64 val)]
  | .string val => [.basic (.string val)]
  | .data _ => []
  | .fd file => [.basic (.unixFd file)]
  | .null | .double _ | .endpoint _ | .uuid _ | .connection _ => [.basic (.boolean false)]

mutual

def written : Tree → List (Val CString)
  | .leaf v => writtenLeaf v
  | .dictionary pairs => [.container (.array (.dictEntry .string .variant)) (writtenPairs pairs)]
  | .array elems => [.container (.array .variant) (writtenElems elems)]

def writtenPairs : List (CString × Tree) → List (Val CString)
  | [] => []
  | (key, value) :: pairs =>
    .container .dictEntry [.basic (.string key),
      .container (.variant (xpcDbusType value)) (written value)] :: writtenPairs pairs

def writtenElems : List Tree → List (Val CString)
  | [] => []
  | value :: elems =>
    .container (.variant (xpcDbusType value)) (written value) :: writtenElems elems

end

namespace Tree

def NoData (t : Tree) : Prop := t.All (fun | .leaf (.data _) => False | _ => True)

mutual

/-- Every call made for the tree succeeds. -/
def CallsSucceed (f : Pattern) (path : List ℕ) : Tree → Prop
  | .leaf _ => f path .appendValue
  | .dictionary pairs => f path .openContainer ∧ PairCallsSucceed f path 0 pairs ∧
      f path .closeContainer
  | .array elems => f path .openContainer ∧ ElemCallsSucceed f path 0 elems ∧
      f path .closeContainer

def PairCallsSucceed (f : Pattern) (path : List ℕ) : ℕ → List (CString × Tree) → Prop
  | _, [] => True
  | i, (_, value) :: pairs => (f path (.openEntry i) ∧ f path (.appendKey i) ∧
      f path (.openVariant i) ∧ CallsSucceed f (path ++ [i]) value ∧
      f path (.closeVariant i) ∧ f path (.closeEntry i)) ∧ PairCallsSucceed f path (i + 1) pairs

def ElemCallsSucceed (f : Pattern) (path : List ℕ) : ℕ → List Tree → Prop
  | _, [] => True
  | i, value :: elems => (f path (.openVariant i) ∧ CallsSucceed f (path ++ [i]) value ∧
      f path (.closeVariant i)) ∧ ElemCallsSucceed f path (i + 1) elems

end

end Tree

/-! ## One complete value of the declared type -/

theorem writtenPairs_eq_map (ps : List (CString × Tree)) :
    writtenPairs ps = ps.map (fun p => .container .dictEntry [.basic (.string p.1),
      .container (.variant (xpcDbusType p.2)) (written p.2)]) := by
  induction ps with
  | nil => rfl
  | cons p ps ih => rw [writtenPairs, ih, List.map_cons]

theorem writtenElems_eq_map (ts : List Tree) :
    writtenElems ts =
      ts.map (fun t => .container (.variant (xpcDbusType t)) (written t)) := by
  induction ts with
  | nil => rfl
  | cons t ts ih => rw [writtenElems, ih, List.map_cons]

theorem written_hasTy {t : Tree} (ht : t.NoData) :
    ∃ v, written t = [v] ∧ v.HasTy (xpcDbusType t) := by
  induction t with
  | leaf v =>
    cases v
    case data bytes => exact ht.elim
    all_goals exact ⟨_, rfl, Val.hasTy_basic.mpr rfl⟩
  | array ts ih =>
    refine ⟨_, rfl, Val.hasTy_array.mpr ⟨rfl, fun w hw => ?_⟩⟩
    rw [writtenElems_eq_map] at hw
    obtain ⟨t, hmem, rfl⟩ := List.mem_map.mp hw
    obtain ⟨v, hv, hty⟩ := ih t hmem ((Tree.all_array.mp ht).2 t hmem)
    exact Val.hasTy_variant.mpr ⟨rfl, v, hv, hty⟩
  | dictionary ps ih =>
    refine ⟨_, rfl, Val.hasTy_array.mpr ⟨rfl, fun w hw => ?_⟩⟩
    rw [writtenPairs_eq_map] at hw
    obtain ⟨p, hmem, rfl⟩ := List.mem_map.mp hw
    obtain ⟨v, hv, hty⟩ := ih p hmem ((Tree.all_dictionary.mp ht).2 p hmem)
    exact Val.hasTy_dictEntry (k := .string p.1) (Val.hasTy_variant.mpr ⟨rfl, v, hv, hty⟩)

/-- Where the code lets `append_xpc` write: the message body, or the variant
opened for the object. -/
def Iter.Accepts (it : Iter) (t : Tree) : Prop :=
  it.target = .body ∨ it.target = .inside (.variant (xpcDbusType t))

def Iter.NotBytes (it : Iter) : Prop := it.target ≠ .inside (.array (.basic .byte))

theorem Iter.Accepts.notBytes {it : Iter} {t : Tree} (h : it.Accepts t) : it.NotBytes := by
  rcases h with h | h <;> simp [NotBytes, h]

theorem appendLeaf_ok {it : Iter} (hit : it.NotBytes) (v : Leaf) :
    (appendLeaf true it v).1 = it.append (writtenLeaf v) := by
  cases v
  case data bytes =>
    have hnot : it.target ≠ .inside (.array (.basic .byte)) := hit
    simp only [appendLeaf, appendFixedArray, writtenLeaf, Iter.append, List.append_nil]
    split
    · rename_i ht
      exact absurd ht hnot
    · rfl
  all_goals rfl

theorem appendElems_ok {f : Pattern} {path : List ℕ} {i : ℕ} {ts : List Tree} (sub : Iter)
    (hf : Tree.ElemCallsSucceed f path i ts)
    (hone : ∀ t ∈ ts, ∀ path it, it.NotBytes → t.CallsSucceed f path →
      (appendXpc f path t it).1 = it.append (written t)) :
    (appendElems f path i ts sub).1 = sub.append (writtenElems ts) ∧
      (appendElems f path i ts sub).2.2 = true := by
  induction ts generalizing i sub with
  | nil => simp [appendElems, writtenElems, Iter.append]
  | cons t ts ih =>
    obtain ⟨⟨hopen, hcalls, hclose⟩, hrest⟩ := hf
    have hvalue := hone t List.mem_cons_self (path ++ [i])
      ⟨.inside (.variant (xpcDbusType t)), []⟩ (by simp [Iter.NotBytes]) hcalls
    have htail := fun sub => ih sub hrest (fun u hu => hone u (List.mem_cons_of_mem t hu))
    simp [appendElems, openContainer, closeContainer, hopen, hclose, hvalue, Iter.append, htail,
      writtenElems]

theorem appendPairs_ok {f : Pattern} {path : List ℕ} {i : ℕ} {ps : List (CString × Tree)}
    (sub : Iter) (hf : Tree.PairCallsSucceed f path i ps)
    (hone : ∀ p ∈ ps, ∀ path it, it.NotBytes → p.2.CallsSucceed f path →
      (appendXpc f path p.2 it).1 = it.append (written p.2)) :
    (appendPairs f path i ps sub).1 = sub.append (writtenPairs ps) ∧
      (appendPairs f path i ps sub).2.2 = true := by
  induction ps generalizing i sub with
  | nil => simp [appendPairs, writtenPairs, Iter.append]
  | cons p ps ih =>
    obtain ⟨k, t⟩ := p
    obtain ⟨⟨hentry, hkey, hopen, hcalls, hclose, hcloseEntry⟩, hrest⟩ := hf
    have hvalue := hone (k, t) List.mem_cons_self (path ++ [i])
      ⟨.inside (.variant (xpcDbusType t)), []⟩ (by simp [Iter.NotBytes]) hcalls
    have htail := fun sub => ih sub hrest (fun q hq => hone q (List.mem_cons_of_mem _ hq))
    simp [appendPairs, openContainer, closeContainer, appendBasic, hentry, hkey, hopen, hclose,
      hcloseEntry, hvalue, Iter.append, htail, writtenPairs]

/-- When every call of the tree succeeds, all of it is written. -/
theorem appendXpc_ok {f : Pattern} {path : List ℕ} {t : Tree} {it : Iter} (hit : it.NotBytes)
    (hf : t.CallsSucceed f path) : (appendXpc f path t it).1 = it.append (written t) := by
  induction t generalizing path it with
  | leaf v =>
    have hf : f path .appendValue = true := hf
    simp [appendXpc, written, hf, appendLeaf_ok hit]
  | array ts ih =>
    obtain ⟨hopen, helems, hclose⟩ := hf
    have hloop := appendElems_ok ⟨.inside (.array .variant), []⟩ helems
      (fun t ht path it hit hf => ih t ht hit hf)
    simp [appendXpc, openContainer, closeContainer, hopen, hclose, hloop, Iter.append, written]
  | dictionary ps ih =>
    obtain ⟨hopen, hpairs, hclose⟩ := hf
    have hloop := appendPairs_ok ⟨.inside (.array (.dictEntry .string .variant)), []⟩
      hpairs (fun p hp path it hit hf => ih p hp hit hf)
    simp [appendXpc, openContainer, closeContainer, hopen, hclose, hloop, Iter.append, written]

theorem elemCallsSucceed_noFailure {path : List ℕ} {i : ℕ} {ts : List Tree}
    (h : ∀ t ∈ ts, ∀ path, t.CallsSucceed noFailure path) :
    Tree.ElemCallsSucceed noFailure path i ts := by
  induction ts generalizing i with
  | nil => trivial
  | cons t ts ih =>
    exact ⟨⟨rfl, h t List.mem_cons_self _, rfl⟩, ih (fun u hu => h u (List.mem_cons_of_mem t hu))⟩

theorem pairCallsSucceed_noFailure {path : List ℕ} {i : ℕ} {ps : List (CString × Tree)}
    (h : ∀ p ∈ ps, ∀ path, p.2.CallsSucceed noFailure path) :
    Tree.PairCallsSucceed noFailure path i ps := by
  induction ps generalizing i with
  | nil => trivial
  | cons p ps ih =>
    exact ⟨⟨rfl, rfl, rfl, h p List.mem_cons_self _, rfl, rfl⟩,
      ih (fun q hq => h q (List.mem_cons_of_mem p hq))⟩

theorem callsSucceed_noFailure (t : Tree) (path : List ℕ) : t.CallsSucceed noFailure path := by
  induction t generalizing path with
  | leaf v => rfl
  | array ts ih => exact ⟨rfl, elemCallsSucceed_noFailure ih, rfl⟩
  | dictionary ps ih => exact ⟨rfl, pairCallsSucceed_noFailure ih, rfl⟩

/-- Exactly one value is appended, complete and of the type declared for the object. -/
def AppendsOne (t : Tree) : Prop :=
  ∀ path it, it.Accepts t → ∃ v, (appendXpc noFailure path t it).1 = it.append [v] ∧
    v.HasTy (xpcDbusType t)

theorem appendsOne_of_noData {t : Tree} (ht : t.NoData) : AppendsOne t := by
  intro path it hit
  obtain ⟨v, hv, hty⟩ := written_hasTy ht
  refine ⟨v, ?_, hty⟩
  rw [appendXpc_ok hit.notBytes (callsSucceed_noFailure t path), hv]

/-- At every position of a tree one complete value of the declared type is
appended if and only if the tree has no data object. -/
theorem appendsOne_iff_noData (t : Tree) : t.All AppendsOne ↔ t.NoData := by
  constructor
  · intro h
    induction t with
    | leaf v =>
      cases v
      case data bytes =>
        obtain ⟨v, hv, -⟩ := h [] ⟨.body, []⟩ (.inl rfl)
        simp [appendXpc, appendLeaf, appendFixedArray, Iter.append] at hv
      all_goals trivial
    | array ts ih =>
      exact Tree.all_array.mpr ⟨trivial, fun t ht => ih t ht ((Tree.all_array.mp h).2 t ht)⟩
    | dictionary ps ih =>
      exact Tree.all_dictionary.mpr
        ⟨trivial, fun p hp => ih p hp ((Tree.all_dictionary.mp h).2 p hp)⟩
  · intro h
    induction t with
    | leaf v => exact appendsOne_of_noData h
    | array ts ih =>
      exact Tree.all_array.mpr
        ⟨appendsOne_of_noData h, fun t ht => ih t ht ((Tree.all_array.mp h).2 t ht)⟩
    | dictionary ps ih =>
      exact Tree.all_dictionary.mpr
        ⟨appendsOne_of_noData h, fun p hp => ih p hp ((Tree.all_dictionary.mp h).2 p hp)⟩

/-- A data object writes nothing, and leaves the variant declared for it empty. -/
theorem data_not_appended :
    (appendXpc noFailure [] (.leaf (.data [1])) ⟨.body, []⟩).1.content = [] ∧
      (appendXpc noFailure [] (.array [.leaf (.data [1])]) ⟨.body, []⟩).1.content =
        [.container (.array .variant) [.container (.variant (.array (.basic .byte))) []]] ∧
      ¬ (Tree.leaf (.data [1])).All AppendsOne ∧
      ¬ (Tree.array [.leaf (.data [1])]).All AppendsOne := by
  have hdata : ¬ AppendsOne (.leaf (.data [1])) := by
    intro h
    obtain ⟨v, hv, -⟩ := h [] ⟨.body, []⟩ (.inl rfl)
    simp [appendXpc, appendLeaf, appendFixedArray, Iter.append] at hv
  refine ⟨rfl, rfl, hdata, fun h => ?_⟩
  exact hdata ((Tree.all_array.mp h).2 _ List.mem_cons_self)

/-! ## Failures and the return value -/

@[simp] theorem openContainer_snd (ok : Bool) (c : Container) : (openContainer ok c).2 = ok := rfl

@[simp] theorem closeContainer_snd (ok : Bool) (it sub : Iter) : (closeContainer ok it sub).2 = ok := by
  cases ok
  · rfl
  · unfold closeContainer
    split <;> simp_all

@[simp] theorem appendBasic_snd (ok : Bool) (it : Iter) (b : BasicVal CString) :
    (appendBasic ok it b).2 = ok := by cases ok <;> rfl

theorem notBytes_openVariant (ok : Bool) (sig : Ty) : (openContainer ok (.variant sig)).1.NotBytes := by
  cases ok <;> simp [openContainer, Iter.NotBytes]

/-- Every result in the log is a success. -/
def AllOk (log : List Bool) : Prop := ∀ r ∈ log, r = true

@[simp] theorem allOk_nil : AllOk [] := fun _ hr => absurd hr List.not_mem_nil

@[simp] theorem allOk_cons {r : Bool} {log : List Bool} : AllOk (r :: log) ↔ r = true ∧ AllOk log :=
  List.forall_mem_cons

@[simp] theorem allOk_append {log log' : List Bool} :
    AllOk (log ++ log') ↔ AllOk log ∧ AllOk log' := List.forall_mem_append

theorem appendElems_allOk {f : Pattern} {path : List ℕ} {i : ℕ} {ts : List Tree} (sub : Iter)
    (hone : ∀ t ∈ ts, ∀ path it, it.NotBytes →
      (AllOk (appendXpc f path t it).2.1 ↔ t.CallsSucceed f path ∧ t.NoData)) :
    AllOk (appendElems f path i ts sub).2.1 ↔
      Tree.ElemCallsSucceed f path i ts ∧ ∀ t ∈ ts, t.NoData := by
  induction ts generalizing i sub with
  | nil => simp [appendElems, Tree.ElemCallsSucceed]
  | cons t ts ih =>
    have hvalue := hone t List.mem_cons_self (path ++ [i]) _
      (notBytes_openVariant (f path (.openVariant i)) (xpcDbusType t))
    have htail := fun sub => ih (i := i + 1) sub
      (fun u hu => hone u (List.mem_cons_of_mem t hu))
    cases hclose : f path (.closeVariant i) with
    | false => simp [appendElems, hclose, Tree.ElemCallsSucceed]
    | true =>
      simp only [appendElems, closeContainer_snd, openContainer_snd, hclose, if_true, allOk_append,
        allOk_cons, allOk_nil, hvalue, htail, Tree.ElemCallsSucceed, List.forall_mem_cons]
      tauto

theorem appendPairs_allOk {f : Pattern} {path : List ℕ} {i : ℕ} {ps : List (CString × Tree)}
    (sub : Iter)
    (hone : ∀ p ∈ ps, ∀ path it, it.NotBytes →
      (AllOk (appendXpc f path p.2 it).2.1 ↔ p.2.CallsSucceed f path ∧ p.2.NoData)) :
    AllOk (appendPairs f path i ps sub).2.1 ↔
      Tree.PairCallsSucceed f path i ps ∧ ∀ p ∈ ps, p.2.NoData := by
  induction ps generalizing i sub with
  | nil => simp [appendPairs, Tree.PairCallsSucceed]
  | cons p ps ih =>
    obtain ⟨k, t⟩ := p
    have hvalue := hone (k, t) List.mem_cons_self (path ++ [i]) _
      (notBytes_openVariant (f path (.openVariant i)) (xpcDbusType t))
    have htail := fun sub => ih (i := i + 1) sub
      (fun q hq => hone q (List.mem_cons_of_mem _ hq))
    cases hclose : f path (.closeVariant i) with
    | false => simp [appendPairs, hclose, Tree.PairCallsSucceed]
    | true =>
      cases hentry : f path (.closeEntry i) with
      | false => simp [appendPairs, hclose, hentry, Tree.PairCallsSucceed]
      | true =>
        simp only [appendPairs, closeContainer_snd, openContainer_snd, appendBasic_snd, hclose,
          hentry, if_true, allOk_append, allOk_cons, allOk_nil, hvalue, htail,
          Tree.PairCallsSucceed, List.forall_mem_cons]
        tauto

theorem appendLeaf_snd {it : Iter} (hit : it.NotBytes) (ok : Bool) (v : Leaf) :
    (appendLeaf ok it v).2 = true ↔ ok = true ∧ (Tree.leaf v).NoData := by
  cases v
  case data bytes =>
    have hnot : it.target ≠ .inside (.array (.basic .byte)) := hit
    simp only [appendLeaf, appendFixedArray, Tree.NoData, Tree.all_leaf, and_false, iff_false]
    split
    · rename_i ht
      exact absurd ht hnot
    · simp
  all_goals simp [appendLeaf, Tree.NoData]

/-- All calls made succeed exactly when all calls of the tree do and none is for data. -/
theorem appendXpc_allOk {f : Pattern} {path : List ℕ} {t : Tree} {it : Iter} (hit : it.NotBytes) :
    AllOk (appendXpc f path t it).2.1 ↔ t.CallsSucceed f path ∧ t.NoData := by
  induction t generalizing path it with
  | leaf v => simp [appendXpc, appendLeaf_snd hit, Tree.CallsSucceed]
  | array ts ih =>
    have hloop := fun sub => @appendElems_allOk f path 0 ts sub
      (fun t ht path it hit => @ih t ht path it hit)
    have hdone := fun sub hf => (@appendElems_ok f path 0 ts sub hf
      (fun t _ path it hit hf => appendXpc_ok hit hf)).2
    have hdata : (Tree.array ts).NoData ↔ ∀ t ∈ ts, t.NoData := by simp [Tree.NoData]
    rw [hdata, Tree.CallsSucceed]
    cases hsucc : (appendElems f path 0 ts
        (openContainer (f path .openContainer) (.array .variant)).1).2.2 with
    | true =>
      simp only [appendXpc, hsucc, if_true, List.cons_append, allOk_cons, allOk_append, allOk_nil,
        openContainer_snd, closeContainer_snd, hloop]
      tauto
    | false =>
      -- the loop has stopped at a call that failed
      have hstop : ¬ Tree.ElemCallsSucceed f path 0 ts := by
        intro hf
        rw [hdone _ hf] at hsucc
        cases hsucc
      simp [appendXpc, hsucc, hloop, hstop]
  | dictionary ps ih =>
    have hloop := fun sub => @appendPairs_allOk f path 0 ps sub
      (fun p hp path it hit => @ih p hp path it hit)
    have hdone := fun sub hf => (@appendPairs_ok f path 0 ps sub hf
      (fun p _ path it hit hf => appendXpc_ok hit hf)).2
    have hdata : (Tree.dictionary ps).NoData ↔ ∀ p ∈ ps, p.2.NoData := by simp [Tree.NoData]
    rw [hdata, Tree.CallsSucceed]
    cases hsucc : (appendPairs f path 0 ps
        (openContainer (f path .openContainer) (.array (.dictEntry .string .variant))).1).2.2 with
    | true =>
      simp only [appendXpc, hsucc, if_true, List.cons_append, allOk_cons, allOk_append, allOk_nil,
        openContainer_snd, closeContainer_snd, hloop]
      tauto
    | false =>
      -- the loop has stopped at a call that failed
      have hstop : ¬ Tree.PairCallsSucceed f path 0 ps := by
        intro hf
        rw [hdone _ hf] at hsucc
        cases hsucc
      simp [appendXpc, hsucc, hloop, hstop]

/-- The `close_container` calls that the outermost `append_xpc` itself makes succeed. -/
def Tree.DirectClosesSucceed (f : Pattern) (path : List ℕ) : Tree → Prop
  | .leaf _ => True
  | .dictionary pairs => (∀ i < pairs.length, f path (.closeVariant i) ∧ f path (.closeEntry i)) ∧
      f path .closeContainer
  | .array elems => (∀ i < elems.length, f path (.closeVariant i)) ∧ f path .closeContainer

theorem forall_lt_succ_shift {P : ℕ → Prop} (i n : ℕ) :
    (∀ j < n + 1, P (i + j)) ↔ P i ∧ ∀ j < n, P (i + 1 + j) := by
  constructor
  · intro h
    refine ⟨h 0 (Nat.succ_pos n), fun j hj => ?_⟩
    rw [Nat.add_assoc, Nat.add_comm 1 j]
    exact h (j + 1) (Nat.succ_lt_succ hj)
  · intro h j hj
    cases j with
    | zero => exact h.1
    | succ j =>
      have hj' := h.2 j (Nat.lt_of_succ_lt_succ hj)
      rwa [Nat.add_assoc, Nat.add_comm 1 j] at hj'

theorem appendElems_succ {f : Pattern} {path : List ℕ} {i : ℕ} {ts : List Tree} {sub : Iter} :
    (appendElems f path i ts sub).2.2 = true ↔ ∀ j < ts.length, f path (.closeVariant (i + j)) := by
  induction ts generalizing i sub with
  | nil => simp [appendElems]
  | cons t ts ih =>
    rw [List.length_cons, forall_lt_succ_shift (P := fun j => f path (.closeVariant j) = true)]
    cases hclose : f path (.closeVariant i) <;> simp [appendElems, hclose, ih]

theorem appendPairs_succ {f : Pattern} {path : List ℕ} {i : ℕ} {ps : List (CString × Tree)}
    {sub : Iter} : (appendPairs f path i ps sub).2.2 = true ↔
      ∀ j < ps.length, f path (.closeVariant (i + j)) ∧ f path (.closeEntry (i + j)) := by
  induction ps generalizing i sub with
  | nil => simp [appendPairs]
  | cons p ps ih =>
    obtain ⟨k, t⟩ := p
    rw [List.length_cons, forall_lt_succ_shift
      (P := fun j => f path (.closeVariant j) = true ∧ f path (.closeEntry j) = true)]
    cases hclose : f path (.closeVariant i) <;> cases hentry : f path (.closeEntry i) <;>
      simp [appendPairs, hclose, hentry, ih]

/-- The return value depends on nothing but the outermost closing calls. -/
theorem appendXpc_ret (f : Pattern) (path : List ℕ) (t : Tree) (it : Iter) :
    (t.DirectClosesSucceed f path → (appendXpc f path t it).2.2 = 0) ∧
      (¬ t.DirectClosesSucceed f path → (appendXpc f path t it).2.2 = logOom) := by
  cases t with
  | leaf v => simp [appendXpc, Tree.DirectClosesSucceed]
  | array ts =>
    have hsucc := @appendElems_succ f path 0 ts
      (openContainer (f path .openContainer) (.array .variant)).1
    simp only [Nat.zero_add] at hsucc
    simp only [Tree.DirectClosesSucceed]
    rw [← hsucc]
    simp only [appendXpc, closeContainer_snd]
    split_ifs with hs <;> simp_all
  | dictionary ps =>
    have hsucc := @appendPairs_succ f path 0 ps
      (openContainer (f path .openContainer) (.array (.dictEntry .string .variant))).1
    simp only [Nat.zero_add] at hsucc
    simp only [Tree.DirectClosesSucceed]
    rw [← hsucc]
    simp only [appendXpc, closeContainer_snd]
    split_ifs with hs <;> simp_all

/-- A return value of 0 means that every call succeeded, and what is sent is
all of the object. -/
structure ReportsFailures (f : Pattern) (t : Tree) : Prop where
  calls : (appendXpc f [] t ⟨.body, []⟩).2.2 = 0 → AllOk (appendXpc f [] t ⟨.body, []⟩).2.1
  sent : ∀ passive body, xpcConnectionSendMessage passive f t = some body →
    body = written t ∧ t.NoData

/-- Failures are reported if and only if no call for the tree fails, and none is
for data, or one of the outermost closing calls fails. -/
theorem reportsFailures_iff (f : Pattern) (t : Tree) :
    ReportsFailures f t ↔ (t.CallsSucceed f [] ∧ t.NoData) ∨ ¬ t.DirectClosesSucceed f [] := by
  have hbody : (⟨.body, []⟩ : Iter).NotBytes := by simp [Iter.NotBytes]
  obtain ⟨hzero, hoom⟩ := appendXpc_ret f [] t ⟨.body, []⟩
  constructor
  · intro h
    by_cases hclose : t.DirectClosesSucceed f []
    · exact .inl ((appendXpc_allOk hbody).mp (h.calls (hzero hclose)))
    · exact .inr hclose
  · intro h
    rcases h with ⟨hcalls, hdata⟩ | hclose
    · refine ⟨fun _ => (appendXpc_allOk hbody).mpr ⟨hcalls, hdata⟩, fun passive body hsent => ?_⟩
      refine ⟨?_, hdata⟩
      have hcontent := appendXpc_ok hbody hcalls
      simp only [xpcConnectionSendMessage] at hsent
      split_ifs at hsent
      rw [← Option.some.inj hsent, hcontent]
      rfl
    · have hret := hoom hclose
      refine ⟨fun h => ?_, fun passive body hsent => ?_⟩
      · rw [hret] at h
        cases h
      · simp [xpcConnectionSendMessage, hret, logOom] at hsent

/-- Failing to append the one value of a dictionary is not reported: the message
is sent with an empty variant. -/
theorem failure_not_reported :
    xpcConnectionSendMessage false (fun path _ => path = []) (.dictionary [(keyK, .leaf (.int64 7))]) =
        some [.container (.array (.dictEntry .string .variant)) [.container .dictEntry
          [.basic (.string keyK), .container (.variant (.basic .int64)) []]]] ∧
      (appendXpc (fun path _ => path = []) [] (.dictionary [(keyK, .leaf (.int64 7))])
        ⟨.body, []⟩).2.2 = 0 ∧
      ¬ ReportsFailures (fun path _ => path = []) (.dictionary [(keyK, .leaf (.int64 7))]) := by
  refine ⟨rfl, rfl, fun h => ?_⟩
  have hall := h.calls rfl false (by decide)
  cases hall

end OpenXPC
