import OpenXPC.BufferRuns
import OpenXPC.PropertyLists
import OpenXPC.Trees

/-! # Descriptions of objects

`xpc_copy_description` prints an object and all that it holds into a string buffer, and
duplicates the text. Nothing here duplicates a descriptor, so its number stands for the
file. -/
namespace OpenXPC

def Leaf.isUuid : Leaf → Bool
  | .uuid _ => true
  | _ => false

/-- There is no UUID in the tree. -/
def Tree.NoUuid (t : Tree) : Prop := t.All (fun | .leaf v => v.isUuid = false | _ => True)

end OpenXPC

namespace OpenXPC.Descriptions
open StringBuffers Outcomes InsertionMap

variable {σ τ : Type}

/-- Where the making of a description ends early. -/
inductive Crash
  | object (fault : Fault)
  | buffer (overrun : Overrun)
  | nullBuffer      -- there is no memory for the buffer, and NULL is printed into
  | stackFreed      -- an array on the stack is given to `free`
  deriving DecidableEq

def onObject {α : Type} (r : Except Fault α) : Except Crash α := r.mapError .object

def onBuffer {α : Type} (r : Except Overrun α) : Except Crash α := r.mapError .buffer

/-! ## The functions -/

/-- `sbuf_printf` with a format whose conversions give a text. -/
def sbufPrintf (gives : σ → ℤ → Bool × σ) (text : List UInt8) (sbuf : State σ) :
    Except Crash (State σ) := do
  let (_, sbuf) ← onBuffer (sbufVprintf gives (.text text) sbuf)
  .ok sbuf

def applyPairs (applier : CString → ObjId → τ → Except Crash (τ × Bool)) :
    Pairs → τ → Except Crash (τ × Bool)
  | [], captured => .ok (captured, true)
  | p :: ps, captured => do
    let (captured, go) ← applier p.1 p.2 captured
    if go then applyPairs applier ps captured else .ok (captured, false)

def applyElems (applier : ℕ → ObjId → τ → Except Crash (τ × Bool)) :
    ℕ → List ObjId → τ → Except Crash (τ × Bool)
  | _, [], captured => .ok (captured, true)
  | i, x :: xs, captured => do
    let (captured, go) ← applier i x captured
    if go then applyElems applier (i + 1) xs captured else .ok (captured, false)

/-- The block takes along what it has captured. -/
def xpcDictionaryApply (h : Heap (List ObjId)) (xdict : ObjId)
    (applier : CString → ObjId → τ → Except Crash (τ × Bool)) (captured : τ) :
    Except Crash (τ × Bool) := do
  let xo ← onObject (h.deref xdict)
  let pairs ← onObject xo.dict
  applyPairs applier pairs captured

def xpcArrayApply (h : Heap (List ObjId)) (xarray : ObjId)
    (applier : ℕ → ObjId → τ → Except Crash (τ × Bool)) (captured : τ) :
    Except Crash (τ × Bool) := do
  let xo ← onObject (h.deref xarray)
  let elems ← onObject xo.arr
  applyElems applier 0 elems captured

/-- A literal of ASCII characters. -/
def ascii (s : String) : List UInt8 := (NSString.literal s).utf8

/-- The digits of a number, `%x` with lower case letters. -/
def digits (base n : ℕ) : List UInt8 := (Nat.toDigits base n).map (fun c => UInt8.ofNat c.toNat)

/-- `%d`, `%ld` -/
def signed (n : ℤ) : List UInt8 :=
  if n < 0 then ascii "-" ++ digits 10 n.natAbs else digits 10 n.natAbs

/-- `_xpc_get_type_name` -/
def xpcGetTypeName : Payload (List ObjId) → List UInt8
  | .leaf .null => ascii "null"
  | .leaf (.bool _) => ascii "bool"
  | .leaf (.int64 _) => ascii "int64"
  | .leaf (.uint64 _) => ascii "uint64"
  | .leaf (.double _) => ascii "double"
  | .leaf (.date _) => ascii "date"
  | .leaf (.data _) => ascii "data"
  | .leaf (.string _) => ascii "string"
  | .leaf (.fd _) => ascii "file descriptor"
  | .leaf (.endpoint _) => ascii "endpoint"
  | .leaf (.uuid _) => ascii "UUID"
  | .leaf (.connection _) => ascii "connection"
  | .array _ => ascii "array"
  | .dictionary _ => ascii "dictionary"

/-- `"(%s) "` -/
def typeText (name : List UInt8) : List UInt8 := ascii "(" ++ name ++ ascii ") "

/-- The upper case digits of some bytes. -/
def upperHex (bytes : List UInt8) : List UInt8 :=
  bytes.flatMap fun b =>
    [b.toNat / 16, b.toNat % 16].map fun d => UInt8.ofNat (Nat.digitChar d).toUpper.toNat

/-- `uuid_unparse_upper` -/
def uuidUnparseUpper (uuid : BitVec 128) : List UInt8 :=
  let bytes := (List.range 16).map fun i => UInt8.ofNat (uuid.toNat / 256 ^ (15 - i))
  upperHex (bytes.take 4) ++ ascii "-" ++ upperHex ((bytes.drop 4).take 2) ++ ascii "-" ++
    upperHex ((bytes.drop 6).take 2) ++ ascii "-" ++ upperHex ((bytes.drop 8).take 2) ++ ascii "-" ++
    upperHex (bytes.drop 10)

/-- The text of a value, before the end of its line: a signed number is decimal also
after `0x`, a date is printed as unsigned, and doubles, data and connections have no
case. -/
def leafText : Leaf → List UInt8
  | .bool value => ascii (if value then "true" else "false")
  | .string str => ascii "\"" ++ str.bytes ++ ascii "\""
  | .int64 value => ascii "0x" ++ signed value.toInt
  | .uint64 value => ascii "0x" ++ digits 16 value.toNat
  | .date interval => digits 10 interval.toUInt64.toNat
  | .endpoint port => ascii "<" ++ digits 16 port.toNat ++ ascii ">"
  | .null => ascii "<null>"
  | .fd file => ascii "<" ++ digits 10 file ++ ascii ">"
  | .uuid bytes => uuidUnparseUpper bytes
  | .double _ | .data _ | .connection _ => ascii "<ERROR-TYPE!>"

/-- `%*s` of one blank. -/
def blanks (width : ℕ) : List UInt8 := List.replicate (width - 1) 32 ++ [32]

/-- The width is an `int`. -/
def fieldWidth (level : ℕ) : Except Crash ℕ :=
  if (level * 4 : ℤ) ≤ intMax then .ok (level * 4) else .error (.buffer .overflow)

/-- `"\"%s\": "` -/
def keyText (k : CString) : List UInt8 := ascii "\"" ++ k.bytes ++ ascii "\": "

/-- `"%ld: "`, for a `size_t`. -/
def indexText (idx : ℕ) : List UInt8 := signed ((idx : ℤ).bmod 18446744073709551616) ++ ascii ": "

/-- The fuel bounds the depth of the recursion. -/
def xpcCopyDescriptionLevel (gives : σ → ℤ → Bool × σ) (h : Heap (List ObjId)) :
    ℕ → Option ObjId → ℕ → State σ → Except Crash (State σ)
  | 0, _, _, _ => .error (.object .outOfFuel)
  | _ + 1, none, _, sbuf => sbufPrintf gives (ascii "<null value>\n") sbuf
  | n + 1, some obj, level, sbuf => do
    let xo ← onObject (h.deref obj)
    let sbuf ← sbufPrintf gives (typeText (xpcGetTypeName xo.xoU)) sbuf
    match xo.xoU with
    | .dictionary _ => do
      let sbuf ← sbufPrintf gives [10] sbuf
      let (sbuf, _) ← xpcDictionaryApply h obj (fun k v sbuf => do
        let width ← fieldWidth level
        let sbuf ← sbufPrintf gives (blanks width ++ keyText k) sbuf
        let sbuf ← xpcCopyDescriptionLevel gives h n (some v) (level + 1) sbuf
        .ok (sbuf, true)) sbuf
      .ok sbuf
    | .array _ => do
      let sbuf ← sbufPrintf gives [10] sbuf
      let (sbuf, _) ← xpcArrayApply h obj (fun idx v sbuf => do
        let width ← fieldWidth level
        let sbuf ← sbufPrintf gives (blanks width ++ indexText idx) sbuf
        let sbuf ← xpcCopyDescriptionLevel gives h n (some v) (level + 1) sbuf
        .ok (sbuf, true)) sbuf
      .ok sbuf
    | .leaf v => do
      let sbuf ← sbufPrintf gives (leafText v ++ [10]) sbuf
      -- the text of a UUID is an array on the stack, and `free(uuid_str)` follows
      if v.isUuid then .error .stackFreed else .ok sbuf

/-- The copy is NULL without memory for it. -/
def strdup (gives : σ → ℤ → Bool × σ) (s : Storage) (w : StringBuffers.World σ) :
    Except Overrun (Option Storage × StringBuffers.World σ) :=
  let str := s.bytes.takeWhile (· ≠ 0)
  if str.length < s.bytes.length then
    let (p, w) := calloc gives (str.length + 1) w
    .ok (p.map (fun p => ⟨some p, str ++ [0]⟩), w)
  else .error .outside

def xpcCopyDescription (gives : σ → ℤ → Bool × σ) (h : Heap (List ObjId)) (n : ℕ)
    (obj : Option ObjId) (w : StringBuffers.World σ) : Except Crash (Option Storage × StringBuffers.World σ) := do
  let (sbuf, w) ← onBuffer (sbufNewAuto gives w)
  match sbuf with
  | none => .error .nullBuffer
  | some sbuf => do
    let st ← xpcCopyDescriptionLevel gives h n obj 0 ⟨sbuf, w⟩
    let (_, st) ← onBuffer (sbufFinish st)
    let (result, w) ← onBuffer (strdup gives (sbufData st.s) st.w)
    let w ← onBuffer (sbufDelete ⟨st.s, w⟩)
    .ok (result, w)

end OpenXPC.Descriptions

/-! ## The text of a tree -/

namespace OpenXPC.Tree
open Descriptions

mutual

/-- What is printed at some depth. -/
def lines (level : ℕ) : Tree → List UInt8
  | .leaf v => typeText (xpcGetTypeName (.leaf v)) ++ (leafText v ++ [10])
  | .array ts => typeText (ascii "array") ++ ([10] ++ linesElems level 0 ts)
  | .dictionary ps => typeText (ascii "dictionary") ++ ([10] ++ linesPairs level ps)

def linesElems (level idx : ℕ) : List Tree → List UInt8
  | [] => []
  | t :: ts => blanks (level * 4) ++ indexText idx ++ (lines (level + 1) t ++ linesElems level (idx + 1) ts)

def linesPairs (level : ℕ) : List (CString × Tree) → List UInt8
  | [] => []
  | (k, t) :: ps => blanks (level * 4) ++ keyText k ++ (lines (level + 1) t ++ linesPairs level ps)

end

def description (t : Tree) : List UInt8 := t.lines 0

end OpenXPC.Tree

namespace OpenXPC.Descriptions
open StringBuffers Outcomes InsertionMap

variable {σ : Type} {gives : σ → ℤ → Bool × σ} {base : List ℕ} {st st' : State σ}

/-! ## Printing -/

/-- A buffer as `sbuf_new_auto` makes it, into which all has been printed so far. -/
structure Growing (st : State σ) : Prop where
  noDrain : st.s.sDrainFunc = none
  canExtend : st.s.canExtend = true
  error : st.s.sError = 0

/-- What printing a text does. Without memory for it a part of the text may be missing. -/
structure Wrote (gives : σ → ℤ → Bool × σ) (text : List UInt8) (st st' : State σ) : Prop where
  growing : Growing st'
  len_le : st'.s.sLen ≤ st.s.sLen + text.length
  text : ∃ added, st'.s.text = st.s.text ++ added ∧ added.Sublist text ∧
    (¬ Refuses gives → added = text)

/-- In a buffer that the text fits into, the action prints it. -/
def Writes (gives : σ → ℤ → Bool × σ) (base : List ℕ) (text : List UInt8)
    (act : State σ → Except Crash (State σ)) : Prop :=
  ∀ st, Inv base st → Growing st → st.s.sLen + text.length + 4096 ≤ intMax →
    ∃ st', act st = .ok st' ∧ Inv base st' ∧ Wrote gives text st st'

theorem Wrote.refl (h : Growing st) : Wrote gives [] st st :=
  ⟨h, by simp, [], by simp, List.Sublist.refl _, fun _ => rfl⟩

theorem Wrote.trans {text text' : List UInt8} {st'' : State σ} (h : Wrote gives text st st')
    (h' : Wrote gives text' st' st'') : Wrote gives (text ++ text') st st'' := by
  obtain ⟨added, happ, hsub, hall⟩ := h.text
  obtain ⟨added', happ', hsub', hall'⟩ := h'.text
  refine ⟨h'.growing, ?_, added ++ added', ?_, hsub.append hsub', fun hmem => ?_⟩
  · have hlen := h.len_le
    have hlen' := h'.len_le
    rw [List.length_append]
    omega
  · rw [happ', happ, List.append_assoc]
  · rw [hall hmem, hall' hmem]

theorem Writes.nil : Writes gives base [] .ok :=
  fun st hinv hgrow _ => ⟨st, rfl, hinv, .refl hgrow⟩

theorem Writes.congr {text : List UInt8} {act act' : State σ → Except Crash (State σ)}
    (h : Writes gives base text act) (heq : ∀ st, act' st = act st) : Writes gives base text act' := by
  intro st
  rw [heq st]
  exact h st

/-- One text after another. -/
theorem Writes.seq {text text' : List UInt8} {act act' : State σ → Except Crash (State σ)}
    (h : Writes gives base text act) (h' : Writes gives base text' act') :
    Writes gives base (text ++ text') (fun st => act st >>= act') := by
  intro st hinv hgrow hshort
  rw [List.length_append] at hshort
  obtain ⟨st₁, hact, hinv₁, hw⟩ := h st hinv hgrow (by omega)
  have hlen := hw.len_le
  obtain ⟨st₂, hact', hinv₂, hw'⟩ := h' st₁ hinv₁ hw.growing (by omega)
  exact ⟨st₂, bind_eq_ok.mpr ⟨st₁, hact, hact'⟩, hinv₂, hw.trans hw'⟩

theorem writes_sbufPrintf (text : List UInt8) : Writes gives base text (sbufPrintf gives text) := by
  intro st hinv hgrow hshort
  have hnonneg := hinv.fits.len_nonneg
  have hends : Ends (TooLong text.length st) _ (sbufVprintf gives (.text text) st) :=
    sbufVprintf_spec hinv hgrow.error (by omega)
  obtain ⟨⟨r, st'⟩, hprint, hinv', -, added, rest, hsplit, hprints⟩ :=
    hends.exists_ok fun e he => Int.not_le.mpr he.2 hshort
  have happ := hprints.appends
  have hlen := happ.len_le
  have hzero : st'.s.sError = 0 := by
    by_contra hne
    exact hprints.drained hgrow.canExtend hne hgrow.noDrain
  refine ⟨st', ?_, hinv', ⟨happ.drainFunc.trans hgrow.noDrain,
    happ.canExtend.trans hgrow.canExtend, hzero⟩, ?_, added, happ.text hgrow.noDrain, ?_, fun hmem => ?_⟩
  · rw [sbufPrintf, hprint]
    rfl
  · rw [hsplit, List.length_append]
    dsimp only at hlen
    omega
  · rw [hsplit]
    exact List.sublist_append_left added rest
  · rcases hprints.extended hgrow.canExtend hzero with hrest | hrefuse
    · rw [hsplit, hrest, List.append_nil]
    · exact absurd hrefuse hmem

/-! ## Descending into the containers -/

variable {h : Heap (List ObjId)} {x n level : ℕ}

theorem length_blanks (width : ℕ) : width ≤ (blanks width).length := by
  rw [blanks, List.length_append, List.length_replicate, List.length_singleton]
  omega

/-- What a block prints for a value: the label and then the value. -/
theorem writes_block {text : List UInt8} (label : List UInt8)
    (hv : Writes gives base text (xpcCopyDescriptionLevel gives h n (some x) (level + 1))) :
    Writes gives base (blanks (level * 4) ++ label ++ text) (fun sbuf => do
      let width ← fieldWidth level
      let sbuf ← sbufPrintf gives (blanks width ++ label) sbuf
      xpcCopyDescriptionLevel gives h n (some x) (level + 1) sbuf) := by
  intro st hinv hgrow hshort
  have hwidth : fieldWidth level = .ok (level * 4) := by
    have hnonneg := hinv.fits.len_nonneg
    have hblanks := length_blanks (level * 4)
    rw [List.length_append, List.length_append] at hshort
    rw [fieldWidth, if_pos (by omega)]
  obtain ⟨st', hact, hwrote⟩ := (writes_sbufPrintf (blanks (level * 4) ++ label)).seq hv st hinv hgrow hshort
  refine ⟨st', ?_, hwrote⟩
  beta_reduce
  rw [hwidth, ok_bind]
  exact hact

variable {ps : List (CString × Tree)} {ts : List Tree}

theorem writes_pairs {qs : Pairs} (hrel : Related (TreeAt h) qs ps)
    (hv : ∀ p ∈ ps, ∀ x, TreeAt h x p.2 → Writes gives base (p.2.lines (level + 1))
      (xpcCopyDescriptionLevel gives h n (some x) (level + 1))) :
    Writes gives base (Tree.linesPairs level ps) (fun sbuf => do
      let (sbuf, _) ← applyPairs (fun k v sbuf => do
        let width ← fieldWidth level
        let sbuf ← sbufPrintf gives (blanks width ++ keyText k) sbuf
        let sbuf ← xpcCopyDescriptionLevel gives h n (some v) (level + 1) sbuf
        .ok (sbuf, true)) qs sbuf
      .ok sbuf) := by
  induction hrel with
  | nil => exact Writes.nil
  | @cons q p qs ps hqp _ ih =>
    obtain ⟨k, x⟩ := q
    obtain ⟨j, t⟩ := p
    obtain ⟨rfl, hx⟩ := hqp
    rw [List.forall_mem_cons] at hv
    have hblock := (writes_block (keyText k) (hv.1 x hx)).seq (ih hv.2)
    rw [Tree.linesPairs, ← List.append_assoc]
    refine hblock.congr fun st => ?_
    simp only [applyPairs, bind_assoc, ok_bind]
    rfl

theorem writes_elems {es : List ObjId} {i : ℕ} (hrel : List.Forall₂ (TreeAt h) es ts)
    (hv : ∀ t ∈ ts, ∀ x, TreeAt h x t → Writes gives base (t.lines (level + 1))
      (xpcCopyDescriptionLevel gives h n (some x) (level + 1))) :
    Writes gives base (Tree.linesElems level i ts) (fun sbuf => do
      let (sbuf, _) ← applyElems (fun idx v sbuf => do
        let width ← fieldWidth level
        let sbuf ← sbufPrintf gives (blanks width ++ indexText idx) sbuf
        let sbuf ← xpcCopyDescriptionLevel gives h n (some v) (level + 1) sbuf
        .ok (sbuf, true)) i es sbuf
      .ok sbuf) := by
  induction hrel generalizing i with
  | nil => exact Writes.nil
  | @cons x t es ts hx _ ih =>
    rw [List.forall_mem_cons] at hv
    have hblock := (writes_block (indexText i) (hv.1 x hx)).seq (ih (i := i + 1) hv.2)
    rw [Tree.linesElems, ← List.append_assoc]
    refine hblock.congr fun st => ?_
    simp only [applyElems, bind_assoc, ok_bind]
    rfl

theorem xpcDictionaryApply_of_get {d : ObjId} {o : XpcObject (List ObjId)} {qs : Pairs}
    (hd : h.get d = some o) (ho : o.xoU = .dictionary qs)
    (applier : CString → ObjId → τ → Except Crash (τ × Bool)) (captured : τ) :
    xpcDictionaryApply h d applier captured = applyPairs applier qs captured := by
  rw [xpcDictionaryApply, Heap.deref_of_get hd]
  simp only [onObject, Except.mapError, ok_bind, XpcObject.dict_of_xoU ho]

theorem xpcArrayApply_of_get {a : ObjId} {o : XpcObject (List ObjId)} {es : List ObjId}
    (ha : h.get a = some o) (ho : o.xoU = .array es)
    (applier : ℕ → ObjId → τ → Except Crash (τ × Bool)) (captured : τ) :
    xpcArrayApply h a applier captured = applyElems applier 0 es captured := by
  rw [xpcArrayApply, Heap.deref_of_get ha]
  simp only [onObject, Except.mapError, ok_bind, XpcObject.arr_of_xoU ho]

/-- An object is printed as its tree, whatever else is on the heap. -/
theorem writes_level {t : Tree} (ht : TreeAt h x t) (hd : t.NoUuid) (hn : t.height < n) :
    Writes gives base (t.lines level) (xpcCopyDescriptionLevel gives h n (some x) level) := by
  induction t generalizing n x level with
  | leaf v =>
    obtain ⟨n, rfl⟩ := Nat.exists_eq_succ_of_ne_zero (Nat.ne_of_gt hn)
    obtain ⟨-, o, ho, hu⟩ := treeFrom_leaf.mp ht
    have hfreed : v.isUuid = false := hd
    rw [Tree.lines]
    refine ((writes_sbufPrintf _).seq (writes_sbufPrintf _)).congr fun st => ?_
    rw [xpcCopyDescriptionLevel, Heap.deref_of_get ho]
    simp only [onObject, Except.mapError, ok_bind, hu, hfreed, Bool.false_eq_true, if_false]
    exact bind_congr fun _ => bind_pure _
  | array ts ih =>
    obtain ⟨n, rfl⟩ := Nat.exists_eq_succ_of_ne_zero (Nat.ne_of_gt (Nat.zero_lt_of_lt hn))
    obtain ⟨-, o, es, ho, hu, hrel⟩ := treeFrom_array.mp ht
    have helems : Writes gives base (Tree.linesElems level 0 ts) _ := writes_elems (n := n) hrel
      (fun t hmem x hx => ih t hmem hx ((Tree.all_array.mp hd).2 t hmem) (by
        have hlt := Tree.height_lt_of_mem hmem
        omega))
    rw [Tree.lines]
    refine ((writes_sbufPrintf _).seq ((writes_sbufPrintf _).seq helems)).congr fun st => ?_
    rw [xpcCopyDescriptionLevel, Heap.deref_of_get ho]
    simp only [onObject, Except.mapError, ok_bind, hu, xpcArrayApply_of_get ho hu]
    rfl
  | dictionary ps ih =>
    obtain ⟨n, rfl⟩ := Nat.exists_eq_succ_of_ne_zero (Nat.ne_of_gt (Nat.zero_lt_of_lt hn))
    obtain ⟨-, o, qs, ho, hu, hrel⟩ := treeFrom_dictionary.mp ht
    have hpairs : Writes gives base (Tree.linesPairs level ps) _ := writes_pairs (n := n) hrel
      (fun p hmem x hx => ih p hmem hx ((Tree.all_dictionary.mp hd).2 p hmem) (by
        have hlt := Tree.height_lt_of_mem_pairs hmem
        omega))
    rw [Tree.lines]
    refine ((writes_sbufPrintf _).seq ((writes_sbufPrintf _).seq hpairs)).congr fun st => ?_
    rw [xpcCopyDescriptionLevel, Heap.deref_of_get ho]
    simp only [onObject, Except.mapError, ok_bind, hu, xpcDictionaryApply_of_get ho hu]
    rfl

end OpenXPC.Descriptions
