import OpenXPC.Copying
import OpenXPC.Descriptions

/-! # What is in a description

A description is the text of the tree of its object: a line for every node, and no
terminator before the end. -/
namespace OpenXPC.Descriptions
open StringBuffers Outcomes InsertionMap

variable {σ : Type} {gives : σ → ℤ → Bool × σ} {base : List ℕ} {st st' : State σ}

/-! ## The characters of a description -/

/-- No terminator and no end of line. -/
def Printable (text : List UInt8) : Prop := ∀ b ∈ text, 10 < b

instance (text : List UInt8) : Decidable (Printable text) :=
  List.decidableBAll (fun b => 10 < b) text

theorem printable_append {text text' : List UInt8} :
    Printable (text ++ text') ↔ Printable text ∧ Printable text' :=
  List.forall_mem_append

theorem printable_digitChar : ∀ n < 16, 10 < UInt8.ofNat (Nat.digitChar n).toNat := by decide

theorem printable_toDigitsCore {base fuel n : ℕ} {ds : List Char} (hpos : 0 < base)
    (hbase : base ≤ 16) (hds : ∀ c ∈ ds, 10 < UInt8.ofNat c.toNat) :
    ∀ c ∈ Nat.toDigitsCore base fuel n ds, 10 < UInt8.ofNat c.toNat := by
  induction fuel generalizing n ds with
  | zero => exact hds
  | succ fuel ih =>
    have hlt : n % base < 16 := Nat.lt_of_lt_of_le (Nat.mod_lt n hpos) hbase
    have hcons : ∀ c ∈ Nat.digitChar (n % base) :: ds, 10 < UInt8.ofNat c.toNat :=
      List.forall_mem_cons.mpr ⟨printable_digitChar _ hlt, hds⟩
    rw [Nat.toDigitsCore]
    split_ifs
    · exact hcons
    · exact ih hcons

theorem printable_digits {base : ℕ} (hpos : 0 < base) (hbase : base ≤ 16) (n : ℕ) :
    Printable (digits base n) := by
  intro b hb
  obtain ⟨c, hc, rfl⟩ := List.mem_map.mp hb
  exact printable_toDigitsCore hpos hbase (fun c hc => absurd hc List.not_mem_nil) c hc

theorem printable_decimal (n : ℕ) : Printable (digits 10 n) := printable_digits (by decide) (by decide) n

theorem printable_hex (n : ℕ) : Printable (digits 16 n) := printable_digits (by decide) (by decide) n

theorem printable_signed (n : ℤ) : Printable (signed n) := by
  rw [signed]
  split_ifs
  · exact printable_append.mpr ⟨by decide, printable_decimal _⟩
  · exact printable_decimal _

theorem printable_upperDigit :
    ∀ d < 16, 10 < UInt8.ofNat (Nat.digitChar d).toUpper.toNat := by decide

theorem printable_upperHex (bytes : List UInt8) : Printable (upperHex bytes) := by
  intro c hc
  obtain ⟨b, -, hc⟩ := List.mem_flatMap.mp hc
  obtain ⟨d, hd, rfl⟩ := List.mem_map.mp hc
  apply printable_upperDigit
  have hb : b.toNat < 256 := b.toNat_lt
  simp only [List.mem_cons, List.not_mem_nil, or_false] at hd
  omega

theorem printable_uuidUnparseUpper (uuid : BitVec 128) : Printable (uuidUnparseUpper uuid) := by
  have hdash : Printable (ascii "-") := by decide
  simp only [uuidUnparseUpper, printable_append]
  exact ⟨⟨⟨⟨⟨⟨⟨⟨printable_upperHex _, hdash⟩, printable_upperHex _⟩, hdash⟩, printable_upperHex _⟩,
    hdash⟩, printable_upperHex _⟩, hdash⟩, printable_upperHex _⟩

theorem printable_blanks (width : ℕ) : Printable (blanks width) := by
  refine printable_append.mpr ⟨fun b hb => ?_, by decide⟩
  rw [List.eq_of_mem_replicate hb]
  decide

theorem printable_indexText (idx : ℕ) : Printable (indexText idx) :=
  printable_append.mpr ⟨printable_signed _, by decide⟩

theorem printable_typeText (u : Payload (List ObjId)) : Printable (typeText (xpcGetTypeName u)) := by
  cases u with
  | leaf v => cases v <;> (rw [xpcGetTypeName]; decide)
  | array es =>
    rw [xpcGetTypeName]
    decide
  | dictionary ps =>
    rw [xpcGetTypeName]
    decide

theorem Printable.zero_notMem {text : List UInt8} (h : Printable text) : 0 ∉ text :=
  fun hmem => absurd (h 0 hmem) (by decide)

theorem Printable.count_eq_zero {text : List UInt8} (h : Printable text) : text.count 10 = 0 :=
  List.count_eq_zero.mpr fun hmem => absurd (h 10 hmem) (by decide)

end OpenXPC.Descriptions

namespace OpenXPC
open Descriptions

/-- The ends of lines inside of a value. -/
def Leaf.newlines : Leaf → ℕ
  | .string str => str.bytes.count 10
  | _ => 0

namespace Tree

mutual

/-- The ends of lines inside of keys and strings. -/
def newlines : Tree → ℕ
  | .leaf v => v.newlines
  | .array ts => newlinesElems ts
  | .dictionary ps => newlinesPairs ps

def newlinesElems : List Tree → ℕ
  | [] => 0
  | t :: ts => newlines t + newlinesElems ts

def newlinesPairs : List (CString × Tree) → ℕ
  | [] => 0
  | (k, t) :: ps => k.bytes.count 10 + newlines t + newlinesPairs ps

end

end Tree

theorem Leaf.printable_leafText {v : Leaf} (hv : ∀ str, v ≠ .string str) : Printable (leafText v) := by
  have hclose : Printable (ascii ">") := by decide
  cases v with
  | null =>
    rw [leafText]
    decide
  | bool value => cases value <;> (rw [leafText]; decide)
  | int64 value => exact printable_append.mpr ⟨by decide, printable_signed _⟩
  | uint64 value => exact printable_append.mpr ⟨by decide, printable_hex _⟩
  | date interval => exact printable_decimal _
  | endpoint port =>
    exact printable_append.mpr ⟨printable_append.mpr ⟨by decide, printable_hex _⟩, hclose⟩
  | fd file =>
    exact printable_append.mpr ⟨printable_append.mpr ⟨by decide, printable_decimal _⟩, hclose⟩
  | string str => exact absurd rfl (hv str)
  | double bits =>
    rw [leafText]
    decide
  | data bytes =>
    rw [leafText]
    decide
  | uuid bytes => exact printable_uuidUnparseUpper bytes
  | connection busname =>
    rw [leafText]
    decide

theorem Leaf.zero_notMem_leafText (v : Leaf) : 0 ∉ leafText v := by
  cases v with
  | string str => exact List.not_mem_append (List.not_mem_append (by decide) str.noNul) (by decide)
  | _ => exact (printable_leafText fun _ hv => by cases hv).zero_notMem

theorem Leaf.count_leafText (v : Leaf) : (leafText v).count 10 = v.newlines := by
  cases v with
  | string str =>
    have hquote : (ascii "\"").count 10 = 0 := by decide
    rw [leafText, List.count_append, List.count_append, hquote, Nat.zero_add, Nat.add_zero]
    rfl
  | _ => exact (printable_leafText fun _ hv => by cases hv).count_eq_zero

theorem zero_notMem_keyText (k : CString) : 0 ∉ keyText k :=
  List.not_mem_append (List.not_mem_append (by decide) k.noNul) (by decide)

theorem count_keyText (k : CString) : (keyText k).count 10 = k.bytes.count 10 := by
  have hopen : (ascii "\"").count 10 = 0 := by decide
  have hclose : (ascii "\": ").count 10 = 0 := by decide
  rw [keyText, List.count_append, List.count_append, hopen, hclose, Nat.zero_add, Nat.add_zero]

namespace Tree

theorem zero_notMem_header (u : Payload (List ObjId)) : 0 ∉ typeText (xpcGetTypeName u) :=
  (printable_typeText u).zero_notMem

mutual

theorem zero_notMem_lines (level : ℕ) : ∀ t : Tree, 0 ∉ t.lines level
  | .leaf v => by
    rw [lines]
    exact List.not_mem_append (zero_notMem_header _) (List.not_mem_append v.zero_notMem_leafText (by decide))
  | .array ts => by
    rw [lines]
    exact List.not_mem_append (zero_notMem_header (.array []))
      (List.not_mem_append (by decide) (zero_notMem_linesElems level 0 ts))
  | .dictionary ps => by
    rw [lines]
    exact List.not_mem_append (zero_notMem_header (.dictionary []))
      (List.not_mem_append (by decide) (zero_notMem_linesPairs level ps))

theorem zero_notMem_linesElems (level idx : ℕ) : ∀ ts : List Tree, 0 ∉ linesElems level idx ts
  | [] => List.not_mem_nil
  | t :: ts => by
    rw [linesElems]
    exact List.not_mem_append
      (List.not_mem_append (printable_blanks _).zero_notMem (printable_indexText idx).zero_notMem)
      (List.not_mem_append (zero_notMem_lines (level + 1) t) (zero_notMem_linesElems level (idx + 1) ts))

theorem zero_notMem_linesPairs (level : ℕ) : ∀ ps : List (CString × Tree), 0 ∉ linesPairs level ps
  | [] => List.not_mem_nil
  | (k, t) :: ps => by
    rw [linesPairs]
    exact List.not_mem_append
      (List.not_mem_append (printable_blanks _).zero_notMem (zero_notMem_keyText k))
      (List.not_mem_append (zero_notMem_lines (level + 1) t) (zero_notMem_linesPairs level ps))

end

mutual

/-- Every node of the tree has its line. -/
theorem count_lines (level : ℕ) : ∀ t : Tree, (t.lines level).count 10 = t.nodes + t.newlines
  | .leaf v => by
    rw [lines, List.count_append, List.count_append, (printable_typeText _).count_eq_zero,
      v.count_leafText, nodes, newlines, Nat.zero_add, Nat.add_comm]
    rfl
  | .array ts => by
    have hheader := (printable_typeText (.array [])).count_eq_zero
    rw [xpcGetTypeName] at hheader
    rw [lines, List.count_append, List.count_append, hheader, count_linesElems level 0 ts, nodes, newlines,
      List.count_singleton_self]
    omega
  | .dictionary ps => by
    have hheader := (printable_typeText (.dictionary [])).count_eq_zero
    rw [xpcGetTypeName] at hheader
    rw [lines, List.count_append, List.count_append, hheader, count_linesPairs level ps, nodes, newlines,
      List.count_singleton_self]
    omega

theorem count_linesElems (level idx : ℕ) : ∀ ts : List Tree,
    (linesElems level idx ts).count 10 = nodesElems ts + newlinesElems ts
  | [] => rfl
  | t :: ts => by
    rw [linesElems, List.count_append, List.count_append, List.count_append, count_lines (level + 1) t,
      count_linesElems level (idx + 1) ts, (printable_blanks _).count_eq_zero,
      (printable_indexText idx).count_eq_zero, nodesElems, newlinesElems]
    omega

theorem count_linesPairs (level : ℕ) : ∀ ps : List (CString × Tree),
    (linesPairs level ps).count 10 = nodesPairs ps + newlinesPairs ps
  | [] => rfl
  | (k, t) :: ps => by
    rw [linesPairs, List.count_append, List.count_append, List.count_append, count_lines (level + 1) t,
      count_linesPairs level ps, (printable_blanks _).count_eq_zero, count_keyText, nodesPairs, newlinesPairs]
    omega

end

end Tree

end OpenXPC

namespace OpenXPC.Descriptions
open StringBuffers Outcomes InsertionMap

variable {σ : Type} {gives : σ → ℤ → Bool × σ} {base : List ℕ} {st st' : State σ}

/-! ## The string that is returned -/

/-- A reader of the storage stops at the terminator. -/
theorem takeWhile_eq_take {bytes : List UInt8} {n : ℕ} (hzero : 0 ∉ bytes.take n)
    (hn : bytes[n]? = some 0) : bytes.takeWhile (· ≠ 0) = bytes.take n := by
  obtain ⟨hlt, hget⟩ := List.getElem?_eq_some_iff.mp hn
  have hall : ∀ b ∈ bytes.take n, decide (b ≠ 0) = true := by
    intro b hb
    exact decide_eq_true fun heq => hzero (heq ▸ hb)
  have hsplit : bytes = bytes.take n ++ 0 :: bytes.drop (n + 1) := by
    rw [← hget, ← List.drop_eq_getElem_cons hlt, List.take_append_drop]
  conv_lhs => rw [hsplit]
  rw [List.takeWhile_append_of_pos hall, List.takeWhile_cons_of_neg (by decide), List.append_nil]

theorem refuses_of_calloc {w w' : StringBuffers.World σ} {size : ℤ} (h : calloc gives size w = (none, w')) :
    Refuses gives := by
  refine ⟨w.rest, size, ?_⟩
  cases hgiven : (gives w.rest size).1 with
  | false => rfl
  | true =>
    dsimp only [calloc] at h
    rw [if_pos hgiven] at h
    cases h

theorem sbufNewAuto_cases (gives : σ → ℤ → Bool × σ) {w : StringBuffers.World σ} (hw : Named w) :
    (∃ w', sbufNewAuto gives w = .ok (none, w') ∧ Refuses gives) ∨
      ∃ s w', sbufNewAuto gives w = .ok (some s, w') ∧ StringBuffers.Inv w.live ⟨s, w'⟩ ∧
        Growing ⟨s, w'⟩ ∧ s.sLen = 0 := by
  have hroomy : Roomy none 0 true := ⟨by decide, Or.inr ⟨rfl, Int.le_refl 0⟩⟩
  have hmade : Ends (· = .overflow) (Made w.live) (sbufNewAuto gives w) := sbufNew_spec hroomy hw
  have hfirst : firstSize 0 true = .ok 16 := rfl
  rcases calloc_spec gives 64 hw with ⟨w₁, hself, -⟩ | ⟨p, w₁, hself, hlive, hnamed⟩
  · refine .inl ⟨w₁, ?_, refuses_of_calloc hself⟩
    rw [sbufNewAuto, sbufNew, if_neg (by decide), hself]
  · rcases calloc_spec gives 16 hnamed with ⟨w₂, hblock, hlive₂, -⟩ | ⟨q, w₂, hblock, -⟩
    · have hmem : p ∈ w₂.live := by
        rw [hlive₂, hlive]
        exact List.mem_cons_self
      refine .inl ⟨{ w₂ with live := w₂.live.erase p }, ?_, refuses_of_calloc hblock⟩
      rw [sbufNewAuto, sbufNew, if_neg (by decide), hself]
      simp only [sbufNewbuf, hfirst, ok_bind, hblock, free, if_pos hmem]
    · have hnew : sbufNewAuto gives w =
          .ok (some (initial (some p) ⟨some q, List.replicate 16 0⟩ 16 true true), w₂) := by
        rw [sbufNewAuto, sbufNew, if_neg (by decide), hself]
        simp only [sbufNewbuf, hfirst, ok_bind, hblock]
        rfl
      exact .inr ⟨_, w₂, hnew, hmade.of_ok hnew, ⟨rfl, rfl, rfl⟩, rfl⟩

/-- A block that is allocated beside the buffer is not one of its own. -/
theorem Inv.beside {p : ℕ} {w : StringBuffers.World σ} (h : StringBuffers.Inv base st) (hnamed : Named w)
    (hlive : w.live = p :: st.w.live) : StringBuffers.Inv (p :: base) ⟨st.s, w⟩ := by
  refine ⟨h.fits, h.owns.dynamic, h.owns.dynstruct, ?_, hnamed.nodup, hnamed.fresh⟩
  rw [hlive]
  refine ((List.Perm.cons p h.owns.live).trans ?_)
  rw [← List.append_assoc, ← List.append_assoc]
  exact List.perm_middle.symm

/-- What a caller gets: NULL, or a new string with a text in it; all else is freed. -/
def Described (gives : σ → ℤ → Bool × σ) (w : StringBuffers.World σ) (text : List UInt8) :
    Option Storage × StringBuffers.World σ → Prop
  | (none, w') => Refuses gives ∧ w'.live.Perm w.live
  | (some str, w') => ∃ p printed, str = ⟨some p, printed ++ [0]⟩ ∧ 0 ∉ printed ∧
      w'.live.Perm (p :: w.live) ∧ w'.live.Nodup ∧ printed.Sublist text ∧
      (¬ Refuses gives → printed = text)

theorem described_of_printed {w : StringBuffers.World σ} {text : List UInt8} (hinv : StringBuffers.Inv w.live st)
    (hgrow : Growing st) (hzero : 0 ∉ text) (hsub : st.s.text.Sublist text)
    (hall : ¬ Refuses gives → st.s.text = text) :
    ∃ r, (do
      let (_, st) ← onBuffer (sbufFinish st)
      let (result, w) ← onBuffer (strdup gives (sbufData st.s) st.w)
      let w ← onBuffer (sbufDelete ⟨st.s, w⟩)
      .ok (result, w)) = .ok r ∧ Described gives w text r := by
  obtain ⟨st', hfinish, hinv', hfin⟩ := sbufFinish_spec hinv
  have hnozero : 0 ∉ st.s.text := fun hmem => hzero (hsub.subset hmem)
  -- the terminator is behind the text
  have hstr : st'.s.sBuf.bytes.takeWhile (· ≠ 0) = st.s.text := by
    have hstream := hfin.stream
    rw [stream, stream, (hfin.kept hgrow.noDrain).1] at hstream
    have htext : st'.s.text = st.s.text := List.append_cancel_left hstream
    have hnozero' : 0 ∉ st'.s.text := htext ▸ hnozero
    rw [← htext]
    exact takeWhile_eq_take hnozero' hfin.terminated
  have hlt : st.s.text.length < st'.s.sBuf.bytes.length := by
    have hfits := hinv'.fits
    have hlen := length_text hinv.fits
    have hle := hfits.size_le
    have hroom := hinv.fits.len_lt
    rw [hfin.size] at hle
    omega
  have hnamed : Named st'.w := ⟨hinv'.owns.nodup, hinv'.owns.fresh⟩
  rw [hfinish]
  simp only [onBuffer, Except.mapError, ok_bind, strdup, sbufData, hstr, if_pos hlt]
  rcases calloc_spec gives (st.s.text.length + 1) hnamed with
    ⟨w₁, hcalloc, hlive, hnamed₁⟩ | ⟨p, w₁, hcalloc, hlive, hnamed₁⟩
  · have hinv₁ : StringBuffers.Inv w.live ⟨st'.s, w₁⟩ :=
      ⟨hinv'.fits, hinv'.owns.dynamic, hinv'.owns.dynstruct, hlive ▸ hinv'.owns.live, hnamed₁.nodup,
        hnamed₁.fresh⟩
    obtain ⟨w', hdelete, hperm⟩ := sbufDelete_spec hinv₁
    refine ⟨(none, w'), ?_, refuses_of_calloc hcalloc, hperm⟩
    rw [hcalloc]
    simp only [hdelete, ok_bind, Option.map_none]
  · have hinv₁ := Inv.beside hinv' hnamed₁ hlive
    obtain ⟨w', hdelete, hperm⟩ := sbufDelete_spec hinv₁
    have hnodup : (p :: w.live).Nodup := by
      have hblocks := (hinv₁.owns.live.nodup_iff).mp hinv₁.owns.nodup
      exact (List.nodup_append.mp (List.nodup_append.mp hblocks).2.1).2.1
    refine ⟨(some ⟨some p, st.s.text ++ [0]⟩, w'), ?_, p, st.s.text, rfl, hnozero, hperm,
      hperm.nodup_iff.mpr hnodup, hsub, hall⟩
    rw [hcalloc]
    simp only [hdelete, ok_bind, Option.map_some]

/-- The description of an object is the text of its tree: the call crashes only where
there is no memory for the buffer itself, and frees all but the string that it returns.
A refused extension loses a part of the text without any sign of it. -/
theorem xpcCopyDescription_tree (gives : σ → ℤ → Bool × σ) {h : Heap (List ObjId)} {x n : ℕ} {t : Tree}
    {w : StringBuffers.World σ}
    (ht : TreeAt h x t) (hd : t.NoUuid) (hn : t.height < n) (hw : Named w)
    (hshort : t.description.length + 4096 ≤ intMax) :
    (xpcCopyDescription gives h n (some x) w = .error .nullBuffer ∧ Refuses gives) ∨
      ∃ r, xpcCopyDescription gives h n (some x) w = .ok r ∧ Described gives w t.description r := by
  rcases sbufNewAuto_cases gives hw with ⟨w', hnew, hrefuse⟩ | ⟨s, w', hnew, hinv, hgrow, hlen⟩
  · refine .inl ⟨?_, hrefuse⟩
    rw [xpcCopyDescription, hnew]
    rfl
  · have hempty : (⟨s, w'⟩ : State σ).s.text = [] := by
      rw [Sbuf.text, hlen]
      rfl
    have hwrites : Writes gives w.live (t.lines 0) (xpcCopyDescriptionLevel gives h n (some x) 0) :=
      writes_level ht hd hn
    obtain ⟨st, hlevel, hinv', hwrote⟩ := hwrites ⟨s, w'⟩ hinv hgrow (by
        rw [Tree.description] at hshort
        dsimp only
        omega)
    obtain ⟨added, hadded, hsub, hall⟩ := hwrote.text
    rw [hempty, List.nil_append] at hadded
    subst hadded
    obtain ⟨r, hrest, hdescribed⟩ := described_of_printed hinv' hwrote.growing (t.zero_notMem_lines 0) hsub hall
    refine .inr ⟨r, ?_, hdescribed⟩
    rw [xpcCopyDescription, hnew]
    simp only [onBuffer, Except.mapError, ok_bind, hlevel]
    exact hrest

theorem named_emptyHeap : Named emptyHeap := ⟨List.nodup_nil, fun _ hx => absurd hx List.not_mem_nil⟩

/-- With memory for it the whole text is returned. -/
theorem xpcCopyDescription_whole {h : Heap (List ObjId)} {x n : ℕ} {t : Tree} {w : StringBuffers.World σ}
    (ht : TreeAt h x t) (hd : t.NoUuid) (hn : t.height < n) (hw : Named w)
    (hshort : t.description.length + 4096 ≤ intMax) (hmem : ¬ Refuses gives) :
    ∃ p w', xpcCopyDescription gives h n (some x) w =
      .ok (some ⟨some p, t.description ++ [0]⟩, w') := by
  rcases xpcCopyDescription_tree gives ht hd hn hw hshort with ⟨-, hrefuse⟩ | ⟨⟨r, w'⟩, hr, hdescribed⟩
  · exact absurd hrefuse hmem
  · cases r with
    | none => exact absurd hdescribed.1 hmem
    | some str =>
      obtain ⟨p, printed, rfl, -, -, -, -, hall⟩ := hdescribed
      rw [hall hmem] at hr
      exact ⟨p, w', hr⟩

/-- A description has a line for every node of the tree, apart from the ends of lines in
its keys and strings. -/
theorem xpcCopyDescription_lines {h : Heap (List ObjId)} {x n : ℕ} {t : Tree} {w : StringBuffers.World σ}
    (ht : TreeAt h x t) (hd : t.NoUuid) (hn : t.height < n) (hw : Named w)
    (hshort : t.description.length + 4096 ≤ intMax) (hmem : ¬ Refuses gives) :
    ∃ str w', xpcCopyDescription gives h n (some x) w = .ok (some str, w') ∧
      str.bytes.count 10 = t.nodes + t.newlines := by
  obtain ⟨p, w', hr⟩ := xpcCopyDescription_whole ht hd hn hw hshort hmem
  refine ⟨_, w', hr, ?_⟩
  rw [List.count_append, Tree.description, t.count_lines 0]
  rfl

theorem not_refuses_plenty : ¬ Refuses plenty := by
  intro hrefuse
  obtain ⟨w, size, hgiven⟩ := hrefuse
  cases hgiven

theorem treeAt_boolInArray : TreeAt boolInArray 1 (.array [.leaf (.bool true)]) :=
  ⟨Nat.zero_le 1, _, _, rfl, rfl, ⟨Nat.zero_le 0, _, rfl, rfl⟩, trivial⟩

theorem xpcCopyDescription_lines_boolInArray :
    ∃ str w', xpcCopyDescription plenty boolInArray 2 (some 1) emptyHeap = .ok (some str, w') ∧
      str.bytes.count 10 = (Tree.array [.leaf (.bool true)]).nodes + (Tree.array [.leaf (.bool true)]).newlines :=
  xpcCopyDescription_lines treeAt_boolInArray (by simp [Tree.NoUuid, Leaf.isUuid]) (by decide)
    named_emptyHeap (by decide) not_refuses_plenty

end OpenXPC.Descriptions

/-! ## Descriptions of copies -/

namespace OpenXPC.Tree
open Descriptions StringBuffers

theorem nodes_pos (t : Tree) : 0 < t.nodes := by
  cases t with
  | leaf v => exact Nat.one_pos
  | array ts => exact Nat.succ_pos _
  | dictionary ps => exact Nat.succ_pos _

mutual

/-- A copy has no more lines. -/
theorem lines_pruned_le : ∀ t : Tree,
    t.pruned.nodes ≤ t.nodes ∧ t.pruned.newlines ≤ t.newlines ∧ t.pruned.height ≤ t.height
  | .leaf v => ⟨Nat.le_refl _, Nat.le_refl _, Nat.le_refl _⟩
  | .array ts => by
    obtain ⟨hnodes, hnewlines, hheight⟩ := lines_prunedElems_le 0 ts
    exact ⟨Nat.succ_le_succ hnodes, hnewlines, Nat.succ_le_succ hheight⟩
  | .dictionary ps => by
    obtain ⟨hnodes, hnewlines, hheight⟩ := lines_prunedPairs_le ps
    exact ⟨Nat.succ_le_succ hnodes, hnewlines, Nat.succ_le_succ hheight⟩

theorem lines_prunedElems_le (i : ℕ) : ∀ ts : List Tree,
    nodesElems (prunedElems i ts) ≤ nodesElems ts ∧ newlinesElems (prunedElems i ts) ≤ newlinesElems ts ∧
      heightElems (prunedElems i ts) ≤ heightElems ts
  | [] => ⟨Nat.le_refl _, Nat.le_refl _, Nat.le_refl _⟩
  | t :: ts => by
    obtain ⟨hnodes, hnewlines, hheight⟩ := lines_pruned_le t
    obtain ⟨hnodes', hnewlines', hheight'⟩ := lines_prunedElems_le (i + 1) ts
    rw [prunedElems]
    split_ifs
    · simp only [nodesElems, newlinesElems, heightElems]
      omega
    · simp only [nodesElems, newlinesElems, heightElems]
      omega

theorem lines_prunedPairs_le : ∀ ps : List (CString × Tree),
    nodesPairs (prunedPairs ps) ≤ nodesPairs ps ∧ newlinesPairs (prunedPairs ps) ≤ newlinesPairs ps ∧
      heightPairs (prunedPairs ps) ≤ heightPairs ps
  | [] => ⟨Nat.le_refl _, Nat.le_refl _, Nat.le_refl _⟩
  | (k, t) :: ps => by
    obtain ⟨hnodes, hnewlines, hheight⟩ := lines_pruned_le t
    obtain ⟨hnodes', hnewlines', hheight'⟩ := lines_prunedPairs_le ps
    simp only [prunedPairs, nodesPairs, newlinesPairs, heightPairs]
    omega

end

/-- Where no node is lost, there was no element to lose. -/
theorem arraysEmpty_of_nodes {t : Tree} (h : t.nodes ≤ t.pruned.nodes) : t.ArraysEmpty := by
  induction t with
  | leaf v => trivial
  | array ts ih =>
    cases ts with
    | nil => exact all_array.mpr ⟨rfl, fun t ht => absurd ht List.not_mem_nil⟩
    | cons t ts =>
      have hrest := (lines_prunedElems_le (0 + 1) ts).1
      have hpos := t.nodes_pos
      rw [pruned, nodes, nodes, prunedElems, if_neg (by decide), nodesElems] at h
      omega
  | dictionary ps ih =>
    refine all_dictionary.mpr ⟨trivial, ?_⟩
    rw [pruned, nodes, nodes, Nat.add_le_add_iff_right] at h
    induction ps with
    | nil => exact fun q hq => absurd hq List.not_mem_nil
    | cons p ps ihps =>
      obtain ⟨k, t⟩ := p
      have hfirst := (lines_pruned_le t).1
      have hrest := (lines_prunedPairs_le ps).1
      rw [prunedPairs, nodesPairs, nodesPairs] at h
      rw [List.forall_mem_cons] at ih ⊢
      exact ⟨ih.1 (by dsimp only; omega), ihps ih.2 (by omega)⟩

mutual

theorem noUuid_pruned : ∀ t : Tree, t.NoUuid → t.pruned.NoUuid
  | .leaf _, hd => hd
  | .array ts, hd => all_array.mpr ⟨trivial, noUuid_prunedElems 0 ts (all_array.mp hd).2⟩
  | .dictionary ps, hd => all_dictionary.mpr ⟨trivial, noUuid_prunedPairs ps (all_dictionary.mp hd).2⟩

theorem noUuid_prunedElems (i : ℕ) : ∀ ts : List Tree, (∀ t ∈ ts, t.NoUuid) →
    ∀ t ∈ prunedElems i ts, t.NoUuid
  | [], _ => fun _ ht => absurd ht List.not_mem_nil
  | t :: ts, hd => by
    rw [List.forall_mem_cons] at hd
    have hrest := noUuid_prunedElems (i + 1) ts hd.2
    rw [prunedElems]
    split_ifs
    · exact List.forall_mem_cons.mpr ⟨noUuid_pruned t hd.1, hrest⟩
    · exact hrest

theorem noUuid_prunedPairs : ∀ ps : List (CString × Tree), (∀ p ∈ ps, p.2.NoUuid) →
    ∀ p ∈ prunedPairs ps, p.2.NoUuid
  | [], _ => fun _ hp => absurd hp List.not_mem_nil
  | (k, t) :: ps, hd => by
    rw [List.forall_mem_cons] at hd
    exact List.forall_mem_cons.mpr ⟨noUuid_pruned t hd.1, noUuid_prunedPairs ps hd.2⟩

end

/-- A UUID is not copied. -/
theorem noUuid_of_copyable {t : Tree} (hc : t.Copyable) : t.NoUuid := by
  induction t with
  | leaf v =>
    have hv : v.Copyable := hc
    cases v with
    | uuid bytes => exact absurd hv id
    | _ => rfl
  | array ts ih => exact all_array.mpr ⟨trivial, fun t ht => ih t ht ((all_array.mp hc).2 t ht)⟩
  | dictionary ps ih => exact all_dictionary.mpr ⟨trivial, fun p hp => ih p hp ((all_dictionary.mp hc).2 p hp)⟩

theorem description_pruned_iff {t : Tree} : t.pruned.description = t.description ↔ t.ArraysEmpty := by
  constructor
  · intro heq
    have hcount := congrArg (List.count 10) heq
    rw [description, description, count_lines, count_lines] at hcount
    have hle := lines_pruned_le t
    exact arraysEmpty_of_nodes (by omega)
  · intro hempty
    rw [(pruned_eq_self_iff t).mpr hempty]

theorem prunedElems_eq_nil {i : ℕ} {ts : List Tree} (h : i + ts.length ≤ xpcArrayAppend) :
    prunedElems i ts = [] := by
  induction ts generalizing i with
  | nil => rfl
  | cons t ts ih =>
    rw [List.length_cons] at h
    rw [prunedElems, if_neg (by omega), ih (by omega)]

theorem length_le_linesElems (level idx : ℕ) (ts : List Tree) :
    ts.length ≤ (linesElems level idx ts).length := by
  induction ts generalizing idx with
  | nil => exact Nat.le_refl _
  | cons t ts ih =>
    have hrest := ih (idx + 1)
    have hblank : 1 ≤ (blanks (level * 4)).length := by
      rw [blanks, List.length_append]
      exact Nat.le_add_left _ _
    rw [linesElems, List.length_cons]
    simp only [List.length_append]
    omega

mutual

/-- Nor is it longer. -/
theorem length_lines_pruned (level : ℕ) : ∀ t : Tree, (t.lines level).length ≤ xpcArrayAppend →
    (t.pruned.lines level).length ≤ (t.lines level).length
  | .leaf v, _ => Nat.le_refl _
  | .array ts, hle => by
    have helems := length_le_linesElems level 0 ts
    simp only [pruned, lines, List.length_append] at hle ⊢
    rw [prunedElems_eq_nil (by omega), linesElems, List.length_nil]
    omega
  | .dictionary ps, hle => by
    simp only [pruned, lines, List.length_append] at hle ⊢
    have hpairs := length_linesPairs_pruned level ps (by omega)
    omega

theorem length_linesPairs_pruned (level : ℕ) : ∀ ps : List (CString × Tree),
    (linesPairs level ps).length ≤ xpcArrayAppend →
    (linesPairs level (prunedPairs ps)).length ≤ (linesPairs level ps).length
  | [], _ => Nat.le_refl _
  | (k, t) :: ps, hle => by
    simp only [prunedPairs, linesPairs, List.length_append] at hle ⊢
    have hfirst := length_lines_pruned (level + 1) t (by omega)
    have hrest := length_linesPairs_pruned level ps (by omega)
    omega

end

end OpenXPC.Tree

namespace OpenXPC.Descriptions
open StringBuffers

variable {σ : Type} {gives : σ → ℤ → Bool × σ}

/-- An object and its copy have the same description if and only if every array in the
object is empty. -/
theorem description_of_copy {h : Heap (List ObjId)} {x n : ℕ} {t : Tree} {w : StringBuffers.World σ}
    (ht : TreeAt h x t) (hc : t.Copyable) (hk : t.WellKeyed) (hn : t.height < n) (hw : Named w)
    (hshort : t.description.length + 4096 ≤ intMax) (hmem : ¬ Refuses gives) :
    ∃ h' y p q text text' w₁ w₂, xpcCopy n h x = .ok (h', some y) ∧
      xpcCopyDescription gives h' n (some x) w = .ok (some ⟨some p, text ++ [0]⟩, w₁) ∧
      xpcCopyDescription gives h' n (some y) w = .ok (some ⟨some q, text' ++ [0]⟩, w₂) ∧
      (text' = text ↔ t.ArraysEmpty) := by
  obtain ⟨h', y, hcopy, hkeep, hy⟩ := xpcCopy_ok ht hc hk hn
  have hlong : t.description.length ≤ xpcArrayAppend := by
    have hint : intMax ≤ xpcArrayAppend := by decide
    omega
  have hlen := t.length_lines_pruned 0 hlong
  have hheight := (Tree.lines_pruned_le t).2.2
  have hshort' : t.pruned.description.length + 4096 ≤ intMax := by
    rw [Tree.description] at hshort ⊢
    omega
  have hd : t.NoUuid := Tree.noUuid_of_copyable hc
  obtain ⟨p, w₁, hfirst⟩ := xpcCopyDescription_whole (ht.keeps (Nat.zero_le _) hkeep) hd hn hw hshort hmem
  have hy' : TreeAt h' y t.pruned := hy.keeps (Nat.zero_le _) (Heap.Keeps.refl h')
  obtain ⟨q, w₂, hsecond⟩ := xpcCopyDescription_whole hy' (t.noUuid_pruned hd)
    (Nat.lt_of_le_of_lt hheight hn) hw hshort' hmem
  exact ⟨h', y, p, q, _, _, w₁, w₂, hcopy, hfirst, hsecond, Tree.description_pruned_iff⟩

theorem description_of_copy_boolInArray :
    ∃ h' y p q text text' w₁ w₂, xpcCopy 3 boolInArray 1 = .ok (h', some y) ∧
      xpcCopyDescription plenty h' 3 (some 1) emptyHeap = .ok (some ⟨some p, text ++ [0]⟩, w₁) ∧
      xpcCopyDescription plenty h' 3 (some y) emptyHeap = .ok (some ⟨some q, text' ++ [0]⟩, w₂) ∧
      (text' = text ↔ (Tree.array [.leaf (.bool true)]).ArraysEmpty) := by
  exact description_of_copy treeAt_boolInArray (by simp [Tree.Copyable, Leaf.Copyable])
    (by simp [Tree.WellKeyed]) (by decide) named_emptyHeap (by decide) not_refuses_plenty

end OpenXPC.Descriptions
