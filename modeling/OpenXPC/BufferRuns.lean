import OpenXPC.BufferSteps

/-! # Runs of the operations on a string buffer

Whatever the allocator and the drains answer, the operations stay inside the storage and
free each block once. A conversion that fails takes a byte of the text away, so it needs
a text that is not empty. -/
namespace OpenXPC.StringBuffers
open Overwriting Outcomes GuardedRuns

variable {σ : Type} {gives : σ → ℤ → Bool × σ} {base : List ℕ} {st : State σ}

inductive Op (σ : Type)
  | clear
  | setpos (pos : ℤ)
  | bcat (buf : List UInt8)
  | bcpy (buf : List UInt8)
  | cat (str : CString)
  | cpy (str : CString)
  | printf (fmt : Formatted)
  | putc (c : UInt8)
  | setDrain (func : Option (Drain σ))
  | trim
  | finish
  | startSection
  | endSection (oldLen : ℤ) (pad : ℕ) (c : UInt8)

/-- The result is 0 where the function has none, and for a section the length that is saved. -/
def perform (gives : σ → ℤ → Bool × σ) (op : Op σ) (st : State σ) : Except Overrun (ℤ × State σ) :=
  match op with
  | .clear => .ok (0, sbufClear st)
  | .setpos pos => .ok (sbufSetpos pos st)
  | .bcat buf => sbufBcat gives buf st
  | .bcpy buf => sbufBcpy gives buf st
  | .cat str => sbufCat gives str st
  | .cpy str => sbufCpy gives str st
  | .printf fmt => sbufVprintf gives fmt st
  | .putc c => sbufPutc gives c st
  | .setDrain func => .ok (0, sbufSetDrain func st)
  | .trim => sbufTrim st
  | .finish => sbufFinish st
  | .startSection => .ok (sbufStartSection st)
  | .endSection oldLen pad c => sbufEndSection gives oldLen pad c st

def machine (gives : σ → ℤ → Bool × σ) : Machine (State σ) (Op σ) Overrun where
  allowed _ _ := True
  exec st op := (perform gives op st).map Prod.snd

/-- The bytes that an operation appends. -/
def Op.bytes (sectLen : ℤ) : Op σ → List UInt8
  | .bcat buf => buf
  | .bcpy buf => buf
  | .cat str => str.bytes
  | .cpy str => str.bytes
  | .printf fmt => fmt.bytes
  | .putc c => [c]
  | .endSection _ pad c => filler sectLen pad c
  | _ => []

/-- No conversion fails before there is a text, and a drain has room for a byte. -/
def Careful (st : State σ) : Op σ → Prop
  | .printf fmt => st.s.sError = 0 → fmt.result = -1 → 0 < st.s.sLen
  | .setDrain func => func ≠ none → 2 ≤ st.s.sSize
  | _ => True

/-- The text is far from the lengths that no int holds. -/
def Short (st : State σ) (op : Op σ) : Prop :=
  st.s.sLen + (op.bytes st.s.sSectLen).length + 4096 ≤ intMax

theorem sbufClear_inv (h : Inv base st) : Inv base (sbufClear st) :=
  h.keep (Int.le_refl 0) h.fits.len_nonneg rfl rfl rfl rfl rfl rfl

theorem sbufBcat_inv (buf : List UInt8) (h : Inv base st) :
    Ends (TooLong buf.length st) (fun r => Inv base r.2) (sbufBcat gives buf st) := by
  rw [sbufBcat]
  split
  · exact h
  · rename_i hok
    exact (putBytes_spec gives buf h (not_not.mp hok)).mono (fun _ he => he) fun _ hr => hr.1

theorem sbufBcpy_inv (buf : List UInt8) (h : Inv base st) :
    Ends (TooLong buf.length st) (fun r => Inv base r.2) (sbufBcpy gives buf st) := by
  have hnonneg := h.fits.len_nonneg
  refine (sbufBcat_inv buf (sbufClear_inv h)).mono (fun e he => he.mono ?_) fun _ hr => hr
  dsimp only [sbufClear]
  omega

theorem sbufVprintf_inv {fmt : Formatted} (h : Inv base st) (hc : Careful st (.printf fmt)) :
    Ends (TooLong fmt.bytes.length st) (fun r => Inv base r.2) (sbufVprintf gives fmt st) := by
  by_cases hok : st.s.sError = 0
  · by_cases hfailed : fmt.result = -1
    · obtain ⟨r, st', hprint, hinv⟩ := sbufVprintf_failed gives h hok hfailed (hc hok hfailed)
      rw [hprint]
      exact hinv
    · obtain ⟨bytes, rfl, hint⟩ : ∃ bytes, fmt = .text bytes ∧ bytes.length ≤ intMax := by
        cases fmt with
        | failed written => exact absurd rfl hfailed
        | text bytes =>
          refine ⟨bytes, rfl, ?_⟩
          by_contra hlong
          exact hfailed (if_neg hlong)
      exact (sbufVprintf_spec h hok hint).mono (fun _ he => he) fun _ hr => hr.1
  · rw [sbufVprintf, if_pos hok]
    exact h

theorem sbufEndSection_inv (oldLen : ℤ) (pad : ℕ) (c : UInt8) (h : Inv base st) :
    Ends (TooLong (filler st.s.sSectLen pad c).length st) (fun r => Inv base r.2)
      (sbufEndSection gives oldLen pad c st) := by
  have hpad : Ends (TooLong (filler st.s.sSectLen pad c).length st) (Inv base) (padSection gives pad c st) := by
    by_cases hok : st.s.sError = 0
    · exact (padSection_spec pad c h hok).mono (fun _ he => he) fun _ hr => hr.1
    · rw [padSection_of_error pad c hok]
      exact h
  rw [sbufEndSection]
  refine Ends.bind hpad fun st₁ hinv => ?_
  rw [ends_ok]
  split
  · exact hinv.keep hinv.fits.len_nonneg (Int.le_refl _) rfl rfl rfl rfl rfl rfl
  · exact hinv.keep hinv.fits.len_nonneg (Int.le_refl _) rfl rfl rfl rfl rfl rfl

theorem sbufSetDrain_inv {func : Option (Drain σ)} (h : Inv base st)
    (hc : Careful st (.setDrain func)) : Inv base (sbufSetDrain func st) := by
  refine ⟨⟨h.fits.len_nonneg, h.fits.len_lt, h.fits.size_le, h.fits.size_int, hc⟩,
    ⟨h.owns.dynamic, h.owns.dynstruct, h.owns.live, h.owns.nodup, h.owns.fresh⟩⟩

theorem sbufPutc_inv (c : UInt8) (h : Inv base st) :
    Ends (TooLong 1 st) (fun r => Inv base r.2) (sbufPutc gives c st) := by
  rw [sbufPutc]
  refine Ends.bind (P := Inv base) ?_ fun _ hinv => hinv
  by_cases hok : st.s.sError = 0
  · exact (sbufPutByte_spec h hok c).mono (fun _ he => he) fun _ hr => hr.1
  · rw [sbufPutByte, if_pos hok]
    exact h

theorem sbufSetpos_inv (pos : ℤ) (h : Inv base st) : Inv base (sbufSetpos pos st).2 := by
  rw [sbufSetpos]
  split
  · exact h
  · exact h.keep (by dsimp only; omega) (by dsimp only; omega) rfl rfl rfl rfl rfl rfl

theorem sbufStartSection_inv (h : Inv base st) : Inv base (sbufStartSection st).2 := by
  rw [sbufStartSection]
  split
  · exact h.keep h.fits.len_nonneg (Int.le_refl _) rfl rfl rfl rfl rfl rfl
  · exact h.keep h.fits.len_nonneg (Int.le_refl _) rfl rfl rfl rfl rfl rfl

theorem sbufTrim_inv (h : Inv base st) : ∃ r st', sbufTrim st = .ok (r, st') ∧ Inv base st' := by
  by_cases hok : st.s.sError = 0
  · obtain ⟨htrim, hinv, -⟩ := sbufTrim_spec h hok
    exact ⟨_, _, htrim, hinv⟩
  · exact ⟨-1, st, by rw [sbufTrim, if_pos hok], h⟩

theorem TooLong.not_short {e : Overrun} (op : Op σ) (h : TooLong (op.bytes st.s.sSectLen).length st e) :
    e = .overflow ∧ ¬ Short st op :=
  ⟨h.1, Int.not_le.mpr h.2⟩

/-- The step lemma: the only fault is that of a text that is too long. -/
theorem perform_inv {op : Op σ} (h : Inv base st) (hc : Careful st op) :
    Ends (fun e => e = .overflow ∧ ¬ Short st op) (fun r => Inv base r.2) (perform gives op st) := by
  cases op with
  | clear => exact sbufClear_inv h
  | setpos pos => exact sbufSetpos_inv pos h
  | bcat buf => exact (sbufBcat_inv buf h).mono (fun _ he => he.not_short (.bcat buf)) fun _ hr => hr
  | bcpy buf => exact (sbufBcpy_inv buf h).mono (fun _ he => he.not_short (.bcpy buf)) fun _ hr => hr
  | cat str => exact (sbufBcat_inv str.bytes h).mono (fun _ he => he.not_short (.cat str)) fun _ hr => hr
  | cpy str => exact (sbufBcpy_inv str.bytes h).mono (fun _ he => he.not_short (.cpy str)) fun _ hr => hr
  | printf fmt => exact (sbufVprintf_inv h hc).mono (fun _ he => he.not_short (.printf fmt)) fun _ hr => hr
  | putc c => exact (sbufPutc_inv c h).mono (fun _ he => he.not_short (.putc c)) fun _ hr => hr
  | setDrain func => exact sbufSetDrain_inv h hc
  | trim =>
    obtain ⟨r, st', htrim, hinv⟩ := sbufTrim_inv h
    rw [perform, htrim]
    exact hinv
  | finish =>
    obtain ⟨st', hfinish, hinv, -⟩ := sbufFinish_spec h
    rw [perform, hfinish]
    exact hinv
  | startSection => exact sbufStartSection_inv h
  | endSection oldLen pad c =>
    exact (sbufEndSection_inv oldLen pad c h).mono (fun _ he => he.not_short (.endSection oldLen pad c)) fun _ hr => hr

theorem machine_inv {op : Op σ} (h : Inv base st) (hc : Careful st op) :
    Ends (fun e => e = .overflow ∧ ¬ Short st op) (Inv base) ((machine gives).exec st op) :=
  (perform_inv h hc).map

/-! ## The life of a buffer -/

theorem sbufDelete_spec (h : Inv base st) : ∃ w, sbufDelete st = .ok w ∧ w.live.Perm base := by
  have hlive := h.owns.live
  obtain ⟨w, hfree, hw⟩ : ∃ w, freeBuf st.s st.w = .ok w ∧ w.live.Perm (st.s.self.toList ++ base) := by
    rw [freeBuf, h.owns.dynamic]
    cases hblock : st.s.sBuf.block with
    | none =>
      rw [hblock] at hlive
      exact ⟨st.w, rfl, hlive⟩
    | some x =>
      rw [hblock] at hlive
      have herase := hlive.erase x
      rw [Option.toList_some, List.singleton_append, List.erase_cons_head] at herase
      exact ⟨_, if_pos (hlive.mem_iff.mpr List.mem_cons_self), herase⟩
  rw [sbufDelete, hfree, ok_bind, h.owns.dynstruct]
  cases hself : st.s.self with
  | none =>
    rw [hself] at hw
    exact ⟨w, rfl, hw⟩
  | some x =>
    rw [hself] at hw
    have herase := hw.erase x
    rw [Option.toList_some, List.singleton_append, List.erase_cons_head] at herase
    exact ⟨_, if_pos (hw.mem_iff.mpr List.mem_cons_self), herase⟩

/-- The names of the blocks in the heap. -/
structure Named (w : World σ) : Prop where
  nodup : w.live.Nodup
  fresh : ∀ x ∈ w.live, x < w.next

theorem calloc_spec (gives : σ → ℤ → Bool × σ) {w : World σ} (size : ℤ) (hw : Named w) :
    (∃ w', calloc gives size w = (none, w') ∧ w'.live = w.live ∧ Named w') ∨
      ∃ x w', calloc gives size w = (some x, w') ∧ w'.live = x :: w.live ∧ Named w' := by
  rw [calloc]
  rcases gives w.rest size with ⟨given, rest⟩
  cases given with
  | false => exact .inl ⟨_, rfl, rfl, hw.nodup, hw.fresh⟩
  | true =>
    refine .inr ⟨_, _, rfl, rfl, List.nodup_cons.mpr ⟨fun hmem => ?_, hw.nodup⟩, fun x hx => ?_⟩
    · exact Nat.lt_irrefl _ (hw.fresh _ hmem)
    · rcases List.mem_cons.mp hx with rfl | hx
      · exact Nat.lt_succ_self _
      · exact Nat.lt_succ_of_lt (hw.fresh x hx)

/-- Storage of the caller is as large as it says, and there is a byte for the terminator. -/
def Roomy (buf : Option (List UInt8)) (length : ℤ) (autoextend : Bool) : Prop :=
  length ≤ intMax ∧ match buf with
    | some buf => 0 < length ∧ length ≤ buf.length
    | none => 0 < length ∨ (autoextend = true ∧ 0 ≤ length)

/-- What `sbuf_new` leaves: a buffer, or the heap as it was. -/
def Made (base : List ℕ) (r : Option (Sbuf σ) × World σ) : Prop :=
  match r.1 with
  | some s => Inv base ⟨s, r.2⟩
  | none => r.2.live.Perm base

theorem firstSize_spec {length : ℤ} {autoextend : Bool} (h : Roomy none length autoextend) :
    Ends (· = .overflow) (fun size => 0 < size ∧ size ≤ intMax) (firstSize length autoextend) := by
  obtain ⟨hint, hpos⟩ := h
  rw [firstSize]
  split
  · refine sbufExtendsize_spec.mono (fun _ he => he.1) ?_
    intro size ⟨_, h16, hmax, _⟩
    exact ⟨by omega, hmax⟩
  · rename_i hfixed
    rcases hpos with hpos | ⟨hauto, -⟩
    · exact ⟨hpos, hint⟩
    · exact absurd hauto hfixed

theorem initial_inv {w : World σ} {self : Option ℕ} (block : Option ℕ) {bytes : List UInt8} {length : ℤ}
    (autoextend : Bool) (hpos : 0 < length) (hint : length ≤ intMax) (hle : length ≤ bytes.length)
    (hw : Named w) (hlive : w.live.Perm (block.toList ++ (self.toList ++ base))) :
    Inv base ⟨initial self ⟨block, bytes⟩ length autoextend block.isSome, w⟩ :=
  ⟨⟨Int.le_refl 0, hpos, hle, hint, fun hne => absurd rfl hne⟩, ⟨rfl, rfl, hlive, hw.nodup, hw.fresh⟩⟩

/-- The structure is freed if there is no storage for it. -/
theorem sbufNewbuf_spec {w : World σ} (self : Option ℕ) {buf : Option (List UInt8)} {length : ℤ}
    {autoextend : Bool} (hbuf : Roomy buf length autoextend) (hw : Named w)
    (hlive : w.live.Perm (self.toList ++ base)) :
    Ends (· = .overflow) (fun r => match r.1 with
        | some s => Inv base ⟨s, r.2⟩
        | none => r.2.live.Perm (self.toList ++ base))
      (sbufNewbuf gives self buf length autoextend w) := by
  cases buf with
  | some buf => exact initial_inv none autoextend hbuf.2.1 hbuf.1 hbuf.2.2 hw hlive
  | none =>
    rw [sbufNewbuf]
    refine Ends.bind (firstSize_spec hbuf) fun size ⟨hpos, hmax⟩ => ?_
    rcases calloc_spec gives size hw with ⟨w', hcalloc, hw', -⟩ | ⟨x, w', hcalloc, hw', hnamed⟩
    · rw [hcalloc]
      exact (List.Perm.of_eq hw').trans hlive
    · rw [hcalloc]
      refine initial_inv (some x) autoextend hpos hmax ?_ hnamed ?_
      · rw [List.length_replicate]
        omega
      · rw [hw']
        exact List.Perm.cons x hlive

theorem sbufNew_spec {w : World σ} {own : Bool} {buf : Option (List UInt8)} {length : ℤ}
    {autoextend : Bool} (hbuf : Roomy buf length autoextend) (hw : Named w) :
    Ends (· = .overflow) (Made w.live) (sbufNew gives own buf length autoextend w) := by
  rw [sbufNew]
  split
  · exact sbufNewbuf_spec none hbuf hw (List.Perm.refl _)
  · rcases calloc_spec gives 64 hw with ⟨w', hcalloc, hw', -⟩ | ⟨x, w', hcalloc, hw', hnamed⟩
    · rw [hcalloc]
      exact List.Perm.of_eq hw'
    · rw [hcalloc]
      refine Ends.bind (sbufNewbuf_spec (some x) hbuf hnamed (List.Perm.of_eq hw')) ?_
      rintro ⟨s, w''⟩ hmade
      cases s with
      | some s => exact hmade
      | none =>
        have herase := List.Perm.erase x hmade
        rw [Option.toList_some, List.singleton_append, List.erase_cons_head] at herase
        have hmem : x ∈ w''.live := List.Perm.mem_iff hmade |>.mpr List.mem_cons_self
        dsimp only
        rw [free, if_pos hmem]
        exact herase

/-- A buffer in use: the text and its terminator are in the storage, and deleting the
buffer leaves the heap as it was before. -/
structure InUse (base : List ℕ) (st : State σ) : Prop where
  len_nonneg : 0 ≤ st.s.sLen
  len_lt : st.s.sLen < st.s.sSize
  size_le : st.s.sSize ≤ st.s.sBuf.bytes.length
  deleted : ∃ w, sbufDelete st = .ok w ∧ w.live.Perm base

theorem Inv.inUse (h : Inv base st) : InUse base st :=
  ⟨h.fits.len_nonneg, h.fits.len_lt, h.fits.size_le, sbufDelete_spec h⟩

/-- An allocator that always has memory. -/
def plenty : Unit → ℤ → Bool × Unit := fun w _ => (true, w)

def emptyHeap : World Unit := ⟨0, [], [], ()⟩

/-- A buffer that `sbuf_new_auto` gives in an empty heap. -/
def newBuffer : State Unit :=
  ⟨initial (some 0) ⟨some 1, List.replicate 16 0⟩ 16 true true, ⟨2, [1, 0], [], ()⟩⟩

/-- A text that makes the storage grow. -/
def seventeen : List UInt8 := List.replicate 17 97

def printSeventeen : List (Op Unit × Except Overrun (State Unit)) :=
  [(.printf (.text seventeen), (machine plenty).exec newBuffer (.printf (.text seventeen)))]

end OpenXPC.StringBuffers
