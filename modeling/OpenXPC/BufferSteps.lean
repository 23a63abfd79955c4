import Mathlib.Algebra.Ring.Nat
import Mathlib.Data.Nat.Size
import Mathlib.Data.List.DropRight
import Mathlib.Data.List.Perm.Basic
import OpenXPC.Outcomes
import OpenXPC.StringBuffers

/-! # What the operations on string buffers do

The text leaves room for a terminator, and every block in the heap has one owner. An
operation that appends is described by the bytes that it adds to what the drains have
taken and the buffer holds, by the error, and by the blocks that it asks for. -/
namespace OpenXPC.StringBuffers
open Overwriting Outcomes

variable {σ : Type} {gives : σ → ℤ → Bool × σ} {base : List ℕ} {s : Sbuf σ} {st st' : State σ}
  {b : Storage}

/-! ## Storage -/

section Storages

variable {data : List UInt8} {start n : ℤ}

theorem Storage.load_eq (hstart : 0 ≤ start) (hn : 0 ≤ n) (hle : start + n ≤ b.bytes.length) :
    b.load start n = .ok ((b.bytes.drop start.toNat).take n.toNat) :=
  if_pos ⟨hstart, hn, hle⟩

theorem Storage.store_eq (hstart : 0 ≤ start) (hle : start + data.length ≤ b.bytes.length) :
    b.store start data = .ok ⟨b.block, overwrite b.bytes start.toNat data⟩ :=
  if_pos ⟨hstart, hle⟩

end Storages

/-! ## Sizes -/

theorem doubled_le (size : ℤ) (fuel : ℕ) (newsize : ℤ) :
    doubled size fuel newsize ≤ max newsize (2 * size) := by
  induction fuel generalizing newsize with
  | zero => exact Int.le_max_left _ _
  | succ fuel ih =>
    rw [doubled]
    split
    · have hnext := ih (newsize * 2)
      omega
    · exact Int.le_max_left _ _

theorem le_doubled {size newsize : ℤ} {fuel : ℕ} (hpos : 1 ≤ newsize)
    (hfuel : size ≤ newsize + fuel) : size ≤ doubled size fuel newsize := by
  induction fuel generalizing newsize with
  | zero =>
    rw [doubled]
    omega
  | succ fuel ih =>
    rw [doubled]
    split
    · exact ih (by omega) (by omega)
    · omega

theorem exists_doubled (size : ℤ) (fuel : ℕ) (newsize : ℤ) :
    ∃ k : ℕ, doubled size fuel newsize = newsize * (2 ^ k : ℕ) := by
  induction fuel generalizing newsize with
  | zero => exact ⟨0, by simp [doubled]⟩
  | succ fuel ih =>
    rw [doubled]
    split
    · obtain ⟨k, hk⟩ := ih (newsize * 2)
      refine ⟨k + 1, ?_⟩
      rw [hk, Nat.pow_succ]
      push_cast
      rw [Int.mul_assoc, Int.mul_comm 2]
    · exact ⟨0, by simp⟩

/-- How often a buffer can have been extended before it has a size. -/
def extensions (size : ℤ) : ℕ :=
  if size < maxExtendSize then (size.toNat / 16).size else 8 + size.toNat / 4096

theorem extensions_mul_pow {k : ℕ} (hk : k ≤ 8) : extensions (16 * (2 ^ k : ℕ)) = k + 1 := by
  have hdiv : ((16 * (2 ^ k : ℕ) : ℤ)).toNat / 16 = 2 ^ k := by
    have hpos : 0 < 2 ^ k := Nat.pow_pos (by decide)
    omega
  rw [extensions]
  rcases Nat.lt_or_ge k 8 with hlt | hge
  · have hpow : 2 ^ k ≤ 2 ^ 7 := Nat.pow_le_pow_right (by decide) (by omega)
    rw [if_pos (by rw [maxExtendSize]; omega), hdiv, Nat.size_pow]
  · obtain rfl : k = 8 := by omega
    rfl

theorem extensions_le {size : ℤ} {k : ℕ} (hlt : size < 16 * (2 ^ k : ℕ)) (hk : k ≤ 8) :
    extensions size ≤ k := by
  have hpow : 2 ^ k ≤ 2 ^ 8 := Nat.pow_le_pow_right (by decide) hk
  have hpos : 0 < 2 ^ k := Nat.pow_pos (by decide)
  rw [extensions, if_pos (by rw [maxExtendSize]; omega), Nat.size_le]
  omega

/-- The least power of two from 16 on, or the next multiple of the page size. -/
theorem sbufExtendsize_spec {size : ℤ} :
    Ends (fun e => e = .overflow ∧ intMax < size + 4095)
      (fun newsize => size ≤ newsize ∧ 16 ≤ newsize ∧ newsize ≤ intMax ∧
        newsize ≤ max 16 (2 * size) ∧ newsize ≤ max 4096 (size + 4095) ∧
        ∀ old, old < size → extensions old < extensions newsize)
      (sbufExtendsize size) := by
  rw [sbufExtendsize]
  split
  · rename_i hsmall
    rw [maxExtendSize] at hsmall
    have hle : size ≤ doubled size size.toNat minExtendSize := by
      apply le_doubled
      · decide
      · rw [minExtendSize]
        omega
    have hmax := doubled_le size size.toNat minExtendSize
    obtain ⟨k, hk⟩ := exists_doubled size size.toNat minExtendSize
    rw [hk, minExtendSize] at hle hmax
    have hk8 : k ≤ 8 := by
      by_contra hlarge
      have hpow : 2 ^ 9 ≤ 2 ^ k := Nat.pow_le_pow_right (by decide) (by omega)
      omega
    have hpos : 0 < 2 ^ k := Nat.pow_pos (by decide)
    have hpow : 2 ^ k ≤ 2 ^ 8 := Nat.pow_le_pow_right (by decide) hk8
    rw [ends_ok, hk, minExtendSize, intMax]
    refine ⟨hle, by omega, by omega, by omega, by omega, fun old hold => ?_⟩
    rw [extensions_mul_pow hk8]
    exact Nat.lt_succ_of_le (extensions_le (by omega) hk8)
  · rename_i hlarge
    rw [maxExtendSize] at hlarge
    split
    · rename_i hover
      rw [ends_error]
      exact ⟨rfl, hover⟩
    · rename_i hfits
      rw [maxExtendSize] at hfits
      rw [ends_ok, maxExtendSize]
      refine ⟨by omega, by omega, by omega, by omega, by omega, fun old hold => ?_⟩
      rw [extensions, extensions, maxExtendSize,
        if_neg (by omega : ¬ (size + (4096 - 1)) / 4096 * 4096 < 4096)]
      split
      · have hbits : (old.toNat / 16).size ≤ 8 := Nat.size_le.mpr (by omega)
        omega
      · omega

/-! ## The invariant -/

/-- The text has room for a terminator, and with a drain for a byte too. -/
structure Fits (s : Sbuf σ) : Prop where
  len_nonneg : 0 ≤ s.sLen
  len_lt : s.sLen < s.sSize
  size_le : s.sSize ≤ s.sBuf.bytes.length
  size_int : s.sSize ≤ intMax
  drain_size : s.sDrainFunc ≠ none → 2 ≤ s.sSize

/-- The blocks of the buffer are apart from each other and from the rest of the heap. -/
structure Owns (base : List ℕ) (st : State σ) : Prop where
  dynamic : st.s.sFlags.dynamic = st.s.sBuf.block.isSome
  dynstruct : st.s.sFlags.dynstruct = st.s.self.isSome
  live : st.w.live.Perm (st.s.sBuf.block.toList ++ (st.s.self.toList ++ base))
  nodup : st.w.live.Nodup
  fresh : ∀ x ∈ st.w.live, x < st.w.next

structure Inv (base : List ℕ) (st : State σ) : Prop where
  fits : Fits st.s
  owns : Owns base st

/-- What the drains have taken and what is left. -/
def stream (st : State σ) : List UInt8 := st.w.taken ++ st.s.text

/-- What an operation that appends does apart from the error. -/
structure Appends (added : List UInt8) (st st' : State σ) : Prop where
  drainFunc : st'.s.sDrainFunc = st.s.sDrainFunc
  flags : st'.s.sFlags = { st.s.sFlags with dynamic := st'.s.sFlags.dynamic }
  sectLen : st'.s.sSectLen =
    if st.s.isSection then st.s.sSectLen + added.length else st.s.sSectLen
  stream : stream st' = stream st ++ added
  taken : st.s.sDrainFunc = none → st'.w.taken = st.w.taken
  len_le : st'.s.sLen ≤ st.s.sLen + added.length
  size_le : st.s.sSize ≤ st'.s.sSize
  size_eq : st.s.canExtend = false → st'.s.sSize = st.s.sSize
  extended : st'.w.next + extensions st.s.sSize ≤ st.w.next + extensions st'.s.sSize

theorem length_text (h : Fits s) : (s.text.length : ℤ) = s.sLen := by
  have hlen := h.len_nonneg
  have hlt := h.len_lt
  have hsize := h.size_le
  rw [Sbuf.text, List.length_take]
  omega

namespace Appends

variable {added added' : List UInt8} {st'' : State σ}

theorem refl (st : State σ) : Appends [] st st := by
  refine ⟨rfl, rfl, ?_, ?_, fun _ => rfl, ?_, Int.le_refl _, fun _ => rfl, Nat.le_refl _⟩
  · simp
  · simp
  · simp

theorem isSection (h : Appends added st st') : st'.s.isSection = st.s.isSection := by
  rw [Sbuf.isSection, h.flags, Sbuf.isSection]

theorem canExtend (h : Appends added st st') : st'.s.canExtend = st.s.canExtend := by
  rw [Sbuf.canExtend, h.flags, Sbuf.canExtend]

theorem trans (h : Appends added st st') (h' : Appends added' st' st'') :
    Appends (added ++ added') st st'' := by
  refine ⟨h'.drainFunc.trans h.drainFunc, ?_, ?_, ?_, fun hnone => ?_, ?_,
    Int.le_trans h.size_le h'.size_le, fun hext => ?_, ?_⟩
  · rw [h'.flags, h.flags]
  · rw [h'.sectLen, h.isSection, h.sectLen, List.length_append]
    split
    · omega
    · rfl
  · rw [h'.stream, h.stream, List.append_assoc]
  · rw [h'.taken (h.drainFunc.trans hnone), h.taken hnone]
  · have hlen := h.len_le
    have hlen' := h'.len_le
    rw [List.length_append]
    omega
  · rw [h'.size_eq (h.canExtend.trans hext), h.size_eq hext]
  · have hext := h.extended
    have hext' := h'.extended
    omega

/-- Without a drain all that is appended is in the buffer. -/
theorem text (h : Appends added st st') (hnone : st.s.sDrainFunc = none) :
    st'.s.text = st.s.text ++ added := by
  have hstream := h.stream
  rw [StringBuffers.stream, StringBuffers.stream, h.taken hnone, List.append_assoc] at hstream
  exact List.append_cancel_left hstream

/-- The error is no part of what is appended. -/
theorem error (h : Appends added st st') (e e' : ℤ) :
    Appends added ⟨{ st.s with sError := e }, st.w⟩ ⟨{ st'.s with sError := e' }, st'.w⟩ :=
  ⟨h.drainFunc, h.flags, h.sectLen, h.stream, h.taken, h.len_le, h.size_le, h.size_eq, h.extended⟩

end Appends

/-- The text may become shorter, and what is no part of the invariant may change. -/
theorem Inv.keep (h : Inv base st) {s' : Sbuf σ} (hlen : 0 ≤ s'.sLen) (hle : s'.sLen ≤ st.s.sLen)
    (hbuf : s'.sBuf = st.s.sBuf) (hsize : s'.sSize = st.s.sSize) (hself : s'.self = st.s.self)
    (hfunc : s'.sDrainFunc = st.s.sDrainFunc) (hdynamic : s'.sFlags.dynamic = st.s.sFlags.dynamic)
    (hdynstruct : s'.sFlags.dynstruct = st.s.sFlags.dynstruct) : Inv base ⟨s', st.w⟩ := by
  constructor
  · refine ⟨hlen, ?_, ?_, ?_, ?_⟩
    · rw [hsize]
      exact Int.lt_of_le_of_lt hle h.fits.len_lt
    · rw [hsize, hbuf]
      exact h.fits.size_le
    · rw [hsize]
      exact h.fits.size_int
    · rw [hsize, hfunc]
      exact h.fits.drain_size
  · refine ⟨?_, ?_, ?_, h.owns.nodup, h.owns.fresh⟩
    · rw [hdynamic, hbuf]
      exact h.owns.dynamic
    · rw [hdynstruct, hself]
      exact h.owns.dynstruct
    · rw [hbuf, hself]
      exact h.owns.live

theorem Inv.error (h : Inv base st) (e : ℤ) : Inv base ⟨{ st.s with sError := e }, st.w⟩ :=
  h.keep h.fits.len_nonneg (Int.le_refl _) rfl rfl rfl rfl rfl rfl

/-! ## Draining -/

/-- A drain fails, or takes a part of the text that is not empty. -/
theorem sbufDrain_spec {func : Drain σ} (h : Inv base st) (hfunc : st.s.sDrainFunc = some func)
    (hpos : 0 < st.s.sLen) :
    ∃ r st', sbufDrain func st = .ok (r, st') ∧ Inv base st' ∧ Appends [] st st' ∧
      st'.s.sSize = st.s.sSize ∧
      ((r ≠ 0 ∧ st'.s.sError = r ∧ st'.s.sLen = st.s.sLen ∧ st'.s.sBuf = st.s.sBuf) ∨
        (r = 0 ∧ st'.s.sError = st.s.sError ∧ st'.s.sLen < st.s.sLen)) := by
  obtain ⟨hlen, hlt, hsize, hint, hdrain⟩ := h.fits
  have hload : st.s.sBuf.load 0 st.s.sLen = .ok st.s.text := by
    rw [Storage.load_eq (Int.le_refl 0) hlen (by omega)]
    rfl
  have htext := length_text h.fits
  have hne : st.s.text ≠ [] := by
    intro hnil
    rw [hnil] at htext
    exact absurd htext (by simp; omega)
  obtain ⟨hzero, hle⟩ := func.amount st.w.rest st.s.text hne
  rw [sbufDrain, hload, ok_bind]
  rcases hcall : func.call st.w.rest st.s.text with ⟨len, rest⟩
  rw [hcall] at hzero hle
  dsimp only at hzero hle ⊢
  rcases Int.lt_or_lt_of_ne hzero with hneg | htook
  · rw [if_pos hneg]
    refine ⟨_, _, rfl, ⟨⟨hlen, hlt, hsize, hint, hdrain⟩, ⟨h.owns.dynamic, h.owns.dynstruct,
      h.owns.live, h.owns.nodup, h.owns.fresh⟩⟩, ?_, rfl,
      .inl ⟨by omega, rfl, rfl, rfl⟩⟩
    refine ⟨rfl, rfl, ?_, ?_, fun hnone => ?_, ?_, Int.le_refl _, fun _ => rfl, Nat.le_refl _⟩
    · simp
    · have hnat : len.toNat = 0 := by omega
      simp [stream, Sbuf.text, hnat]
    · rw [hfunc] at hnone
      cases hnone
    · simp
  · rw [if_neg (by omega)]
    -- the text without the part that was taken, wherever it is stored
    have hmoved : ∀ buf : Storage, buf.block = st.s.sBuf.block →
        buf.bytes.length = st.s.sBuf.bytes.length →
        buf.bytes.take (st.s.sLen - len).toNat = st.s.text.drop len.toNat →
        let st' : State σ := ⟨{ st.s with sLen := st.s.sLen - len, sBuf := buf },
          { st.w with rest := rest, taken := st.w.taken ++ st.s.text.take len.toNat }⟩
        Inv base st' ∧ Appends [] st st' := by
      intro buf hblock hlength hleft
      refine ⟨⟨⟨by dsimp only; omega, by dsimp only; omega, by dsimp only; omega, hint, hdrain⟩,
        ⟨?_, h.owns.dynstruct, ?_, h.owns.nodup, h.owns.fresh⟩⟩, ?_⟩
      · rw [h.owns.dynamic, hblock]
      · rw [hblock]
        exact h.owns.live
      · refine ⟨rfl, rfl, ?_, ?_, fun hnone => ?_, ?_, Int.le_refl _, fun _ => rfl, Nat.le_refl _⟩
        · simp
        · change (st.w.taken ++ st.s.text.take len.toNat) ++
            buf.bytes.take (st.s.sLen - len).toNat = stream st ++ []
          rw [hleft, List.append_assoc, List.take_append_drop, List.append_nil, stream]
        · rw [hfunc] at hnone
          cases hnone
        · dsimp only [List.length_nil]
          omega
    by_cases hall : st.s.sLen - len = 0
    · rw [if_pos hall]
      have hleft : st.s.sBuf.bytes.take (st.s.sLen - len).toNat = st.s.text.drop len.toNat := by
        rw [hall, List.drop_of_length_le (by omega)]
        rfl
      obtain ⟨hinv, happ⟩ := hmoved st.s.sBuf rfl rfl hleft
      exact ⟨_, _, rfl, hinv, happ, rfl, .inr ⟨rfl, rfl, by dsimp only; omega⟩⟩
    · rw [if_neg hall, Storage.load_eq (by omega) (by omega) (by omega), ok_bind]
      have hdrop : (st.s.sBuf.bytes.drop len.toNat).take (st.s.sLen - len).toNat =
          st.s.text.drop len.toNat := by
        rw [Sbuf.text, List.drop_take]
        congr 1
        omega
      have hlength : (st.s.text.drop len.toNat).length = (st.s.sLen - len).toNat := by
        rw [List.length_drop]
        omega
      rw [hdrop, Storage.store_eq (Int.le_refl 0) (by omega), ok_bind]
      have hleft : (overwrite st.s.sBuf.bytes 0 (st.s.text.drop len.toNat)).take
          (st.s.sLen - len).toNat = st.s.text.drop len.toNat := by
        have htake := take_overwrite (Nat.zero_le st.s.sBuf.bytes.length) (Nat.le_of_eq hlength.symm)
        rw [Nat.zero_add] at htake
        rw [htake, ← hlength, List.take_length]
        rfl
      obtain ⟨hinv, happ⟩ := hmoved
        ⟨st.s.sBuf.block, overwrite st.s.sBuf.bytes 0 (st.s.text.drop len.toNat)⟩ rfl
        (length_overwrite (by omega)) hleft
      exact ⟨_, _, rfl, hinv, happ, rfl, .inr ⟨rfl, rfl, by dsimp only; omega⟩⟩

/-! ## Extending -/

/-- The allocator can be without memory. -/
def Refuses (gives : σ → ℤ → Bool × σ) : Prop := ∃ w size, (gives w size).1 = false

/-- The only fault there is: with `n` more bytes the text is too long for an int. -/
def TooLong (n : ℤ) (st : State σ) (e : Overrun) : Prop :=
  e = .overflow ∧ intMax < st.s.sLen + n + 4096

/-- What a text of some length takes at most. -/
def roomFor (len : ℤ) : ℤ := max 16 (min (2 * (len + 1)) (len + 4096))

/-- The old storage goes back to the heap if it came from there. -/
theorem freeBuf_of_owns {w : World σ} {fresh : ℕ} (h : Owns base st)
    (hlive : w.live = fresh :: st.w.live) (hfresh : fresh ∉ st.w.live) :
    ∃ live, freeBuf st.s w = .ok { w with live := live } ∧
      live.Perm (fresh :: (st.s.self.toList ++ base)) ∧ live.Nodup ∧ ∀ x ∈ live, x ∈ w.live := by
  have hnodup : w.live.Nodup := by
    rw [hlive]
    exact List.nodup_cons.mpr ⟨hfresh, h.nodup⟩
  have hold := h.live
  rw [freeBuf, h.dynamic]
  cases hblock : st.s.sBuf.block with
  | none =>
    rw [hblock] at hold
    refine ⟨w.live, rfl, ?_, hnodup, fun _ hx => hx⟩
    rw [hlive]
    exact List.Perm.cons fresh hold
  | some x =>
    rw [hblock] at hold
    have hmem : x ∈ w.live := by
      rw [hlive]
      exact List.mem_cons_of_mem _ (hold.mem_iff.mpr List.mem_cons_self)
    refine ⟨w.live.erase x, if_pos hmem, ?_, hnodup.erase x, fun _ hy => List.mem_of_mem_erase hy⟩
    have hswap : w.live.Perm (x :: fresh :: (st.s.self.toList ++ base)) := by
      rw [hlive]
      exact (List.Perm.cons fresh hold).trans (List.Perm.swap x fresh _)
    have herase := hswap.erase x
    rwa [List.erase_cons_head] at herase

theorem sbufExtend_spec {addlen n : ℤ} (h : Inv base st) (hadd : 0 < addlen)
    (hn : st.s.sSize + addlen = st.s.sLen + n + 1) :
    Ends (TooLong n st)
      (fun r => Inv base r.2 ∧ Appends [] st r.2 ∧ r.2.s.sError = st.s.sError ∧
        r.2.s.sLen = st.s.sLen ∧
        ((r.1 = -1 ∧ r.2.s = st.s ∧ (st.s.canExtend = false ∨ Refuses gives)) ∨
          (r.1 = 0 ∧ st.s.sLen + n < r.2.s.sSize ∧ r.2.s.sSize ≤ roomFor (st.s.sLen + n))))
      (sbufExtend gives addlen st) := by
  obtain ⟨hlen, hlt, hsize, hint, hdrain⟩ := h.fits
  rw [sbufExtend]
  split
  · rename_i hext
    exact ⟨h, Appends.refl st, rfl, rfl, .inl ⟨rfl, rfl, .inl hext⟩⟩
  refine Ends.bind (sbufExtendsize_spec.mono (fun e he => ⟨he.1, ?_⟩) fun _ hnew => hnew) ?_
  · have hover := he.2
    omega
  intro newsize hnew
  obtain ⟨hge, h16, hmax, hdouble, hpage, hcount⟩ := hnew
  rw [calloc]
  rcases hgive : gives st.w.rest newsize with ⟨given, rest⟩
  cases given with
  | false =>
    refine ⟨⟨⟨hlen, hlt, hsize, hint, hdrain⟩, ⟨h.owns.dynamic, h.owns.dynstruct,
      h.owns.live, h.owns.nodup, h.owns.fresh⟩⟩, ?_, rfl, rfl,
      .inl ⟨rfl, rfl, .inr ⟨st.w.rest, newsize, by rw [hgive]⟩⟩⟩
    have hrefl := Appends.refl st
    exact ⟨rfl, rfl, hrefl.sectLen, hrefl.stream, fun _ => rfl, hrefl.len_le, Int.le_refl _,
      fun _ => rfl, Nat.le_refl _⟩
  | true =>
    have hfresh : st.w.next ∉ st.w.live := fun hmem => Nat.lt_irrefl _ (h.owns.fresh _ hmem)
    have hold : (st.s.sBuf.bytes.take st.s.sSize.toNat).length = st.s.sSize.toNat := by
      rw [List.length_take]
      omega
    dsimp only
    rw [if_pos rfl, Storage.load_eq (Int.le_refl 0) (by omega) (by omega)]
    dsimp only
    rw [ok_bind, Int.toNat_zero, List.drop_zero,
      Storage.store_eq (Int.le_refl 0) (by rw [List.length_replicate]; omega), ok_bind]
    obtain ⟨live, hfree, hlive, hnodup, hsub⟩ := freeBuf_of_owns h.owns
      (w := ⟨st.w.next + 1, st.w.next :: st.w.live, st.w.taken, rest⟩) rfl hfresh
    rw [hfree, ok_bind]
    have hlength : (overwrite (List.replicate newsize.toNat 0) 0
        (st.s.sBuf.bytes.take st.s.sSize.toNat)).length = newsize.toNat := by
      rw [length_overwrite, List.length_replicate]
      rw [List.length_replicate]
      omega
    have htext : (overwrite (List.replicate newsize.toNat 0) 0
        (st.s.sBuf.bytes.take st.s.sSize.toNat)).take st.s.sLen.toNat = st.s.text := by
      rw [← Nat.zero_add st.s.sLen.toNat, take_overwrite (Nat.zero_le _) (by omega),
        List.take_zero, List.nil_append, List.take_take, Nat.min_eq_left (by omega)]
      rfl
    have hgrown := hcount st.s.sSize (by omega)
    refine ⟨⟨⟨hlen, by dsimp only; omega, ?_, hmax, fun hsome => ?_⟩, ⟨rfl, h.owns.dynstruct,
      hlive, hnodup, ?_⟩⟩, ?_, rfl, rfl, .inr ⟨rfl, by dsimp only; omega, ?_⟩⟩
    · dsimp only
      rw [Int.toNat_zero, hlength]
      omega
    · have htwo := hdrain hsome
      dsimp only
      omega
    · intro x hx
      have hx := hsub x hx
      rcases List.mem_cons.mp hx with rfl | hx
      · exact Nat.lt_succ_self _
      · exact Nat.lt_succ_of_lt (h.owns.fresh x hx)
    · refine ⟨rfl, rfl, ?_, ?_, fun _ => rfl, ?_, ?_, fun hext => ?_, ?_⟩
      · simp
      · rw [List.append_nil]
        change st.w.taken ++ _ = st.w.taken ++ _
        rw [← htext]
        rfl
      · simp
      · dsimp only
        omega
      · contradiction
      · dsimp only
        omega
    · rw [roomFor]
      dsimp only
      omega

/-! ## Appending bytes -/

/-- The length moves over bytes that are in the storage behind the text. -/
theorem Inv.advance {added : List UInt8} (h : Inv base st) (buf : Storage)
    (hblock : buf.block = st.s.sBuf.block) (hlength : buf.bytes.length = st.s.sBuf.bytes.length)
    (htake : buf.bytes.take (st.s.sLen.toNat + added.length) = st.s.text ++ added)
    (hroom : added.length ≤ st.s.freeSpace) :
    Inv base ⟨{ st.s with
        sBuf := buf, sLen := st.s.sLen + added.length,
        sSectLen := if st.s.isSection then st.s.sSectLen + added.length else st.s.sSectLen }, st.w⟩ ∧
      Appends added st ⟨{ st.s with
        sBuf := buf, sLen := st.s.sLen + added.length,
        sSectLen := if st.s.isSection then st.s.sSectLen + added.length else st.s.sSectLen }, st.w⟩ := by
  obtain ⟨hlen, hlt, hsize, hint, hdrain⟩ := h.fits
  rw [Sbuf.freeSpace] at hroom
  refine ⟨⟨⟨by dsimp only; omega, by dsimp only; omega, by dsimp only; omega, hint, hdrain⟩,
    ⟨?_, h.owns.dynstruct, ?_, h.owns.nodup, h.owns.fresh⟩⟩, ?_⟩
  · rw [hblock]
    exact h.owns.dynamic
  · rw [hblock]
    exact h.owns.live
  · refine ⟨rfl, rfl, rfl, ?_, fun _ => rfl, Int.le_refl _, Int.le_refl _, fun _ => rfl,
      Nat.le_refl _⟩
    have hnat : (st.s.sLen + added.length).toNat = st.s.sLen.toNat + added.length := by omega
    change st.w.taken ++ buf.bytes.take (st.s.sLen + added.length).toNat = stream st ++ added
    rw [hnat, htake, stream, List.append_assoc]

/-- What the storage grows to at most while `n` bytes are appended. -/
def Grows (n : ℤ) (st st' : State σ) : Prop :=
  st'.s.sSize ≤ max st.s.sSize (roomFor (st.s.sLen + n))

theorem Grows.of_eq {n : ℤ} (h : st'.s.sSize = st.s.sSize) : Grows n st st' := by
  rw [Grows, h]
  exact Int.le_max_left _ _

theorem Grows.trans {n n' : ℤ} {st'' : State σ} (h : Grows n st st') (h' : Grows n' st' st'')
    (hlen : st'.s.sLen ≤ st.s.sLen + n) (hn' : 0 ≤ n') : Grows (n + n') st st'' := by
  rw [Grows, roomFor] at h h' ⊢
  omega

/-- Room for a byte, or the reason why there is none. -/
structure MakesRoom (gives : σ → ℤ → Bool × σ) (st st' : State σ) : Prop where
  appends : Appends [] st st'
  room : st'.s.sError = 0 → 0 < st'.s.freeSpace
  grows : Grows 1 st st'
  kept : st'.s.sError ≠ 0 → st'.s.sSize = st.s.sSize
  full : st'.s.sError ≠ 0 → st.s.sDrainFunc = none →
    st'.s.sError = enomem ∧ st'.s.freeSpace ≤ 0 ∧ (st.s.canExtend = false ∨ Refuses gives)

theorem makeRoom_spec (h : Inv base st) (hok : st.s.sError = 0) :
    Ends (TooLong 1 st) (fun st' => Inv base st' ∧ MakesRoom gives st st') (makeRoom gives st) := by
  obtain ⟨hlen, hlt, hsize, hint, hdrain⟩ := h.fits
  rw [makeRoom]
  split
  · rename_i hfull
    rw [Sbuf.freeSpace] at hfull
    cases hfunc : st.s.sDrainFunc with
    | some func =>
      have htwo := hdrain (by rw [hfunc]; exact Option.some_ne_none func)
      obtain ⟨r, st', hdrained, hinv, happ, hsame, hr⟩ := sbufDrain_spec h hfunc (by omega)
      dsimp only
      rw [hdrained, ok_bind]
      refine ⟨hinv, happ, fun hzero => ?_, .of_eq hsame, fun _ => hsame, fun _ hnone => ?_⟩
      · dsimp only at hzero ⊢
        rw [Sbuf.freeSpace]
        rcases hr with ⟨hr, herr, -⟩ | ⟨-, -, hless⟩
        · exact absurd (herr.symm.trans hzero) hr
        · omega
      · rw [hfunc] at hnone
        cases hnone
    | none =>
      refine Ends.bind (sbufExtend_spec (n := 1) h Int.one_pos (by omega)) ?_
      rintro ⟨r, st'⟩ ⟨hinv, happ, herr, hsame, hr⟩
      dsimp only at hinv happ herr hsame hr ⊢
      rcases hr with ⟨rfl, hs, hwhy⟩ | ⟨rfl, hlarger, hbound⟩
      · rw [if_pos (by decide : (-1 : ℤ) < 0)]
        have hsize' : st'.s.sSize = st.s.sSize := congrArg Sbuf.sSize hs
        have hnomem : enomem ≠ 0 := by decide
        refine ⟨hinv.error enomem, happ.error st.s.sError enomem, fun hzero => absurd hzero hnomem,
          .of_eq hsize', fun _ => hsize', fun _ _ => ⟨rfl, ?_, hwhy⟩⟩
        dsimp only [Sbuf.freeSpace]
        omega
      · rw [if_neg (Int.lt_irrefl 0)]
        refine ⟨hinv, happ, fun _ => ?_, ?_, fun hne => absurd (herr.trans hok) hne,
          fun hne => absurd (herr.trans hok) hne⟩
        · rw [Sbuf.freeSpace]
          omega
        · rw [Grows]
          omega
  · rename_i hroom
    exact ⟨h, Appends.refl st, fun _ => by omega, .of_eq rfl, fun _ => rfl, fun hne => absurd hok hne⟩

/-- What appending a string byte by byte does: `rest` is what there is no room for. -/
structure Puts (gives : σ → ℤ → Bool × σ) (added rest : List UInt8) (st st' : State σ) : Prop where
  appends : Appends added st st'
  grows : Grows added.length st st'
  error : st'.s.sError = 0 ↔ rest = []
  full : rest ≠ [] → st.s.sDrainFunc = none →
    st'.s.sError = enomem ∧ st'.s.freeSpace ≤ 0 ∧ (st.s.canExtend = false ∨ Refuses gives)

theorem sbufPutByte_spec (h : Inv base st) (hok : st.s.sError = 0) (c : UInt8) :
    Ends (TooLong 1 st) (fun st' => Inv base st' ∧
      (Puts gives [c] [] st st' ∨ Puts gives [] [c] st st')) (sbufPutByte gives c st) := by
  rw [sbufPutByte, if_neg (not_not.mpr hok)]
  refine Ends.bind (makeRoom_spec h hok) ?_
  intro st₁ ⟨hinv, hmakes⟩
  split
  · rename_i hne
    refine ⟨hinv, .inr ⟨hmakes.appends, .of_eq (hmakes.kept hne), ?_, fun _ => hmakes.full hne⟩⟩
    simp [hne]
  · rename_i hzero
    rw [not_not] at hzero
    have hroom := hmakes.room hzero
    obtain ⟨hlen, hlt, hsize, hint, hdrain⟩ := hinv.fits
    rw [Sbuf.freeSpace] at hroom
    have hstore : st₁.s.sLen + ([c] : List UInt8).length ≤ st₁.s.sBuf.bytes.length := by
      rw [List.length_singleton]
      omega
    rw [Storage.store_eq hlen hstore, ok_bind]
    have htake : (overwrite st₁.s.sBuf.bytes st₁.s.sLen.toNat [c]).take
        (st₁.s.sLen.toNat + [c].length) = st₁.s.text ++ [c] :=
      take_overwrite (by omega) (Nat.le_refl _)
    obtain ⟨hinv', happ'⟩ := hinv.advance
      ⟨st₁.s.sBuf.block, overwrite st₁.s.sBuf.bytes st₁.s.sLen.toNat [c]⟩ rfl
      (length_overwrite (by omega)) htake (by rw [Sbuf.freeSpace, List.length_singleton]; omega)
    refine ⟨hinv', .inl ⟨?_, ?_, ?_, fun hne => absurd rfl hne⟩⟩
    · exact hmakes.appends.trans happ'
    · exact hmakes.grows
    · simp [hzero]

theorem Puts.trans {added added' rest : List UInt8} {st'' : State σ} (h : Puts gives added [] st st')
    (h' : Puts gives added' rest st' st'') : Puts gives (added ++ added') rest st st'' := by
  refine ⟨h.appends.trans h'.appends, ?_, h'.error, fun hne hnone => ?_⟩
  · rw [List.length_append]
    push_cast
    exact h.grows.trans h'.grows h.appends.len_le (by omega)
  · have hfull := h'.full hne (h.appends.drainFunc.trans hnone)
    rwa [h.appends.canExtend] at hfull

theorem TooLong.mono {n n' : ℤ} {e : Overrun} (h : TooLong n st e)
    (hle : st.s.sLen + n ≤ st'.s.sLen + n') : TooLong n' st' e := by
  obtain ⟨he, hlong⟩ := h
  exact ⟨he, by omega⟩

/-- The result of an operation that reports the error. -/
def report (s : Sbuf σ) (r : ℤ) : ℤ := if s.sError ≠ 0 then -1 else r

theorem putBytes_spec (gives : σ → ℤ → Bool × σ) (str : List UInt8) (h : Inv base st) (hok : st.s.sError = 0) :
    Ends (TooLong str.length st) (fun r => Inv base r.2 ∧ r.1 = report r.2.s 0 ∧
      ∃ added rest, str = added ++ rest ∧ Puts gives added rest st r.2) (putBytes gives str st) := by
  induction str generalizing st with
  | nil =>
    refine ⟨h, ?_, [], [], rfl, Appends.refl st, .of_eq rfl, by simp [hok], fun hne => absurd rfl hne⟩
    rw [report, if_neg (not_not.mpr hok)]
  | cons c str ih =>
    rw [putBytes]
    refine Ends.bind ((sbufPutByte_spec h hok c).mono (fun e he => he.mono ?_) fun _ hputs => hputs) ?_
    · rw [List.length_cons]
      omega
    intro st₁ ⟨hinv, hputs⟩
    rcases hputs with hputs | hputs
    · have hzero : st₁.s.sError = 0 := hputs.error.mpr rfl
      rw [if_neg (not_not.mpr hzero)]
      have hlen := hputs.appends.len_le
      refine (ih hinv hzero).mono (fun e he => he.mono ?_) ?_
      · rw [List.length_cons]
        rw [List.length_singleton] at hlen
        omega
      · rintro ⟨r, st₂⟩ ⟨hinv₂, hr, added, rest, rfl, hputs₂⟩
        exact ⟨hinv₂, hr, c :: added, rest, rfl, hputs.trans hputs₂⟩
    · have hne : st₁.s.sError ≠ 0 := fun hzero => absurd (hputs.error.mp hzero) (List.cons_ne_nil _ _)
      rw [if_pos hne]
      refine ⟨hinv, ?_, [], c :: str, rfl, hputs.appends, hputs.grows, ?_, fun _ => ?_⟩
      · rw [report, if_pos hne]
      · simp [hne]
      · exact hputs.full (List.cons_ne_nil _ _)

/-! ## Printing -/

/-- The storage changes behind the text only. -/
theorem Inv.behind (h : Inv base st) (buf : Storage) (hblock : buf.block = st.s.sBuf.block)
    (hlength : buf.bytes.length = st.s.sBuf.bytes.length)
    (htake : buf.bytes.take st.s.sLen.toNat = st.s.text) :
    Inv base ⟨{ st.s with sBuf := buf }, st.w⟩ ∧ Appends [] st ⟨{ st.s with sBuf := buf }, st.w⟩ := by
  have hrefl := Appends.refl st
  refine ⟨⟨⟨h.fits.len_nonneg, h.fits.len_lt, ?_, h.fits.size_int, h.fits.drain_size⟩,
    ⟨?_, h.owns.dynstruct, ?_, h.owns.nodup, h.owns.fresh⟩⟩, rfl, rfl, hrefl.sectLen, ?_,
    fun _ => rfl, hrefl.len_le, Int.le_refl _, fun _ => rfl, Nat.le_refl _⟩
  · have hsize := h.fits.size_le
    dsimp only
    omega
  · rw [hblock]
    exact h.owns.dynamic
  · rw [hblock]
    exact h.owns.live
  · change st.w.taken ++ buf.bytes.take st.s.sLen.toNat = stream st ++ []
    rw [htake, stream, List.append_nil]

/-- As much of a text as there is room for is in the storage behind the buffer's own. -/
def Pending (bytes : List UInt8) (s : Sbuf σ) : Prop :=
  ∀ k : ℕ, k ≤ bytes.length → k ≤ s.freeSpace →
    s.sBuf.bytes.take (s.sLen.toNat + k) = s.text ++ bytes.take k

theorem vsnprintf_spec (h : Inv base st) (fmt : Formatted) :
    ∃ buf, vsnprintf st.s.sBuf st.s.sLen (st.s.freeSpace + 1) fmt = .ok (buf, fmt.result) ∧
      Inv base ⟨{ st.s with sBuf := buf }, st.w⟩ ∧ Appends [] st ⟨{ st.s with sBuf := buf }, st.w⟩ ∧
      Pending fmt.bytes { st.s with sBuf := buf } := by
  obtain ⟨hlen, hlt, hsize, hint, hdrain⟩ := h.fits
  have hmod : (st.s.freeSpace + 1) % 18446744073709551616 = st.s.freeSpace + 1 := by
    apply Int.emod_eq_of_lt
    · rw [Sbuf.freeSpace]
      omega
    · rw [intMax] at hint
      rw [Sbuf.freeSpace]
      omega
  have hfree : st.s.freeSpace + 1 = st.s.sSize - st.s.sLen := by
    rw [Sbuf.freeSpace]
    omega
  rw [vsnprintf, hmod, hfree]
  have hdata : (fmt.bytes.take ((st.s.sSize - st.s.sLen).toNat - 1) ++ [0]).length ≤
      (st.s.sSize - st.s.sLen).toNat := by
    rw [List.length_append, List.length_take, List.length_singleton]
    omega
  rw [if_neg (by omega), Storage.store_eq hlen (by omega), ok_bind]
  have htake : ∀ k : ℕ, k ≤ fmt.bytes.length → k ≤ st.s.freeSpace →
      (overwrite st.s.sBuf.bytes st.s.sLen.toNat
        (fmt.bytes.take ((st.s.sSize - st.s.sLen).toNat - 1) ++ [0])).take (st.s.sLen.toNat + k) =
        st.s.text ++ fmt.bytes.take k := by
    intro k hk hroom
    have hshort : k ≤ (fmt.bytes.take ((st.s.sSize - st.s.sLen).toNat - 1)).length := by
      rw [List.length_take]
      omega
    rw [take_overwrite (by omega) (by rw [List.length_append]; omega),
      List.take_append_of_le_length hshort, List.take_take, Nat.min_eq_left (by omega)]
    rfl
  have hstart := htake 0 (Nat.zero_le _) (by omega)
  rw [Nat.add_zero, List.take_zero, List.append_nil] at hstart
  obtain ⟨hinv, happ⟩ := h.behind
    ⟨st.s.sBuf.block, overwrite st.s.sBuf.bytes st.s.sLen.toNat
      (fmt.bytes.take ((st.s.sSize - st.s.sLen).toNat - 1) ++ [0])⟩ rfl
    (length_overwrite (by omega)) hstart
  refine ⟨_, rfl, hinv, happ, fun k hk hroom => ?_⟩
  refine (htake k hk hroom).trans ?_
  rw [← hstart]
  rfl

/-- Why a text was not printed whole. -/
def Stuck (gives : σ → ℤ → Bool × σ) (st st' : State σ) : Prop :=
  (st'.s.sError ≠ 0 ∧ st.s.sDrainFunc ≠ none) ∨
    (st'.s.sError = 0 ∧ (st.s.canExtend = false ∨ Refuses gives))

theorem printRoom_spec {len : ℤ} (h : Inv base st) (hok : st.s.sError = 0)
    (hfull : st.s.freeSpace < len) :
    Ends (TooLong len st) (fun r => Inv base r.2 ∧ Appends [] st r.2 ∧
        ((r.1 = 0 ∧ r.2.s.sError = 0 ∧ r.2.s.sSize = st.s.sSize ∧ r.2.s.sLen < st.s.sLen) ∨
          (r.1 = 0 ∧ r.2.s.sError = 0 ∧ len ≤ r.2.s.freeSpace ∧ Grows len st r.2) ∨
          (r.1 ≠ 0 ∧ r.2.s.sSize = st.s.sSize ∧ r.2.s.sLen = st.s.sLen ∧
            r.2.s.sBuf = st.s.sBuf ∧ Stuck gives st r.2)))
      (printRoom gives len st) := by
  have hfree : st.s.freeSpace = st.s.sSize - (st.s.sLen + 1) := rfl
  have hextend : Ends (TooLong len st) (fun r => Inv base r.2 ∧ Appends [] st r.2 ∧
      ((r.1 = 0 ∧ r.2.s.sError = 0 ∧ r.2.s.sSize = st.s.sSize ∧ r.2.s.sLen < st.s.sLen) ∨
        (r.1 = 0 ∧ r.2.s.sError = 0 ∧ len ≤ r.2.s.freeSpace ∧ Grows len st r.2) ∨
        (r.1 ≠ 0 ∧ r.2.s.sSize = st.s.sSize ∧ r.2.s.sLen = st.s.sLen ∧
          r.2.s.sBuf = st.s.sBuf ∧ Stuck gives st r.2)))
      (sbufExtend gives (len - st.s.freeSpace) st) := by
    refine (sbufExtend_spec (n := len) h (by omega) (by omega)).mono (fun _ he => he) ?_
    intro r ⟨hinv, happ, herr, hsame, hr⟩
    refine ⟨hinv, happ, .inr ?_⟩
    rcases hr with ⟨hr, hs, hwhy⟩ | ⟨hr, hlarger, hbound⟩
    · refine .inr ⟨?_, congrArg Sbuf.sSize hs, hsame, congrArg Sbuf.sBuf hs,
        .inr ⟨herr.trans hok, hwhy⟩⟩
      omega
    · refine .inl ⟨hr, herr.trans hok, ?_, ?_⟩
      · rw [Sbuf.freeSpace]
        omega
      · rw [Grows]
        omega
  rw [printRoom]
  cases hfunc : st.s.sDrainFunc with
  | none => exact hextend
  | some func =>
    dsimp only
    split
    · rename_i hpos
      obtain ⟨r, st', hdrained, hinv, happ, hsame, hr⟩ := sbufDrain_spec h hfunc hpos
      rw [hdrained]
      refine ⟨hinv, happ, ?_⟩
      rcases hr with ⟨hr, herr, hlen, hbuf⟩ | ⟨hr, herr, hless⟩
      · refine .inr (.inr ⟨hr, hsame, hlen, hbuf, .inl ⟨?_, ?_⟩⟩)
        · exact fun hzero => hr (herr.symm.trans hzero)
        · rw [hfunc]
          exact Option.some_ne_none func
      · exact .inl ⟨hr, herr.trans hok, hsame, hless⟩
    · exact hextend

/-- How the loop of `sbuf_vprintf` ends. -/
structure LoopEnds (gives : σ → ℤ → Bool × σ) (bytes : List UInt8) (st st' : State σ) : Prop where
  appends : Appends [] st st'
  grows : Grows bytes.length st st'
  pending : Pending bytes st'.s
  fits : bytes.length ≤ st'.s.freeSpace → st'.s.sError = 0
  stuck : st'.s.freeSpace < bytes.length → Stuck gives st st'

theorem LoopEnds.trans {bytes : List UInt8} {st₁ st₂ : State σ} (happ : Appends [] st st₁)
    (hgrows : Grows bytes.length st st₁) (hends : LoopEnds gives bytes st₁ st₂) :
    LoopEnds gives bytes st st₂ := by
  have hlen := happ.len_le
  rw [List.length_nil] at hlen
  refine ⟨happ.trans hends.appends, ?_, hends.pending, hends.fits, fun hshort => ?_⟩
  · have hgrows₂ := hends.grows
    rw [Grows, roomFor] at hgrows hgrows₂ ⊢
    omega
  · have hstuck := hends.stuck hshort
    rwa [Stuck, happ.drainFunc, happ.canExtend] at hstuck

theorem printLoop_fits (gives : σ → ℤ → Bool × σ) {bytes : List UInt8} (h : Inv base st) (hok : st.s.sError = 0)
    (hint : bytes.length ≤ intMax) (hroom : bytes.length ≤ st.s.freeSpace) (fuel : ℕ) :
    ∃ st', printLoop gives (.text bytes) (fuel + 1) st = .ok (bytes.length, st') ∧
      Inv base st' ∧ LoopEnds gives bytes st st' := by
  obtain ⟨buf, hprint, hinv, happ, hpending⟩ := vsnprintf_spec h (.text bytes)
  have hresult : (Formatted.text bytes).result = bytes.length := if_pos hint
  rw [printLoop, hprint, ok_bind, hresult]
  refine ⟨_, if_pos hroom, hinv, happ, .of_eq rfl, hpending, fun _ => hok, fun hshort => ?_⟩
  exact absurd hroom (Int.not_le.mpr hshort)

/-- Each round but the last two drains a byte. -/
theorem printLoop_spec {bytes : List UInt8} {fuel : ℕ} (h : Inv base st) (hok : st.s.sError = 0)
    (hint : bytes.length ≤ intMax) (hfuel : st.s.sLen.toNat + 2 ≤ fuel) :
    Ends (TooLong bytes.length st)
      (fun r => r.1 = (bytes.length : ℤ) ∧ Inv base r.2 ∧ LoopEnds gives bytes st r.2)
      (printLoop gives (.text bytes) fuel st) := by
  induction fuel generalizing st with
  | zero => omega
  | succ fuel ih =>
    by_cases hroom : bytes.length ≤ st.s.freeSpace
    · obtain ⟨st', hloop, hinv, hends⟩ := printLoop_fits gives h hok hint hroom fuel
      rw [hloop]
      exact ⟨rfl, hinv, hends⟩
    obtain ⟨buf, hprint, hinv, happ, hpending⟩ := vsnprintf_spec h (.text bytes)
    have hresult : (Formatted.text bytes).result = bytes.length := if_pos hint
    rw [printLoop, hprint, ok_bind, hresult]
    dsimp only
    rw [if_neg (show ¬ (bytes.length : ℤ) ≤ ({ st.s with sBuf := buf } : Sbuf σ).freeSpace from hroom)]
    refine Ends.bind ((printRoom_spec hinv hok (Int.not_le.mp hroom)).mono
      (fun e he => he.mono (Int.le_refl _)) fun _ hr => hr) ?_
    rintro ⟨r, st₁⟩ ⟨hinv₁, happ₁, hr⟩
    have happ₀ := happ.trans happ₁
    have hlen := happ₀.len_le
    rw [List.append_nil, List.length_nil] at hlen
    rcases hr with ⟨rfl, hzero, hsame, hless⟩ | ⟨rfl, hzero, hfits, hgrows⟩ |
      ⟨hr, hsame, hlen₁, hbuf, hstuck⟩
    · -- a part of the text was drained
      rw [if_pos rfl]
      dsimp only at hinv₁ happ₁ hzero hsame hless hlen
      have hpos := hinv₁.fits.len_nonneg
      refine (ih hinv₁ hzero (by omega)).mono (fun e he => he.mono (by omega)) ?_
      intro r ⟨hr, hinv₂, hends⟩
      exact ⟨hr, hinv₂, hends.trans happ₀ (.of_eq hsame)⟩
    · -- the storage was extended, and the text fits
      rw [if_pos rfl]
      obtain ⟨fuel, rfl⟩ : ∃ n, fuel = n + 1 := ⟨fuel - 1, by omega⟩
      obtain ⟨st₂, hloop, hinv₂, hends⟩ := printLoop_fits gives hinv₁ hzero hint hfits fuel
      rw [hloop]
      exact ⟨rfl, hinv₂, hends.trans happ₀ hgrows⟩
    · rw [if_neg hr]
      dsimp only at hinv₁ happ₁ hsame hlen₁ hbuf hstuck
      have hfree : st₁.s.freeSpace = st.s.freeSpace := by
        rw [Sbuf.freeSpace, Sbuf.freeSpace, hsame, hlen₁]
      refine ⟨rfl, hinv₁, happ₀, .of_eq hsame, fun k hk hle => ?_, fun hfits => ?_, fun _ => hstuck⟩
      · dsimp only at hle ⊢
        have htake := hpending k hk (by rw [hfree] at hle; exact hle)
        rw [hlen₁, Sbuf.text, hlen₁, hbuf]
        exact htake
      · dsimp only at hfits
        omega

/-- What printing a text does. Storage that is fixed reports an error as soon as it is full. -/
structure Prints (gives : σ → ℤ → Bool × σ) (added rest : List UInt8) (st st' : State σ) : Prop where
  appends : Appends added st st'
  grows : Grows (added.length + rest.length) st st'
  full : rest ≠ [] → st'.s.freeSpace = 0
  fixed : st.s.canExtend = false → (st'.s.sError = 0 ↔ 0 < st'.s.freeSpace)
  nomem : st.s.canExtend = false → st.s.sDrainFunc = none → st'.s.sError ≠ 0 →
    st'.s.sError = enomem
  extended : st.s.canExtend = true → st'.s.sError = 0 → rest = [] ∨ Refuses gives
  drained : st.s.canExtend = true → st'.s.sError ≠ 0 → st.s.sDrainFunc ≠ none

/-- The error that `sbuf_vprintf` sets at its end. -/
def marked (s : Sbuf σ) : Sbuf σ :=
  if s.hasRoom = false ∧ s.canExtend = false then { s with sError := enomem } else s

theorem prints_marked {bytes added rest : List UInt8} {st₁ st₂ : State σ}
    (hends : LoopEnds gives bytes st st₁) (hsplit : bytes = added ++ rest)
    (hadded : (added.length : ℤ) =
      if st₁.s.freeSpace < bytes.length then st₁.s.freeSpace else bytes.length)
    (happ : Appends added st st₂) (herr : st₂.s.sError = st₁.s.sError)
    (hsize : st₂.s.sSize = st₁.s.sSize)
    (hfree : st₂.s.freeSpace = st₁.s.freeSpace - added.length) :
    Prints gives added rest st ⟨marked st₂.s, st₂.w⟩ := by
  have hlength : bytes.length = added.length + rest.length := by
    rw [hsplit, List.length_append]
  have hrest : rest = [] ↔ bytes.length ≤ st₁.s.freeSpace := by
    rw [← List.length_eq_zero_iff]
    split_ifs at hadded
    · omega
    · omega
  have hnonneg : 0 ≤ st₂.s.freeSpace := by
    split_ifs at hadded
    · omega
    · omega
  have hroom : st₂.s.hasRoom = false ↔ st₂.s.freeSpace = 0 := by
    rw [Sbuf.freeSpace] at hnonneg ⊢
    rw [Sbuf.hasRoom, decide_eq_false_iff_not]
    omega
  have hfull : rest ≠ [] → st₂.s.freeSpace = 0 := by
    intro hne
    rw [Ne, hrest] at hne
    split_ifs at hadded
    · omega
    · omega
  have hgrows : Grows (added.length + rest.length) st st₂ := by
    have hgrows := hends.grows
    rw [Grows, hlength] at hgrows
    rw [Grows, hsize]
    exact_mod_cast hgrows
  have hnomem : enomem ≠ 0 := by decide
  have hext := happ.canExtend
  rw [marked]
  split
  · rename_i hmark
    rw [hroom, hext] at hmark
    refine ⟨happ.error st.s.sError enomem, hgrows, fun _ => hmark.1, fun _ => ?_, fun _ _ _ => rfl,
      fun htrue => ?_, fun htrue => ?_⟩
    · constructor
      · intro hzero
        exact absurd hzero hnomem
      · intro hpos
        have hzero : st₂.s.freeSpace = 0 := hmark.1
        exact absurd hzero (Int.ne_of_gt hpos)
    · rw [hmark.2] at htrue
      cases htrue
    · rw [hmark.2] at htrue
      cases htrue
  · rename_i hmark
    rw [hroom, hext] at hmark
    refine ⟨happ, hgrows, hfull, fun hfalse => ?_, fun hfalse hnone hne => ?_, fun htrue hzero => ?_,
      fun htrue hne => ?_⟩
    · have hpos : st₂.s.freeSpace ≠ 0 := fun hz => hmark ⟨hz, hfalse⟩
      have hnil : rest = [] := by
        by_contra hne
        exact hpos (hfull hne)
      dsimp only
      rw [herr, hends.fits (hrest.mp hnil)]
      omega
    · have hpos : st₂.s.freeSpace ≠ 0 := fun hz => hmark ⟨hz, hfalse⟩
      have hnil : rest = [] := by
        by_contra hne
        exact hpos (hfull hne)
      exact absurd (herr.trans (hends.fits (hrest.mp hnil))) hne
    · by_cases hnil : rest = []
      · exact .inl hnil
      · rw [hrest, Int.not_le] at hnil
        rcases hends.stuck hnil with ⟨hne, -⟩ | ⟨-, hfalse | hrefuse⟩
        · exact absurd (herr.symm.trans hzero) hne
        · rw [hfalse] at htrue
          cases htrue
        · exact .inr hrefuse
    · by_cases hnil : rest = []
      · exact absurd (herr.trans (hends.fits (hrest.mp hnil))) hne
      · rw [hrest, Int.not_le] at hnil
        rcases hends.stuck hnil with ⟨-, hdrain⟩ | ⟨hzero, -⟩
        · exact hdrain
        · exact absurd (herr.trans hzero) hne

theorem Inv.marked (h : Inv base st) : Inv base ⟨marked st.s, st.w⟩ := by
  rw [StringBuffers.marked]
  split
  · exact h.error enomem
  · exact h

theorem sbufVprintf_spec {bytes : List UInt8} (h : Inv base st) (hok : st.s.sError = 0)
    (hint : bytes.length ≤ intMax) :
    Ends (TooLong bytes.length st) (fun r => Inv base r.2 ∧ r.1 = report r.2.s 0 ∧
        ∃ added rest, bytes = added ++ rest ∧ Prints gives added rest st r.2)
      (sbufVprintf gives (.text bytes) st) := by
  rw [sbufVprintf, if_neg (not_not.mpr hok)]
  refine Ends.bind (printLoop_spec h hok hint (Nat.le_refl _)) ?_
  rintro ⟨len, st₁⟩ ⟨hlen, hinv, hends⟩
  dsimp only at hlen hinv hends ⊢
  subst hlen
  have hlt := hinv.fits.len_lt
  have hfree : st₁.s.freeSpace = st₁.s.sSize - (st₁.s.sLen + 1) := rfl
  -- the part of the text that is in the storage
  obtain ⟨added, rest, hsplit, hadded⟩ : ∃ added rest, bytes = added ++ rest ∧
      (added.length : ℤ) =
        if st₁.s.freeSpace < bytes.length then st₁.s.freeSpace else bytes.length := by
    refine ⟨bytes.take st₁.s.freeSpace.toNat, bytes.drop st₁.s.freeSpace.toNat,
      (List.take_append_drop _ _).symm, ?_⟩
    rw [List.length_take]
    split_ifs
    · omega
    · omega
  have hroom : (added.length : ℤ) ≤ st₁.s.freeSpace := by
    split_ifs at hadded
    · omega
    · omega
  have htake : st₁.s.sBuf.bytes.take (st₁.s.sLen.toNat + added.length) = st₁.s.text ++ added := by
    have hpending := hends.pending added.length (by rw [hsplit, List.length_append]; omega) hroom
    rw [hsplit, List.take_left] at hpending
    exact hpending
  obtain ⟨hinv₂, happ₂⟩ := hinv.advance st₁.s.sBuf rfl rfl htake hroom
  have hprints := prints_marked hends hsplit hadded (hends.appends.trans happ₂) rfl rfl
    (by dsimp only [Sbuf.freeSpace]; omega)
  rw [← hadded]
  exact ⟨hinv₂.marked, rfl, added, rest, hsplit, hprints⟩

/-- A conversion that fails takes the last byte of the text away. -/
theorem sbufVprintf_failed (gives : σ → ℤ → Bool × σ) {fmt : Formatted} (h : Inv base st) (hok : st.s.sError = 0)
    (hfmt : fmt.result = -1) (hpos : 0 < st.s.sLen) :
    ∃ r st', sbufVprintf gives fmt st = .ok (r, st') ∧ Inv base st' := by
  have hlt := h.fits.len_lt
  obtain ⟨buf, hprint, hinv, -, -⟩ := vsnprintf_spec h fmt
  have hfree : st.s.freeSpace = st.s.sSize - (st.s.sLen + 1) := rfl
  have hshort : (-1 : ℤ) ≤ st.s.freeSpace := by omega
  rw [sbufVprintf, if_neg (not_not.mpr hok), printLoop, hprint, ok_bind, hfmt]
  dsimp only
  rw [if_pos (show (-1 : ℤ) ≤ ({ st.s with sBuf := buf } : Sbuf σ).freeSpace from hshort), ok_bind,
    if_neg (show ¬ ({ st.s with sBuf := buf } : Sbuf σ).freeSpace < -1 from Int.not_lt.mpr hshort)]
  have hshorter : Inv base ⟨{ st.s with
      sBuf := buf, sLen := st.s.sLen + -1,
      sSectLen := if st.s.isSection then st.s.sSectLen + -1 else st.s.sSectLen }, st.w⟩ :=
    hinv.keep (by dsimp only; omega) (by dsimp only; omega) rfl rfl rfl rfl rfl rfl
  exact ⟨_, _, rfl, hshorter.marked⟩

/-! ## Trimming -/

/-- A text without the white space at its end. -/
def trimmed (text : List UInt8) : List UInt8 := text.rdropWhile isspace

theorem text_concat (h : Fits s) (hpos : 0 < s.sLen) :
    ∃ c, s.text = s.sBuf.bytes.take (s.sLen - 1).toNat ++ [c] ∧
      s.sBuf.load (s.sLen - 1) 1 = .ok [c] := by
  have hlt := h.len_lt
  have hsize := h.size_le
  have hindex : (s.sLen - 1).toNat < s.sBuf.bytes.length := by omega
  refine ⟨s.sBuf.bytes[(s.sLen - 1).toNat], ?_, ?_⟩
  · have hsucc : s.sLen.toNat = (s.sLen - 1).toNat + 1 := by omega
    rw [Sbuf.text, hsucc, List.take_succ_eq_append_getElem hindex]
  · rw [Storage.load_eq (by omega) (by omega) (by omega), List.drop_eq_getElem_cons hindex]
    rfl

theorem take_trimmed (h : Fits s) : s.sBuf.bytes.take (trimmed s.text).length = trimmed s.text := by
  have hprefix : trimmed s.text <+: s.text := List.rdropWhile_prefix isspace s.text
  have hle := hprefix.length_le
  have hlen := length_text h
  have hshorter : ∀ n, n ≤ s.sLen.toNat → s.text.take n = s.sBuf.bytes.take n := by
    intro n hn
    rw [Sbuf.text, List.take_take, Nat.min_eq_left hn]
  rw [← hshorter _ (by omega)]
  exact (List.prefix_iff_eq_take.mp hprefix).symm

/-- A section loses what is trimmed, also where that lies before its start. -/
def trimmedTo (s : Sbuf σ) : Sbuf σ :=
  { s with
    sLen := (trimmed s.text).length,
    sSectLen := if s.isSection then s.sSectLen - (s.sLen - (trimmed s.text).length) else s.sSectLen }

theorem trimmedTo_of_eq (h : Fits s) (htrim : trimmed s.text = s.text) : trimmedTo s = s := by
  have hlength := length_text h
  rw [trimmedTo, htrim, hlength, Int.sub_self, Int.sub_zero, ite_self]

theorem trimmedTo_of_empty (h : Fits s) (hzero : s.sLen ≤ 0) : trimmedTo s = s := by
  apply trimmedTo_of_eq h
  have hnat : s.sLen.toNat = 0 := by omega
  rw [Sbuf.text, hnat, List.take_zero]
  rfl

theorem trimmedTo_concat {c : UInt8} (hspace : isspace c = true)
    (htext : s.text = s.sBuf.bytes.take (s.sLen - 1).toNat ++ [c]) :
    trimmedTo { s with
      sLen := s.sLen - 1, sSectLen := if s.isSection then s.sSectLen - 1 else s.sSectLen } =
      trimmedTo s := by
  have htrim : trimmed s.text = trimmed (s.sBuf.bytes.take (s.sLen - 1).toNat) := by
    rw [htext, trimmed, List.rdropWhile_concat_pos _ _ _ hspace]
    rfl
  have hsect : ∀ t : ℤ, (if s.isSection then
      (if s.isSection then s.sSectLen - 1 else s.sSectLen) - (s.sLen - 1 - t)
      else (if s.isSection then s.sSectLen - 1 else s.sSectLen)) =
      if s.isSection then s.sSectLen - (s.sLen - t) else s.sSectLen := by
    intro t
    split_ifs
    · omega
    · rfl
  rw [trimmedTo, trimmedTo, htrim, ← hsect]
  rfl

theorem trimLoop_spec {fuel : ℕ} (h : Inv base st) (hfuel : st.s.sLen.toNat ≤ fuel) :
    trimLoop fuel st = .ok ⟨trimmedTo st.s, st.w⟩ := by
  induction fuel generalizing st with
  | zero => rw [trimLoop, trimmedTo_of_empty h.fits (by omega)]
  | succ fuel ih =>
    rw [trimLoop]
    split
    · rename_i hpos
      obtain ⟨c, htext, hload⟩ := text_concat h.fits hpos
      rw [hload, ok_bind]
      by_cases hspace : isspace c = true
      · have hshort : Inv base ⟨{ st.s with
            sLen := st.s.sLen - 1,
            sSectLen := if st.s.isSection then st.s.sSectLen - 1 else st.s.sSectLen }, st.w⟩ :=
          h.keep (by dsimp only; omega) (by dsimp only; omega) rfl rfl rfl rfl rfl rfl
        rw [if_pos (by simp [hspace]), ih hshort (by dsimp only; omega),
          trimmedTo_concat hspace htext]
      · rw [if_neg (by simp [hspace]), trimmedTo_of_eq h.fits]
        rw [htext, trimmed, List.rdropWhile_concat_neg _ _ _ hspace]
    · rename_i hzero
      rw [trimmedTo_of_empty h.fits (by omega)]

theorem sbufTrim_spec (h : Inv base st) (hok : st.s.sError = 0) :
    sbufTrim st = .ok (0, ⟨trimmedTo st.s, st.w⟩) ∧ Inv base ⟨trimmedTo st.s, st.w⟩ ∧
      (trimmedTo st.s).text = trimmed st.s.text := by
  have hprefix : trimmed st.s.text <+: st.s.text := List.rdropWhile_prefix isspace st.s.text
  have hle := hprefix.length_le
  have hlen := length_text h.fits
  refine ⟨?_, h.keep (by dsimp only [trimmedTo]; omega) (by dsimp only [trimmedTo]; omega)
    rfl rfl rfl rfl rfl rfl, ?_⟩
  · rw [sbufTrim, if_neg (not_not.mpr hok), trimLoop_spec h (Nat.le_refl _)]
    rfl
  · exact take_trimmed h.fits

/-! ## Finishing -/

theorem drainLoop_spec {func : Drain σ} {fuel : ℕ} (h : Inv base st)
    (hfunc : st.s.sDrainFunc = some func) (hfuel : st.s.sLen.toNat ≤ fuel) :
    ∃ st', drainLoop func fuel st = .ok st' ∧ Inv base st' ∧ Appends [] st st' ∧
      st'.s.sSize = st.s.sSize ∧ (st'.s.sError = 0 → st'.s.sLen = 0) ∧ (st.s.sError ≠ 0 → st'.s.sError ≠ 0) := by
  have hnonneg := h.fits.len_nonneg
  induction fuel generalizing st with
  | zero =>
    rw [drainLoop, if_neg (by omega)]
    exact ⟨st, rfl, h, Appends.refl st, rfl, fun _ => by omega, fun hne => hne⟩
  | succ fuel ih =>
    rw [drainLoop]
    split
    · rename_i hmore
      obtain ⟨r, st₁, hdrained, hinv, happ, hsame, hr⟩ := sbufDrain_spec h hfunc hmore.1
      dsimp only
      rw [hdrained, ok_bind]
      dsimp only
      have hinv' := hinv.error r
      have happ' := happ.error st.s.sError r
      have hfunc' : st₁.s.sDrainFunc = some func := happ.drainFunc.trans hfunc
      rcases hr with ⟨hne, -, -, -⟩ | ⟨rfl, -, hless⟩
      · have hstop : drainLoop func fuel ⟨{ st₁.s with sError := r }, st₁.w⟩ =
            .ok ⟨{ st₁.s with sError := r }, st₁.w⟩ := by
          rw [drainLoop.eq_def]
          exact if_neg (fun hmore => hne hmore.2)
        rw [hstop]
        exact ⟨_, rfl, hinv', happ', hsame, fun hzero => absurd hzero hne, fun _ => hne⟩
      · have hpos := hinv.fits.len_nonneg
        obtain ⟨st₂, hloop, hinv₂, happ₂, hsame₂, hdone, -⟩ := ih hinv' hfunc' (by dsimp only; omega) hpos
        exact ⟨st₂, hloop, hinv₂, happ'.trans happ₂, hsame₂.trans hsame, hdone,
          fun hne => absurd hmore.2 hne⟩
    · rename_i hdone
      exact ⟨st, rfl, h, Appends.refl st, rfl, fun hzero => by omega, fun hne => hne⟩

/-- What finishing leaves: without an error a drain has taken the whole text. -/
structure Finishes (st st' : State σ) : Prop where
  stream : stream st' = stream st
  finished : st'.s.sFlags.finished = true
  terminated : st'.s.sBuf.bytes[st'.s.sLen.toNat]? = some 0
  drained : st.s.sDrainFunc ≠ none → st'.s.sError = 0 → st'.s.text = []
  sticky : st.s.sError ≠ 0 → st'.s.sError ≠ 0
  drainFunc : st'.s.sDrainFunc = st.s.sDrainFunc
  canExtend : st'.s.canExtend = st.s.canExtend
  size : st'.s.sSize = st.s.sSize
  len_le : st'.s.sLen ≤ st.s.sLen
  extended : st'.w.next ≤ st.w.next
  kept : st.s.sDrainFunc = none → st'.w = st.w ∧ ∃ buf, st'.s = { st.s with
    sBuf := buf, sFlags := { st.s.sFlags with finished := true } }

theorem sbufFinish_spec (h : Inv base st) :
    ∃ st', sbufFinish st = .ok (report st'.s 0, st') ∧ Inv base st' ∧ Finishes st st' := by
  obtain ⟨st₁, hall, hinv, happ, hsame, hdone, hsticky, hkept⟩ : ∃ st₁, drainAll st = .ok st₁ ∧
      Inv base st₁ ∧ Appends [] st st₁ ∧ st₁.s.sSize = st.s.sSize ∧
      (st.s.sDrainFunc ≠ none → st₁.s.sError = 0 → st₁.s.sLen = 0) ∧
      (st.s.sError ≠ 0 → st₁.s.sError ≠ 0) ∧ (st.s.sDrainFunc = none → st₁ = st) := by
    rw [drainAll]
    cases hfunc : st.s.sDrainFunc with
    | none =>
      exact ⟨st, rfl, h, Appends.refl st, rfl, fun hne => absurd rfl hne, fun hne => hne, fun _ => rfl⟩
    | some func =>
      obtain ⟨st₁, hloop, hinv, happ, hsame, hdone, hsticky⟩ := drainLoop_spec h hfunc (Nat.le_refl _)
      exact ⟨st₁, hloop, hinv, happ, hsame, fun _ => hdone, hsticky, fun hnone => absurd hnone (Option.some_ne_none _)⟩
  obtain ⟨hlen, hlt, hsize, hint, hdrain⟩ := hinv.fits
  have hone : st₁.s.sLen + ([0] : List UInt8).length ≤ st₁.s.sBuf.bytes.length := by
    rw [List.length_singleton]
    omega
  rw [sbufFinish, hall, ok_bind, Storage.store_eq hlen hone, ok_bind]
  have hshort : st₁.s.sLen.toNat + ([0] : List UInt8).length ≤ st₁.s.sBuf.bytes.length := by omega
  obtain ⟨hinv₂, happ₂⟩ := hinv.behind
    ⟨st₁.s.sBuf.block, overwrite st₁.s.sBuf.bytes st₁.s.sLen.toNat [0]⟩ rfl
    (length_overwrite hshort) (take_overwrite_of_le (by omega) (Nat.le_refl _))
  refine ⟨⟨{ st₁.s with
    sBuf := ⟨st₁.s.sBuf.block, overwrite st₁.s.sBuf.bytes st₁.s.sLen.toNat [0]⟩,
    sFlags := { st₁.s.sFlags with finished := true } }, st₁.w⟩, rfl,
    ⟨⟨hlen, hlt, hinv₂.fits.size_le, hint, hdrain⟩, ⟨hinv₂.owns.dynamic,
    hinv₂.owns.dynstruct, hinv₂.owns.live, hinv₂.owns.nodup, hinv₂.owns.fresh⟩⟩, ?_⟩
  have hle := happ.len_le
  have hext := happ.extended
  rw [List.length_nil] at hle
  rw [hsame] at hext
  refine ⟨?_, rfl, ?_, fun hsome hzero => ?_, hsticky, happ.drainFunc, happ.canExtend, hsame,
    by dsimp only; omega, by dsimp only; omega, fun hnone => ?_⟩
  · have hstream := (happ.trans happ₂).stream
    rw [List.append_nil, List.append_nil] at hstream
    exact hstream
  · exact getElem?_overwrite_singleton (by omega)
  · have hempty := hdone hsome hzero
    dsimp only [Sbuf.text]
    rw [hempty]
    rfl
  · obtain rfl := hkept hnone
    exact ⟨rfl, _, rfl⟩

/-! ## Sections -/

/-- The padding is put byte by byte. -/
theorem padLoop_eq (c : UInt8) (n : ℕ) (hok : st.s.sError = 0) :
    padLoop gives c n st = (putBytes gives (List.replicate n c) st).map Prod.snd := by
  induction n generalizing st with
  | zero => rfl
  | succ n ih =>
    rw [padLoop, if_pos hok, List.replicate_succ, putBytes]
    cases hput : sbufPutByte gives c st with
    | error e => rfl
    | ok st₁ =>
      rw [ok_bind, ok_bind]
      by_cases hzero : st₁.s.sError = 0
      · rw [ih hzero, if_neg (not_not.mpr hzero)]
      · rw [if_pos hzero]
        cases n with
        | zero => rfl
        | succ n =>
          rw [padLoop, if_neg hzero]
          rfl

theorem padLoop_of_error (c : UInt8) (n : ℕ) (hne : st.s.sError ≠ 0) :
    padLoop gives c n st = .ok st := by
  cases n with
  | zero => rfl
  | succ n => rw [padLoop, if_neg hne]

/-- The bytes that fill a section up. -/
def filler (sectLen : ℤ) (pad : ℕ) (c : UInt8) : List UInt8 :=
  if 1 < pad then List.replicate (padding sectLen pad).toNat c else []

theorem padSection_spec (pad : ℕ) (c : UInt8) (h : Inv base st) (hok : st.s.sError = 0) :
    Ends (TooLong (filler st.s.sSectLen pad c).length st) (fun st' => Inv base st' ∧
        ∃ added rest, filler st.s.sSectLen pad c = added ++ rest ∧ Puts gives added rest st st')
      (padSection gives pad c st) := by
  rw [padSection, filler]
  split
  · rw [padLoop_eq c _ hok]
    have hputs := putBytes_spec gives
      (List.replicate (padding st.s.sSectLen pad).toNat c) h hok
    cases hput : putBytes gives (List.replicate (padding st.s.sSectLen pad).toNat c) st with
    | error e =>
      rw [hput] at hputs
      exact hputs
    | ok r =>
      rw [hput] at hputs
      exact ⟨hputs.1, hputs.2.2⟩
  · exact ⟨h, [], [], rfl, Appends.refl st, .of_eq rfl, by simp [hok], fun hne => absurd rfl hne⟩

theorem padSection_of_error (pad : ℕ) (c : UInt8) (hne : st.s.sError ≠ 0) :
    padSection gives pad c st = .ok st := by
  rw [padSection]
  split
  · exact padLoop_of_error c _ hne
  · rfl

end OpenXPC.StringBuffers
