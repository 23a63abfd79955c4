import OpenXPC.BufferAppends

/-! # Nested sections

A section is padded at its end to a multiple of a length. Sections nest: what an inner
section has appended counts for the outer one. The lengths count all that was appended,
also what a drain has taken already. -/
namespace OpenXPC.StringBuffers
open Outcomes

variable {σ : Type} {gives : σ → ℤ → Bool × σ} {base : List ℕ} {st st' : State σ}
  {added : List UInt8}

/-- What is written with sections. -/
inductive Piece
  | bytes (buf : List UInt8)
  | sect (pad : ℕ) (c : UInt8) (body : List Piece)

/-- The least multiple of `pad` that is not below `k`. -/
def roundup (k pad : ℕ) : ℕ := (k + (pad - 1)) / pad * pad

/-- A section without a length to pad to is left as it is. -/
def filled (text : List UInt8) (pad : ℕ) (c : UInt8) : List UInt8 :=
  if 1 < pad then text ++ List.replicate (roundup text.length pad - text.length) c else text

mutual

/-- The text of a piece. -/
def Piece.text : Piece → List UInt8
  | .bytes buf => buf
  | .sect pad c body => filled (textAll body) pad c

def textAll : List Piece → List UInt8
  | [] => []
  | p :: ps => p.text ++ textAll ps

end

mutual

/-- The lengths of the sections, in the order in which they end. -/
def Piece.lengths : Piece → List ℤ
  | .bytes _ => []
  | .sect pad c body => lengthsAll body ++ [((filled (textAll body) pad c).length : ℤ)]

def lengthsAll : List Piece → List ℤ
  | [] => []
  | p :: ps => p.lengths ++ lengthsAll ps

end

mutual

/-- The lengths are within the range of an `ssize_t`. -/
def Piece.Modest : Piece → Prop
  | .bytes _ => True
  | .sect pad _ body => (textAll body).length + pad < 9223372036854775808 ∧ ModestAll body

def ModestAll : List Piece → Prop
  | [] => True
  | p :: ps => p.Modest ∧ ModestAll ps

end

mutual

/-- The calls for a piece, with the lengths that `sbuf_end_section` returns. -/
def emit (gives : σ → ℤ → Bool × σ) : Piece → State σ → Except Overrun (List ℤ × State σ)
  | .bytes buf, st => do
    let (_, st) ← sbufBcat gives buf st
    .ok ([], st)
  | .sect pad c body, st => do
    let (oldLen, st) := sbufStartSection st
    let (lens, st) ← emitAll gives body st
    let (len, st) ← sbufEndSection gives oldLen pad c st
    .ok (lens ++ [len], st)

def emitAll (gives : σ → ℤ → Bool × σ) : List Piece → State σ → Except Overrun (List ℤ × State σ)
  | [], st => .ok ([], st)
  | p :: ps, st => do
    let (lens, st) ← emit gives p st
    let (lens', st) ← emitAll gives ps st
    .ok (lens ++ lens', st)

end

/-! ## Padding -/

theorem le_roundup {k pad : ℕ} (hpad : 0 < pad) : k ≤ roundup k pad := by
  have hdiv := Nat.div_add_mod (k + (pad - 1)) pad
  have hmod := Nat.mod_lt (k + (pad - 1)) hpad
  rw [Nat.mul_comm] at hdiv
  rw [roundup]
  omega

theorem dvd_length_filled {pad : ℕ} (hpad : 1 < pad) (text : List UInt8) (c : UInt8) :
    pad ∣ (filled text pad c).length := by
  have hle := le_roundup (k := text.length) (by omega : 0 < pad)
  rw [filled, if_pos hpad, List.length_append, List.length_replicate, Nat.add_sub_of_le hle]
  exact Nat.dvd_mul_left pad _

/-- Without an overflow the padding is what is missing to the next multiple. -/
theorem padding_eq {k pad : ℕ} (hpad : 1 < pad) (hle : k + pad < 9223372036854775808) :
    padding k pad = (roundup k pad - k : ℕ) := by
  have hge := le_roundup (k := k) (by omega : 0 < pad)
  have hup : roundup k pad ≤ k + (pad - 1) := Nat.div_mul_le_self _ _
  have hsum : ((k : ℤ) + (pad - 1)) % 18446744073709551616 = ((k + (pad - 1) : ℕ) : ℤ) := by
    rw [Int.emod_eq_of_lt (by omega) (by omega)]
    omega
  rw [padding, hsum]
  have hcast : ((k + (pad - 1) : ℕ) : ℤ) / (pad : ℤ) * pad = ((roundup k pad : ℕ) : ℤ) := by
    rw [roundup]
    push_cast
    rfl
  rw [hcast, Int.bmod_eq_of_le_mul_two (by omega) (by omega)]
  omega

theorem filler_eq {text : List UInt8} {pad : ℕ} {c : UInt8}
    (hle : text.length + pad < 9223372036854775808) :
    text ++ filler text.length pad c = filled text pad c := by
  rw [filler, filled]
  split
  · rename_i hpad
    rw [padding_eq hpad hle, Int.toNat_natCast]
  · rw [List.append_nil]

/-! ## Sections -/

theorem sbufBcat_whole {buf : List UInt8} {r : ℤ} (hinv : Inv base st)
    (hcat : sbufBcat gives buf st = .ok (r, st')) (hok : st'.s.sError = 0) :
    st.s.sError = 0 ∧ Appends buf st st' := by
  rw [sbufBcat] at hcat
  split at hcat
  · rename_i hne
    cases hcat
    exact absurd hok hne
  · rename_i hzero
    rw [not_not] at hzero
    obtain ⟨-, -, added, rest, rfl, hputs⟩ := (putBytes_spec gives buf hinv hzero).of_ok hcat
    rw [hputs.error.mp hok, List.append_nil]
    exact ⟨hzero, hputs.appends⟩

/-- The state that the end of a section leaves. -/
def ended (oldLen : ℤ) (s : Sbuf σ) : Sbuf σ :=
  if oldLen = -1 then { s with sSectLen := 0, sFlags := { s.sFlags with insection := false } }
  else { s with sSectLen := s.sSectLen + oldLen }

theorem sError_ended (oldLen : ℤ) (s : Sbuf σ) : (ended oldLen s).sError = s.sError := by
  rw [ended]
  split
  · rfl
  · rfl

theorem sbufEndSection_whole {oldLen len : ℤ} {pad : ℕ} {c : UInt8} (hinv : Inv base st)
    (hend : sbufEndSection gives oldLen pad c st = .ok (len, st')) (hok : st'.s.sError = 0) :
    st.s.sError = 0 ∧ ∃ st₁, Appends (filler st.s.sSectLen pad c) st st₁ ∧ len = st₁.s.sSectLen ∧
      st' = ⟨ended oldLen st₁.s, st₁.w⟩ := by
  rw [sbufEndSection] at hend
  obtain ⟨st₁, hpad, hend⟩ := bind_eq_ok.mp hend
  injection hend with hpair
  injection hpair with hlen hst
  subst hst
  have hok₁ : st₁.s.sError = 0 := (sError_ended oldLen st₁.s).symm.trans hok
  have hlen₁ : len = st₁.s.sSectLen := hlen.symm.trans (if_neg (not_not.mpr hok))
  by_cases hzero : st.s.sError = 0
  · obtain ⟨-, added, rest, hsplit, hputs⟩ := (padSection_spec pad c hinv hzero).of_ok hpad
    rw [hputs.error.mp hok₁, List.append_nil] at hsplit
    rw [hsplit]
    exact ⟨hzero, st₁, hputs.appends, hlen₁, rfl⟩
  · rw [padSection_of_error pad c hzero] at hpad
    cases hpad
    exact absurd hok₁ hzero

/-- Outside of a section the length is zero. -/
structure Sound (st : State σ) : Prop where
  nonneg : 0 ≤ st.s.sSectLen
  outside : st.s.isSection = false → st.s.sSectLen = 0

theorem Sound.appends (h : Sound st) (happ : Appends added st st') : Sound st' := by
  have hsect := happ.sectLen
  have hnonneg := h.nonneg
  constructor
  · rw [hsect]
    split
    · omega
    · exact hnonneg
  · intro hout
    rw [happ.isSection] at hout
    rw [hsect, hout]
    exact h.outside hout

theorem startSection_sound (st : State σ) (h : Sound st) :
    Sound (sbufStartSection st).2 ∧ (sbufStartSection st).2.s.isSection = true ∧
      (sbufStartSection st).2.s.sSectLen = 0 ∧
      (sbufStartSection st).2.s.sError = st.s.sError := by
  rw [sbufStartSection]
  split
  · rename_i hout
    have hzero := h.outside hout
    exact ⟨⟨h.nonneg, fun hfalse => by cases hfalse⟩, rfl, hzero, rfl⟩
  · rename_i hin
    have htrue : st.s.isSection = true := by simpa using hin
    refine ⟨⟨Int.le_refl 0, fun _ => rfl⟩, htrue, rfl, rfl⟩

/-- From the start of a section to its end the text is appended as without it. -/
theorem section_appends {st₁ st₂ : State σ} (h : Sound st)
    (happ : Appends added (sbufStartSection st).2 st₁)
    (hst : st₂ = ⟨ended (sbufStartSection st).1 st₁.s, st₁.w⟩) : Appends added st st₂ := by
  subst hst
  have hflags := happ.flags
  have hsect := happ.sectLen
  have hnonneg := h.nonneg
  by_cases hout : st.s.isSection = false
  · have hstart : sbufStartSection st =
        (-1, ⟨{ st.s with sFlags := { st.s.sFlags with insection := true } }, st.w⟩) := if_pos hout
    rw [hstart] at happ hflags hsect ⊢
    rw [ended, if_pos rfl]
    refine ⟨happ.drainFunc, ?_, ?_, happ.stream, happ.taken, happ.len_le, happ.size_le,
      happ.size_eq, happ.extended⟩
    · dsimp only at hflags ⊢
      rw [hflags]
      dsimp only
      rw [← hout]
      rfl
    · rw [if_neg (by rw [hout]; decide), h.outside hout]
  · have hstart : sbufStartSection st = (st.s.sSectLen, ⟨{ st.s with sSectLen := 0 }, st.w⟩) :=
      if_neg hout
    have hin : st.s.isSection = true := by simpa using hout
    rw [hstart] at happ hflags hsect ⊢
    rw [ended, if_neg (by dsimp only; omega)]
    refine ⟨happ.drainFunc, hflags, ?_, happ.stream, happ.taken, happ.len_le, happ.size_le,
      happ.size_eq, happ.extended⟩
    have hlen : st₁.s.sSectLen = 0 + added.length := hsect.trans (if_pos hin)
    dsimp only
    rw [hlen, if_pos hin]
    omega

/-- What a sequence of calls has done if no error is left: it was free of errors from the
start, and what it appends and returns is what is meant. -/
def Whole (text : List UInt8) (meant lens : List ℤ) (st st' : State σ) : Prop :=
  st'.s.sError = 0 → st.s.sError = 0 ∧ (Sound st → Appends text st st' ∧ lens = meant)

mutual

theorem emit_whole (p : Piece) {st st' : State σ} {lens : List ℤ} (hinv : Inv base st)
    (hp : p.Modest) (hemit : emit gives p st = .ok (lens, st')) :
    Inv base st' ∧ Whole p.text p.lengths lens st st' := by
  cases p with
  | bytes buf =>
    rw [emit] at hemit
    obtain ⟨⟨r, st₁⟩, hcat, hemit⟩ := bind_eq_ok.mp hemit
    cases hemit
    refine ⟨(sbufBcat_inv buf hinv).of_ok hcat, fun hok => ?_⟩
    obtain ⟨hzero, happ⟩ := sbufBcat_whole hinv hcat hok
    rw [Piece.text, Piece.lengths]
    exact ⟨hzero, fun _ => ⟨happ, rfl⟩⟩
  | sect pad c body =>
    rw [emit] at hemit
    rw [Piece.Modest] at hp
    obtain ⟨⟨lens₁, st₁⟩, hbody, hemit⟩ := bind_eq_ok.mp hemit
    obtain ⟨⟨len, st₂⟩, hend, hemit⟩ := bind_eq_ok.mp hemit
    cases hemit
    obtain ⟨hinv₁, hwhole⟩ := emitAll_whole body (sbufStartSection_inv hinv) hp.2 hbody
    refine ⟨(sbufEndSection_inv _ pad c hinv₁).of_ok hend, fun hok => ?_⟩
    obtain ⟨hok₁, st₃, hfill, rfl, hst⟩ := sbufEndSection_whole hinv₁ hend hok
    obtain ⟨hzero, hsound⟩ := hwhole hok₁
    have hstart : (sbufStartSection st).2.s.sError = st.s.sError := by
      rw [sbufStartSection]
      split
      · rfl
      · rfl
    refine ⟨hstart.symm.trans hzero, fun h => ?_⟩
    obtain ⟨hs, hin, hnew, -⟩ := startSection_sound st h
    obtain ⟨happ, rfl⟩ := hsound hs
    have hlen : st₁.s.sSectLen = (textAll body).length := by
      rw [happ.sectLen, hin, if_pos rfl, hnew, Int.zero_add]
    rw [hlen] at hfill
    have hfilled := happ.trans hfill
    rw [filler_eq hp.1] at hfilled
    rw [Piece.text, Piece.lengths]
    refine ⟨section_appends h hfilled hst, ?_⟩
    rw [hfilled.sectLen, hin, if_pos rfl, hnew, Int.zero_add]

theorem emitAll_whole (ps : List Piece) {st st' : State σ} {lens : List ℤ} (hinv : Inv base st)
    (hps : ModestAll ps) (hemit : emitAll gives ps st = .ok (lens, st')) :
    Inv base st' ∧ Whole (textAll ps) (lengthsAll ps) lens st st' := by
  cases ps with
  | nil =>
    rw [emitAll] at hemit
    cases hemit
    refine ⟨hinv, fun hok => ⟨hok, fun _ => ?_⟩⟩
    rw [textAll, lengthsAll]
    exact ⟨Appends.refl st, rfl⟩
  | cons p ps =>
    rw [emitAll] at hemit
    rw [ModestAll] at hps
    obtain ⟨⟨lens₁, st₁⟩, hfirst, hemit⟩ := bind_eq_ok.mp hemit
    obtain ⟨⟨lens₂, st₂⟩, hrest, hemit⟩ := bind_eq_ok.mp hemit
    cases hemit
    obtain ⟨hinv₁, hwhole₁⟩ := emit_whole p hinv hps.1 hfirst
    obtain ⟨hinv₂, hwhole₂⟩ := emitAll_whole ps hinv₁ hps.2 hrest
    refine ⟨hinv₂, fun hok => ?_⟩
    obtain ⟨hok₁, hsound₂⟩ := hwhole₂ hok
    obtain ⟨hzero, hsound₁⟩ := hwhole₁ hok₁
    refine ⟨hzero, fun h => ?_⟩
    obtain ⟨happ₁, rfl⟩ := hsound₁ h
    obtain ⟨happ₂, rfl⟩ := hsound₂ (h.appends happ₁)
    rw [textAll, lengthsAll]
    exact ⟨happ₁.trans happ₂, rfl⟩

end

/-- A section to four bytes around one to three. -/
def nestedPieces : List Piece := [.sect 4 32 [.bytes [97], .sect 3 46 [.bytes [98]]]]

def emitted : State Unit :=
  match emitAll plenty nestedPieces newBuffer with
  | .ok (_, st) => st
  | .error _ => newBuffer

example : textAll nestedPieces = [97, 98, 46, 46] := by
  simp [nestedPieces, textAll, Piece.text, filled, roundup]

end OpenXPC.StringBuffers
