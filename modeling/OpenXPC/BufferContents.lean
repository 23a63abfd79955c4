import Mathlib.Data.List.TakeDrop
import OpenXPC.BufferRuns

/-! # What a buffer without a drain holds

Seen from outside a buffer is a text, an error and the section that is open. Storage of a
fixed size keeps the part of what is appended that there is room for; storage that is
extended keeps it all. Appending byte by byte and printing differ only in the error of a
text that fills fixed storage to the last byte. -/
namespace OpenXPC.StringBuffers
open Outcomes

variable {σ : Type} {gives : σ → ℤ → Bool × σ} {base : List ℕ} {st st' : State σ}

structure Content where
  text : List UInt8
  error : ℤ
  finished : Bool
  insection : Bool
  sectLen : ℤ
  deriving DecidableEq

/-- How long a text can be: `none` for storage that is extended. -/
abbrev Capacity := Option ℕ

/-- The part of what is appended that there is room for. -/
def Capacity.fit (cap : Capacity) (text bytes : List UInt8) : List UInt8 :=
  match cap with
  | none => bytes
  | some n => bytes.take (n - text.length)

def Capacity.full (cap : Capacity) (text : List UInt8) : Bool :=
  match cap with
  | none => false
  | some n => n ≤ text.length

namespace Content

def append (c : Content) (added : List UInt8) (error : ℤ) : Content :=
  { c with
    text := c.text ++ added, error := error
    sectLen := if c.insection then c.sectLen + added.length else c.sectLen }

def report (c : Content) (r : ℤ) : ℤ := if c.error ≠ 0 then -1 else r

/-- Bytes are appended until one does not fit. -/
def put (cap : Capacity) (bytes : List UInt8) (c : Content) : Content :=
  if c.error ≠ 0 then c
  else c.append (cap.fit c.text bytes) (if cap.fit c.text bytes = bytes then 0 else enomem)

/-- A text is an error as soon as it leaves no room for another byte. -/
def print (cap : Capacity) (bytes : List UInt8) (c : Content) : Content :=
  if c.error ≠ 0 then c
  else c.append (cap.fit c.text bytes)
    (if cap.full (c.text ++ cap.fit c.text bytes) then enomem else 0)

def clear (c : Content) : Content :=
  { c with text := [], error := 0, finished := false, sectLen := 0 }

def trim (c : Content) : Content :=
  { c with
    text := trimmed c.text
    sectLen := if c.insection then c.sectLen - (c.text.length - (trimmed c.text).length) else c.sectLen }

def endSection (oldLen : ℤ) (c : Content) : Content :=
  if oldLen = -1 then { c with sectLen := 0, insection := false }
  else { c with sectLen := c.sectLen + oldLen }

end Content

/-- The operations on the text, with their results. A drain is never set. -/
def meant (cap : Capacity) (op : Op σ) (c : Content) : ℤ × Content :=
  match op with
  | .clear => (0, c.clear)
  | .setpos pos =>
    if pos < 0 ∨ c.text.length < pos then (-1, c) else (0, { c with text := c.text.take pos.toNat })
  | .bcat buf => ((c.put cap buf).report 0, c.put cap buf)
  | .bcpy buf => ((c.clear.put cap buf).report 0, c.clear.put cap buf)
  | .cat str => ((c.put cap str.bytes).report 0, c.put cap str.bytes)
  | .cpy str => ((c.clear.put cap str.bytes).report 0, c.clear.put cap str.bytes)
  | .printf fmt => ((c.print cap fmt.bytes).report 0, c.print cap fmt.bytes)
  | .putc byte => ((c.put cap [byte]).report 0, c.put cap [byte])
  | .setDrain _ => (0, c)
  | .trim => if c.error ≠ 0 then (-1, c) else (0, c.trim)
  | .finish => (c.report 0, { c with finished := true })
  | .startSection =>
    if c.insection then (c.sectLen, { c with sectLen := 0 }) else (-1, { c with insection := true })
  | .endSection oldLen pad byte =>
    let c := c.put cap (filler c.sectLen pad byte)
    (c.report c.sectLen, c.endSection oldLen)

/-- The operations one after another, with the results of all. -/
def meantAll (cap : Capacity) : List (Op σ) → Content → List ℤ × Content
  | [], c => ([], c)
  | op :: ops, c =>
    let (r, c) := meant cap op c
    let (rs, c) := meantAll cap ops c
    (r :: rs, c)

def performAll (gives : σ → ℤ → Bool × σ) :
    List (Op σ) → State σ → Except Overrun (List ℤ × State σ)
  | [], st => .ok ([], st)
  | op :: ops, st => do
    let (r, st) ← perform gives op st
    let (rs, st) ← performAll gives ops st
    .ok (r :: rs, st)

/-- The conversions succeed, no drain is set, and the text stays short. -/
structure Plain (op : Op σ) (c : Content) : Prop where
  converted : ∀ fmt, op = .printf fmt → fmt.result ≠ -1
  noDrain : ∀ func, op = .setDrain func → func = none
  short : c.text.length + (op.bytes c.sectLen).length + 4096 ≤ intMax

def AllPlain (cap : Capacity) : List (Op σ) → Content → Prop
  | [], _ => True
  | op :: ops, c => Plain op c ∧ AllPlain cap ops (meant cap op c).2

/-- The state of a buffer and what is seen of it. -/
structure Shows (cap : Capacity) (st : State σ) (c : Content) : Prop where
  text : st.s.text = c.text
  error : st.s.sError = c.error
  finished : st.s.sFlags.finished = c.finished
  insection : st.s.isSection = c.insection
  sectLen : st.s.sSectLen = c.sectLen
  noDrain : st.s.sDrainFunc = none
  extended : st.s.canExtend = true ↔ cap = none
  fixed : ∀ n, cap = some n → st.s.sSize = n + 1

section Steps

variable {cap : Capacity} {c : Content} {bytes added rest : List UInt8}

theorem Shows.length (h : Shows cap st c) (hinv : Inv base st) : (c.text.length : ℤ) = st.s.sLen := by
  rw [← h.text]
  exact length_text hinv.fits

theorem Capacity.fit_eq {text : List UInt8} (hnone : cap = none → rest = [])
    (hle : ∀ n, cap = some n → text.length + added.length ≤ n)
    (hfull : ∀ n, cap = some n → rest ≠ [] → text.length + added.length = n) :
    cap.fit text (added ++ rest) = added := by
  cases cap with
  | none => rw [hnone rfl, List.append_nil, Capacity.fit]
  | some n =>
    have hfits := hle n rfl
    rw [Capacity.fit]
    by_cases hrest : rest = []
    · rw [hrest, List.append_nil, List.take_of_length_le (by omega)]
    · have hlast := hfull n rfl hrest
      exact List.take_left' (by omega)

theorem Appends.shows {e : ℤ} (h : Appends added st st') (hs : Shows cap st c)
    (herr : st'.s.sError = e) : Shows cap st' (c.append added e) := by
  refine ⟨?_, herr, ?_, ?_, ?_, h.drainFunc.trans hs.noDrain, ?_, fun n hn => ?_⟩
  · rw [h.text hs.noDrain, hs.text, Content.append]
  · rw [h.flags]
    exact hs.finished
  · rw [h.isSection]
    exact hs.insection
  · rw [h.sectLen, hs.insection, hs.sectLen, Content.append]
  · rw [h.canExtend]
    exact hs.extended
  · rw [h.size_eq, hs.fixed n hn]
    cases hext : st.s.canExtend with
    | false => rfl
    | true =>
      rw [hs.extended.mp hext] at hn
      cases hn

/-- How long the text is after an append, against the capacity. -/
theorem Appends.length (h : Appends added st st') (hs : Shows cap st c) (hinv : Inv base st')
    {n : ℕ} (hn : cap = some n) :
    st'.s.freeSpace = n - (c.text.length + added.length) ∧ c.text.length + added.length ≤ n := by
  have hs' := h.shows (e := st'.s.sError) hs rfl
  have hlen := hs'.length hinv
  have hsize := hs'.fixed n hn
  have hlt := hinv.fits.len_lt
  rw [Content.append, List.length_append] at hlen
  rw [Sbuf.freeSpace]
  constructor
  · omega
  · omega

theorem Shows.fixed_of_some (hs : Shows cap st c) {n : ℕ} (hn : cap = some n) :
    st.s.canExtend = false := by
  cases hext : st.s.canExtend with
  | false => rfl
  | true =>
    rw [hs.extended.mp hext] at hn
    cases hn

theorem Puts.shows (h : Puts gives added rest st st') (hs : Shows cap st c) (hinv : Inv base st')
    (hmem : cap = none → ¬ Refuses gives) (hok : c.error = 0) :
    Shows cap st' (c.put cap (added ++ rest)) := by
  have hfit : cap.fit c.text (added ++ rest) = added := by
    apply Capacity.fit_eq
    · intro hnone
      by_contra hrest
      obtain ⟨-, -, hfixed | hrefuse⟩ := h.full hrest hs.noDrain
      · rw [hs.extended.mpr hnone] at hfixed
        cases hfixed
      · exact hmem hnone hrefuse
    · intro n hn
      exact (h.appends.length hs hinv hn).2
    · intro n hn hrest
      obtain ⟨hfree, hle⟩ := h.appends.length hs hinv hn
      obtain ⟨-, hfull, -⟩ := h.full hrest hs.noDrain
      omega
  rw [Content.put, if_neg (not_not.mpr hok), hfit]
  refine h.appends.shows hs ?_
  by_cases hrest : rest = []
  · rw [h.error.mpr hrest, hrest, List.append_nil, if_pos rfl]
  · rw [(h.full hrest hs.noDrain).1, if_neg]
    intro hsame
    exact hrest (List.self_eq_append_right.mp hsame)

theorem Prints.shows (h : Prints gives added rest st st') (hs : Shows cap st c)
    (hinv : Inv base st') (hmem : cap = none → ¬ Refuses gives) (hok : c.error = 0) :
    Shows cap st' (c.print cap (added ++ rest)) := by
  have hzero : cap = none → st'.s.sError = 0 := by
    intro hnone
    by_contra hne
    exact h.drained (hs.extended.mpr hnone) hne hs.noDrain
  have hfit : cap.fit c.text (added ++ rest) = added := by
    apply Capacity.fit_eq
    · intro hnone
      rcases h.extended (hs.extended.mpr hnone) (hzero hnone) with hrest | hrefuse
      · exact hrest
      · exact absurd hrefuse (hmem hnone)
    · intro n hn
      exact (h.appends.length hs hinv hn).2
    · intro n hn hrest
      obtain ⟨hfree, hle⟩ := h.appends.length hs hinv hn
      have hfull := h.full hrest
      omega
  rw [Content.print, if_neg (not_not.mpr hok), hfit]
  refine h.appends.shows hs ?_
  cases hcap : cap with
  | none => exact hzero hcap
  | some n =>
    have hfixed := hs.fixed_of_some hcap
    have hiff := h.fixed hfixed
    obtain ⟨hfree, hle⟩ := h.appends.length hs hinv hcap
    rw [Capacity.full, List.length_append]
    by_cases hroom : c.text.length + added.length < n
    · rw [if_neg (by simp; omega)]
      exact hiff.mpr (by omega)
    · rw [if_pos (by simp; omega)]
      refine h.nomem hfixed hs.noDrain fun hz => ?_
      have hpos := hiff.mp hz
      omega

theorem Shows.report (hs : Shows cap st c) (r : ℤ) : report st.s r = c.report r := by
  rw [StringBuffers.report, hs.error, Content.report]

theorem TooLong.absurd {n : ℤ} {e : Overrun} (h : TooLong n st e) (hs : Shows cap st c)
    (hinv : Inv base st) (hshort : c.text.length + n + 4096 ≤ intMax) : False := by
  have hlen := hs.length hinv
  have hlong := h.2
  omega

theorem sbufBcat_shows (hinv : Inv base st) (hs : Shows cap st c) (hmem : cap = none → ¬ Refuses gives)
    (buf : List UInt8) (hshort : c.text.length + buf.length + 4096 ≤ intMax) :
    ∃ st', sbufBcat gives buf st = .ok ((c.put cap buf).report 0, st') ∧ Inv base st' ∧
      Shows cap st' (c.put cap buf) := by
  by_cases hok : c.error = 0
  · have hzero : st.s.sError = 0 := hs.error.trans hok
    obtain ⟨⟨r, st'⟩, hput, hinv', hr, added, rest, rfl, hputs⟩ :=
      (putBytes_spec gives buf hinv hzero).exists_ok fun e he => he.absurd hs hinv hshort
    have hs' := hputs.shows hs hinv' hmem hok
    refine ⟨st', ?_, hinv', hs'⟩
    rw [sbufBcat, if_neg (not_not.mpr hzero), hput, ← hs'.report]
    exact congrArg (fun r => Except.ok (r, st')) hr
  · have hne : st.s.sError ≠ 0 := fun hz => hok (hs.error.symm.trans hz)
    refine ⟨st, ?_, hinv, ?_⟩
    · rw [sbufBcat, if_pos hne, Content.put, if_pos hok, Content.report, if_pos hok]
    · rw [Content.put, if_pos hok]
      exact hs

theorem sbufClear_shows (hs : Shows cap st c) : Shows cap (sbufClear st) c.clear :=
  ⟨rfl, rfl, rfl, hs.insection, rfl, hs.noDrain, hs.extended, hs.fixed⟩

theorem sbufBcpy_shows (hinv : Inv base st) (hs : Shows cap st c) (hmem : cap = none → ¬ Refuses gives)
    (buf : List UInt8) (hshort : c.text.length + buf.length + 4096 ≤ intMax) :
    ∃ st', sbufBcpy gives buf st = .ok ((c.clear.put cap buf).report 0, st') ∧ Inv base st' ∧
      Shows cap st' (c.clear.put cap buf) := by
  apply sbufBcat_shows (sbufClear_inv hinv) (sbufClear_shows hs) hmem
  rw [Content.clear, List.length_nil]
  omega

theorem sbufVprintf_shows (hinv : Inv base st) (hs : Shows cap st c)
    (hmem : cap = none → ¬ Refuses gives) (fmt : Formatted) (hconv : fmt.result ≠ -1)
    (hshort : c.text.length + fmt.bytes.length + 4096 ≤ intMax) :
    ∃ st', sbufVprintf gives fmt st = .ok ((c.print cap fmt.bytes).report 0, st') ∧ Inv base st' ∧
      Shows cap st' (c.print cap fmt.bytes) := by
  obtain ⟨bytes, rfl⟩ : ∃ bytes, fmt = .text bytes := by
    cases fmt with
    | failed written => exact absurd rfl hconv
    | text bytes => exact ⟨bytes, rfl⟩
  rw [Formatted.bytes] at hshort ⊢
  by_cases hok : c.error = 0
  · have hzero : st.s.sError = 0 := hs.error.trans hok
    obtain ⟨⟨r, st'⟩, hprint, hinv', hr, added, rest, rfl, hprints⟩ :=
      (sbufVprintf_spec hinv hzero (by omega)).exists_ok
        fun e he => he.absurd hs hinv hshort
    have hs' := hprints.shows hs hinv' hmem hok
    refine ⟨st', ?_, hinv', hs'⟩
    rw [hprint, ← hs'.report]
    exact congrArg (fun r => Except.ok (r, st')) hr
  · have hne : st.s.sError ≠ 0 := fun hz => hok (hs.error.symm.trans hz)
    refine ⟨st, ?_, hinv, ?_⟩
    · rw [sbufVprintf, if_pos hne, Content.print, if_pos hok, Content.report, if_pos hok]
    · rw [Content.print, if_pos hok]
      exact hs

theorem sbufPutc_shows (hinv : Inv base st) (hs : Shows cap st c)
    (hmem : cap = none → ¬ Refuses gives) (byte : UInt8)
    (hshort : c.text.length + 1 + 4096 ≤ intMax) :
    ∃ st', sbufPutc gives byte st = .ok ((c.put cap [byte]).report 0, st') ∧ Inv base st' ∧
      Shows cap st' (c.put cap [byte]) := by
  by_cases hok : c.error = 0
  · have hzero : st.s.sError = 0 := hs.error.trans hok
    obtain ⟨st', hput, hinv', hputs⟩ :=
      (sbufPutByte_spec hinv hzero byte).exists_ok
        fun e he => he.absurd hs hinv hshort
    have hs' : Shows cap st' (c.put cap [byte]) := by
      rcases hputs with hputs | hputs
      · exact hputs.shows hs hinv' hmem hok
      · exact hputs.shows hs hinv' hmem hok
    refine ⟨st', ?_, hinv', hs'⟩
    rw [sbufPutc, hput, ok_bind, ← hs'.report]
    rfl
  · have hne : st.s.sError ≠ 0 := fun hz => hok (hs.error.symm.trans hz)
    refine ⟨st, ?_, hinv, ?_⟩
    · rw [sbufPutc, sbufPutByte, if_pos hne, ok_bind, if_pos hne, Content.put, if_pos hok,
        Content.report, if_pos hok]
    · rw [Content.put, if_pos hok]
      exact hs

theorem sbufTrim_shows (hinv : Inv base st) (hs : Shows cap st c) :
    ∃ st', sbufTrim st = .ok (if c.error ≠ 0 then (-1) else 0, st') ∧ Inv base st' ∧
      Shows cap st' (if c.error ≠ 0 then c else c.trim) := by
  by_cases hok : c.error = 0
  · obtain ⟨htrim, hinv', htext⟩ := sbufTrim_spec hinv (hs.error.trans hok)
    rw [if_neg (not_not.mpr hok), if_neg (not_not.mpr hok)]
    refine ⟨_, htrim, hinv', ?_⟩
    refine ⟨?_, hs.error, hs.finished, hs.insection, ?_, hs.noDrain, hs.extended, hs.fixed⟩
    · rw [htext, hs.text, Content.trim]
    · dsimp only [trimmedTo, Content.trim]
      rw [hs.insection, hs.sectLen, ← hs.length hinv, hs.text]
  · have hne : st.s.sError ≠ 0 := fun hz => hok (hs.error.symm.trans hz)
    rw [if_pos hok, if_pos hok]
    exact ⟨st, by rw [sbufTrim, if_pos hne], hinv, hs⟩

theorem sbufFinish_shows (hinv : Inv base st) (hs : Shows cap st c) :
    ∃ st', sbufFinish st = .ok (c.report 0, st') ∧ Inv base st' ∧
      Shows cap st' { c with finished := true } := by
  obtain ⟨st', hfinish, hinv', hfin⟩ := sbufFinish_spec hinv
  obtain ⟨hw, buf, hs'⟩ := hfin.kept hs.noDrain
  have htext : st'.s.text = st.s.text := by
    have hstream := hfin.stream
    rw [stream, stream, hw] at hstream
    exact List.append_cancel_left hstream
  have hshows : Shows cap st' { c with finished := true } := by
    refine ⟨htext.trans hs.text, ?_, hfin.finished, ?_, ?_, ?_, ?_, ?_⟩
    · rw [hs']
      exact hs.error
    · rw [hs']
      exact hs.insection
    · rw [hs']
      exact hs.sectLen
    · rw [hs']
      exact hs.noDrain
    · rw [hs']
      exact hs.extended
    · rw [hs']
      exact hs.fixed
  refine ⟨st', ?_, hinv', hshows⟩
  rw [hfinish, hshows.report]
  rfl

theorem sbufEndSection_shows (hinv : Inv base st) (hs : Shows cap st c)
    (hmem : cap = none → ¬ Refuses gives) (oldLen : ℤ) (pad : ℕ) (byte : UInt8)
    (hshort : c.text.length + (filler c.sectLen pad byte).length + 4096 ≤ intMax) :
    ∃ st', sbufEndSection gives oldLen pad byte st =
        .ok ((c.put cap (filler c.sectLen pad byte)).report
          (c.put cap (filler c.sectLen pad byte)).sectLen, st') ∧ Inv base st' ∧
      Shows cap st' ((c.put cap (filler c.sectLen pad byte)).endSection oldLen) := by
  obtain ⟨st₁, hpad, hinv₁, hs₁⟩ : ∃ st₁, padSection gives pad byte st = .ok st₁ ∧ Inv base st₁ ∧
      Shows cap st₁ (c.put cap (filler c.sectLen pad byte)) := by
    by_cases hok : c.error = 0
    · have hzero : st.s.sError = 0 := hs.error.trans hok
      rw [← hs.sectLen] at hshort ⊢
      obtain ⟨st₁, hpad, hinv₁, added, rest, hsplit, hputs⟩ :=
        (padSection_spec pad byte hinv hzero).exists_ok
          fun e he => he.absurd hs hinv hshort
      rw [hsplit]
      exact ⟨st₁, hpad, hinv₁, hputs.shows hs hinv₁ hmem hok⟩
    · have hne : st.s.sError ≠ 0 := fun hz => hok (hs.error.symm.trans hz)
      rw [Content.put, if_pos hok]
      exact ⟨st, padSection_of_error pad byte hne, hinv, hs⟩
  rw [sbufEndSection, hpad, ok_bind]
  generalize c.put cap (filler c.sectLen pad byte) = c₁ at hs₁ ⊢
  have hreport := hs₁.report c₁.sectLen
  rw [StringBuffers.report] at hreport
  rw [hs₁.sectLen, Content.endSection]
  by_cases hold : oldLen = -1
  · rw [if_pos hold, if_pos hold]
    refine ⟨⟨{ st₁.s with sSectLen := 0, sFlags := { st₁.s.sFlags with insection := false } }, st₁.w⟩,
      congrArg (fun r => Except.ok (r, _)) hreport,
      hinv₁.keep hinv₁.fits.len_nonneg (Int.le_refl _) rfl rfl rfl rfl rfl rfl, ?_⟩
    exact ⟨hs₁.text, hs₁.error, hs₁.finished, rfl, rfl, hs₁.noDrain, hs₁.extended, hs₁.fixed⟩
  · rw [if_neg hold, if_neg hold]
    refine ⟨⟨{ st₁.s with sSectLen := c₁.sectLen + oldLen }, st₁.w⟩,
      congrArg (fun r => Except.ok (r, _)) hreport,
      hinv₁.keep hinv₁.fits.len_nonneg (Int.le_refl _) rfl rfl rfl rfl rfl rfl, ?_⟩
    exact ⟨hs₁.text, hs₁.error, hs₁.finished, hs₁.insection, rfl, hs₁.noDrain, hs₁.extended,
      hs₁.fixed⟩

theorem perform_shows {op : Op σ} (hinv : Inv base st) (hs : Shows cap st c)
    (hmem : cap = none → ¬ Refuses gives) (hp : Plain op c) :
    ∃ st', perform gives op st = .ok ((meant cap op c).1, st') ∧ Inv base st' ∧
      Shows cap st' (meant cap op c).2 := by
  have hshort := hp.short
  cases op with
  | clear => exact ⟨_, rfl, sbufClear_inv hinv, sbufClear_shows hs⟩
  | setpos pos =>
    have hlen := hs.length hinv
    rw [perform, meant, sbufSetpos, hlen]
    split_ifs with hout
    · exact ⟨st, rfl, hinv, hs⟩
    · refine ⟨⟨{ st.s with sLen := pos }, st.w⟩, rfl,
        hinv.keep (by dsimp only; omega) (by dsimp only; omega) rfl rfl rfl rfl rfl rfl, ?_⟩
      refine ⟨?_, hs.error, hs.finished, hs.insection, hs.sectLen, hs.noDrain, hs.extended, hs.fixed⟩
      rw [← hs.text, Sbuf.text, Sbuf.text, List.take_take, Nat.min_eq_left (by omega)]
  | bcat buf => exact sbufBcat_shows hinv hs hmem buf hshort
  | bcpy buf => exact sbufBcpy_shows hinv hs hmem buf hshort
  | cat str => exact sbufBcat_shows hinv hs hmem str.bytes hshort
  | cpy str => exact sbufBcpy_shows hinv hs hmem str.bytes hshort
  | printf fmt => exact sbufVprintf_shows hinv hs hmem fmt (hp.converted fmt rfl) hshort
  | putc byte => exact sbufPutc_shows hinv hs hmem byte hshort
  | setDrain func =>
    obtain rfl := hp.noDrain func rfl
    refine ⟨_, rfl, sbufSetDrain_inv hinv (fun hne => absurd rfl hne), ?_⟩
    exact ⟨hs.text, hs.error, hs.finished, hs.insection, hs.sectLen, rfl, hs.extended, hs.fixed⟩
  | trim =>
    have htrim := sbufTrim_shows hinv hs
    rw [perform, meant]
    split_ifs at htrim ⊢ with hok
    · exact htrim
    · exact htrim
  | finish => exact sbufFinish_shows hinv hs
  | startSection =>
    have hsect := hs.insection
    rw [perform, meant, sbufStartSection]
    cases hin : c.insection with
    | false =>
      rw [if_pos (hsect.trans hin), if_neg (by decide)]
      exact ⟨_, rfl, hinv.keep hinv.fits.len_nonneg (Int.le_refl _) rfl rfl rfl rfl rfl rfl,
        hs.text, hs.error, hs.finished, rfl, hs.sectLen, hs.noDrain, hs.extended, hs.fixed⟩
    | true =>
      rw [if_neg (by rw [hsect, hin]; decide), if_pos rfl, ← hs.sectLen]
      exact ⟨_, rfl, hinv.keep hinv.fits.len_nonneg (Int.le_refl _) rfl rfl rfl rfl rfl rfl,
        hs.text, hs.error, hs.finished, hsect.trans hin, rfl, hs.noDrain, hs.extended, hs.fixed⟩
  | endSection oldLen pad byte => exact sbufEndSection_shows hinv hs hmem oldLen pad byte hshort

/-- Fixed storage for three bytes, in which two texts meet the end. -/
def threeBytes : State Unit := ⟨initial none ⟨none, [0, 0, 0, 0]⟩ 4 false false, emptyHeap⟩

def overfull : List (Op Unit) :=
  [.printf (.text [97, 98]), .trim, .putc 99, .putc 100, .finish]

theorem threeBytes_inv : Inv [] threeBytes :=
  initial_inv none false (by decide) (by decide) (by decide)
    ⟨List.nodup_nil, fun _ hx => absurd hx List.not_mem_nil⟩ (List.Perm.refl _)

/-- What is seen of a buffer. -/
def Sbuf.content (s : Sbuf σ) : Content :=
  ⟨s.text, s.sError, s.sFlags.finished, s.isSection, s.sSectLen⟩

def Sbuf.capacity (s : Sbuf σ) : Capacity := if s.canExtend then none else some (s.sSize - 1).toNat

theorem shows_content (hinv : Inv base st) (hnone : st.s.sDrainFunc = none) :
    Shows st.s.capacity st st.s.content := by
  have hlen := hinv.fits.len_nonneg
  have hlt := hinv.fits.len_lt
  refine ⟨rfl, rfl, rfl, rfl, rfl, hnone, ?_, fun n hn => ?_⟩
  · rw [Sbuf.capacity]
    split_ifs with hext
    · simp [hext]
    · simp [hext]
  · rw [Sbuf.capacity] at hn
    split_ifs at hn
    cases hn
    omega

theorem Content.report_put (hok : c.error = 0) :
    (c.put cap bytes).report 0 = if cap.fit c.text bytes = bytes then 0 else -1 := by
  rw [Content.report, Content.put, if_neg (not_not.mpr hok)]
  by_cases hfit : cap.fit c.text bytes = bytes
  · rw [if_pos hfit, if_pos hfit]
    rfl
  · rw [if_neg hfit, if_neg hfit]
    rfl

theorem Content.report_print (hok : c.error = 0) : (c.print cap bytes).report 0 =
    if cap.full (c.text ++ cap.fit c.text bytes) then -1 else 0 := by
  rw [Content.report, Content.print, if_neg (not_not.mpr hok)]
  by_cases hfull : cap.full (c.text ++ cap.fit c.text bytes) = true
  · rw [if_pos hfull, if_pos hfull]
    rfl
  · rw [if_neg hfull, if_neg hfull]
    rfl

/-- With `n` bytes left the two results are apart only for a text of `n` bytes. -/
theorem report_put_eq_report_print {n : ℕ} (hok : c.error = 0) (hle : c.text.length ≤ n) :
    (c.put (some n) bytes).report 0 = (c.print (some n) bytes).report 0 ↔
      bytes.length ≠ n - c.text.length := by
  rw [Content.report_put hok, Content.report_print hok, Capacity.fit, Capacity.full, List.length_append,
    List.length_take]
  have htake := List.take_eq_self_iff bytes (n := n - c.text.length)
  rcases Nat.lt_trichotomy bytes.length (n - c.text.length) with hlt | heq | hgt
  · rw [if_pos (htake.mpr (Nat.le_of_lt hlt)), if_neg (by simp; omega)]
    simp [Nat.ne_of_lt hlt]
  · rw [if_pos (htake.mpr (Nat.le_of_eq heq)), if_pos (by simp; omega)]
    simp [heq]
  · rw [if_neg (fun h => Nat.not_le.mpr hgt (htake.mp h)), if_pos (by simp; omega)]
    simp [Nat.ne_of_gt hgt]

end Steps

end OpenXPC.StringBuffers
