import Mathlib.Data.Int.Notation
import Mathlib.Data.List.TakeWhile
import Mathlib.Logic.Function.Basic
import OpenXPC.Objects

/-! # The buffers of the log

A buffer is a part of the stack that goes on at both ends, so that an access beyond
it has a meaning. `snprintf` and `vsnprintf` return the length of the whole text. -/
namespace OpenXPC.Logging

/-- The bytes from the start of a buffer, and the offsets that have been accessed. -/
structure Buffer where
  bytes : ℤ → UInt8
  accessed : List ℤ

namespace Buffer

def store (b : Buffer) (i : ℤ) (c : UInt8) : Buffer :=
  ⟨Function.update b.bytes i c, i :: b.accessed⟩

def load (b : Buffer) (i : ℤ) : UInt8 × Buffer := (b.bytes i, { b with accessed := i :: b.accessed })

def storeAll (b : Buffer) (i : ℤ) : List UInt8 → Buffer
  | [] => b
  | c :: cs => storeAll (b.store i c) (i + 1) cs

/-- As much of the text as there is room for, and a terminator. -/
def snprintf (b : Buffer) (start : ℤ) (size : ℕ) (text : List UInt8) : Buffer × ℕ :=
  (if size = 0 then b else b.storeAll start (text.take (size - 1) ++ [0]), text.length)

/-- The first `n` bytes. -/
def text (b : Buffer) (n : ℕ) : List UInt8 := (List.range n).map (fun k : ℕ => b.bytes k)

end Buffer

def lineMax : ℕ := 2048

/-- The loop of `expand_percentm`, over the rest of `fmtin`; `error` is the text that
`strerror` gives. -/
def expandLoop (error : CString) : List UInt8 → Buffer → ℕ → Buffer × ℕ
  | [], b, fmtout => (b, fmtout)
  | c :: fmtin, b, fmtout =>
    if fmtout < lineMax then
      match fmtin with
      | [] => expandLoop error [] (b.store fmtout c) (fmtout + 1)
      | d :: fmtin =>
        if c = 37 ∧ d = 109 then
          let (b, n) := b.snprintf fmtout (lineMax - fmtout) error.bytes
          expandLoop error fmtin b (fmtout + n)
        else expandLoop error (d :: fmtin) (b.store fmtout c) (fmtout + 1)
    else (b, fmtout)

/-- The cursor is returned too: the string in the buffer ends before it. -/
def expandPercentm (error fmtin : CString) (fmtout : Buffer) : Buffer × ℕ :=
  let (b, cursor) := expandLoop error fmtin.bytes fmtout 0
  (b.store cursor 0, cursor)

/-- The newline at the end of a message is overwritten. -/
def stripNewline (buffer : Buffer) (siz : ℕ) : Buffer :=
  let (c, buffer) := buffer.load (siz - 1)
  if c = 10 then buffer.store (siz - 1) 0 else buffer

/-- The two buffers as `ldr_logv` leaves them. `format` is the text that the arguments
give for a format string. -/
def ldrLogv (error fmt : CString) (format : List UInt8 → List UInt8) (fmtcpy buffer : Buffer) :
    Buffer × Buffer :=
  let (fmtcpy, cursor) := expandPercentm error fmt fmtcpy
  let (buffer, siz) := buffer.snprintf 0 (lineMax - 1)
    (format ((fmtcpy.text cursor).takeWhile (· ≠ 0)))
  (fmtcpy, stripNewline buffer siz)

/-- The format with the error in the place of each `%m`. -/
def expansion (error : CString) : List UInt8 → List UInt8
  | [] => []
  | c :: fmtin =>
    match fmtin with
    | [] => [c]
    | d :: fmtin =>
      if c = 37 ∧ d = 109 then error.bytes ++ expansion error fmtin
      else c :: expansion error (d :: fmtin)

def InBounds (b : Buffer) : Prop := ∀ i ∈ b.accessed, 0 ≤ i ∧ i < lineMax

/-- A string is read up to its terminator, which stands in the buffer. -/
def Terminated (b : Buffer) : Prop := ∃ i : ℤ, 0 ≤ i ∧ i < lineMax ∧ b.bytes i = 0

/-- All accesses are within the buffers. `vsnprintf` reads the copy of the format as a
string, and so does `log_output` the message. -/
def StaysInside (error fmt : CString) (format : List UInt8 → List UInt8) (fmtcpy buffer : ℤ → UInt8) :
    Prop :=
  let (fmtcpy, buffer) := ldrLogv error fmt format ⟨fmtcpy, []⟩ ⟨buffer, []⟩
  InBounds fmtcpy ∧ Terminated fmtcpy ∧ InBounds buffer ∧ Terminated buffer

section Buffers

variable {b : Buffer} {i j : ℤ} {c : UInt8} {cs ds : List UInt8} {n : ℕ}

theorem storeAll_append (b : Buffer) (i : ℤ) (cs ds : List UInt8) :
    b.storeAll i (cs ++ ds) = (b.storeAll i cs).storeAll (i + cs.length) ds := by
  induction cs generalizing b i with
  | nil => simp [Buffer.storeAll]
  | cons c cs ih =>
    have hnext : i + 1 + (cs.length : ℤ) = i + ((cs.length + 1 : ℕ) : ℤ) := by omega
    rw [List.cons_append, Buffer.storeAll, ih, Buffer.storeAll, List.length_cons, hnext]

theorem accessed_storeAll : j ∈ (b.storeAll i cs).accessed ↔
    (i ≤ j ∧ j < i + cs.length) ∨ j ∈ b.accessed := by
  induction cs generalizing b i with
  | nil =>
    have hnone : ¬ (i ≤ j ∧ j < i + (([] : List UInt8).length : ℤ)) := by
      rw [List.length_nil]
      omega
    rw [or_iff_right hnone, Buffer.storeAll]
  | cons c cs ih =>
    have hfirst : (i ≤ j ∧ j < i + ((c :: cs).length : ℤ)) ↔
        (i + 1 ≤ j ∧ j < i + 1 + (cs.length : ℤ)) ∨ j = i := by
      rw [List.length_cons]
      omega
    rw [Buffer.storeAll, ih, Buffer.store, List.mem_cons, hfirst, or_assoc]

theorem text_succ (b : Buffer) (n : ℕ) : b.text (n + 1) = b.text n ++ [b.bytes n] := by
  simp [Buffer.text, List.range_succ]

/-- A terminator is not removed by another one. -/
theorem bytes_store_zero (hj : b.bytes j = 0) : (b.store i 0).bytes j = 0 := by
  change Function.update b.bytes i 0 j = 0
  rw [Function.update_apply, hj, ite_self]

/-- A store behind a text. -/
theorem text_store (hn : (n : ℤ) ≤ i) : (b.store i c).text n = b.text n := by
  apply List.map_congr_left
  intro k hk
  have hlt := List.mem_range.mp hk
  exact Function.update_of_ne (by omega) _ _

theorem text_storeAll_of_le (hn : (n : ℤ) ≤ i) : (b.storeAll i cs).text n = b.text n := by
  induction cs generalizing b i with
  | nil => rfl
  | cons c cs ih => rw [Buffer.storeAll, ih (by omega), text_store hn]

theorem text_storeAll (b : Buffer) (n : ℕ) (cs : List UInt8) :
    (b.storeAll n cs).text (n + cs.length) = b.text n ++ cs := by
  induction cs generalizing b n with
  | nil => simp [Buffer.storeAll]
  | cons c cs ih =>
    have hstep := ih (b.store n c) (n + 1)
    rw [text_succ, text_store (Int.le_refl _)] at hstep
    have hlast : (b.store n c).bytes n = c := Function.update_self ..
    rw [Buffer.storeAll, List.length_cons, ← Nat.add_assoc, Nat.add_right_comm]
    simpa [hlast] using hstep

end Buffers

section Expanding

variable {error : CString} {fmtin : List UInt8} {b b' : Buffer} {fmtout : ℕ}

/-- What has been added to a buffer of which `n` bytes were in use. -/
structure Appends (b b' : Buffer) (n : ℕ) (added : List UInt8) : Prop where
  text : b'.text (n + added.length) = b.text n ++ added
  inBounds : ∀ j ∈ b'.accessed, j ∈ b.accessed ∨ (0 ≤ j ∧ j < lineMax)

theorem Appends.refl (b : Buffer) (n : ℕ) : Appends b b n [] :=
  ⟨by simp, fun _ hj => .inl hj⟩

theorem Appends.trans {b'' : Buffer} {n : ℕ} {cs ds : List UInt8} (h₁ : Appends b b' n cs)
    (h₂ : Appends b' b'' (n + cs.length) ds) : Appends b b'' n (cs ++ ds) := by
  constructor
  · rw [List.length_append, ← Nat.add_assoc, h₂.text, h₁.text, List.append_assoc]
  · intro j hj
    rcases h₂.inBounds j hj with hj | hj
    · exact h₁.inBounds j hj
    · exact .inr hj

theorem appends_store {n : ℕ} (hn : n < lineMax) (c : UInt8) : Appends b (b.store n c) n [c] := by
  constructor
  · exact text_storeAll b n [c]
  · intro j hj
    rcases List.mem_cons.mp hj with rfl | hj
    · exact .inr (by omega)
    · exact .inl hj

/-- A text that fits with its terminator. -/
theorem appends_snprintf {n : ℕ} {cs : List UInt8} (hn : n + cs.length < lineMax) :
    Appends b (b.snprintf n (lineMax - n) cs).1 n cs := by
  have hsize : lineMax - n ≠ 0 := by omega
  have hfits : cs.length ≤ lineMax - n - 1 := by omega
  rw [Buffer.snprintf, if_neg hsize, List.take_of_length_le hfits]
  constructor
  · rw [storeAll_append, text_storeAll_of_le (by simp), text_storeAll]
  · intro j hj
    rcases accessed_storeAll.mp hj with hj | hj
    · rw [List.length_append, List.length_singleton] at hj
      exact .inr (by omega)
    · exact .inl hj

/-- An expansion that fits is written where the cursor stands. -/
theorem expandLoop_ok (hfits : fmtout + (expansion error fmtin).length < lineMax) :
    ∃ b', expandLoop error fmtin b fmtout = (b', fmtout + (expansion error fmtin).length) ∧
      Appends b b' fmtout (expansion error fmtin) := by
  fun_induction expandLoop error fmtin b fmtout with
  | case1 b fmtout => exact ⟨b, rfl, .refl b fmtout⟩
  | case2 c b fmtout hlt ih =>
    have hfits' : fmtout + 1 + (expansion error []).length < lineMax := hfits
    obtain ⟨b', hloop, happends⟩ := ih hfits'
    exact ⟨b', hloop, (appends_store hlt c).trans happends⟩
  | case3 c b fmtout hlt d fmtin hm b₁ n hprint ih =>
    simp only [expansion, if_pos hm, List.length_append] at hfits ⊢
    obtain ⟨rfl, rfl⟩ := Prod.mk.inj hprint
    obtain ⟨b', hloop, happends⟩ := ih (by omega)
    refine ⟨b', by rw [hloop, Nat.add_assoc], ?_⟩
    exact (appends_snprintf (by omega)).trans happends
  | case4 c b fmtout hlt d fmtin hm ih =>
    have hstep : expansion error (c :: d :: fmtin) = c :: expansion error (d :: fmtin) := by
      rw [expansion, if_neg hm]
    rw [hstep, List.length_cons] at hfits
    obtain ⟨b', hloop, happends⟩ := ih (by omega)
    refine ⟨b', by rw [hloop, hstep, List.length_cons, Nat.add_right_comm, Nat.add_assoc], ?_⟩
    rw [hstep]
    exact (appends_store hlt c).trans happends
  | case5 c fmtin b fmtout hge => omega

/-- Of any other expansion the cursor ends up beyond the buffer. -/
theorem expandLoop_overflows (hlong : lineMax ≤ fmtout + (expansion error fmtin).length) :
    lineMax ≤ (expandLoop error fmtin b fmtout).2 := by
  fun_induction expandLoop error fmtin b fmtout with
  | case1 b fmtout => exact hlong
  | case2 c b fmtout hlt ih => exact ih hlong
  | case3 c b fmtout hlt d fmtin hm b₁ n hprint ih =>
    simp only [expansion, if_pos hm, List.length_append] at hlong
    obtain ⟨rfl, rfl⟩ := Prod.mk.inj hprint
    exact ih (by omega)
  | case4 c b fmtout hlt d fmtin hm ih =>
    rw [expansion, if_neg hm, List.length_cons] at hlong
    exact ih (by omega)
  | case5 c fmtin b fmtout hge => exact Nat.not_lt.mp hge

theorem zero_notMem_expansion (hfmt : 0 ∉ fmtin) : 0 ∉ expansion error fmtin := by
  fun_induction expansion error fmtin with
  | case1 => exact hfmt
  | case2 c => exact hfmt
  | case3 c d fmtin hm ih =>
    simp only [List.mem_cons, not_or] at hfmt
    exact fun h => (List.mem_append.mp h).elim error.noNul (ih hfmt.2.2)
  | case4 c d fmtin hm ih =>
    rw [List.mem_cons, not_or] at hfmt
    exact fun h => (List.mem_cons.mp h).elim hfmt.1 (ih hfmt.2)

/-- The string goes as far as the expansion. -/
theorem takeWhile_expansion (error fmt : CString) :
    (expansion error fmt.bytes).takeWhile (· ≠ 0) = expansion error fmt.bytes := by
  rw [List.takeWhile_eq_self_iff]
  intro c hc
  have hne : c ≠ 0 := fun h => zero_notMem_expansion fmt.noNul (h ▸ hc)
  simpa using hne

theorem expansion_of_notMem (hfmt : 37 ∉ fmtin) : expansion error fmtin = fmtin := by
  fun_induction expansion error fmtin with
  | case1 => rfl
  | case2 c => rfl
  | case3 c d fmtin hm ih => exact absurd (List.mem_cons.mpr (.inl hm.1.symm)) hfmt
  | case4 c d fmtin hm ih => rw [ih (fun h => hfmt (List.mem_cons_of_mem c h))]

end Expanding

section Logged

variable {error fmt : CString} {b : Buffer}

/-- The terminator is stored in the buffer if the expansion fits, behind it. -/
theorem expandPercentm_ok (hfits : (expansion error fmt.bytes).length < lineMax) :
    ∃ b', expandPercentm error fmt b = (b', (expansion error fmt.bytes).length) ∧
      b'.text (expansion error fmt.bytes).length = expansion error fmt.bytes ∧
      b'.bytes (expansion error fmt.bytes).length = 0 ∧
      ∀ j ∈ b'.accessed, j ∈ b.accessed ∨ (0 ≤ j ∧ j < lineMax) := by
  obtain ⟨b', hloop, happends⟩ := @expandLoop_ok error fmt.bytes b 0 (by rwa [Nat.zero_add])
  have hend := happends.trans (appends_store (by rwa [Nat.zero_add]) 0)
  rw [Nat.zero_add] at hloop hend
  refine ⟨b'.store (expansion error fmt.bytes).length 0, ?_, ?_, ?_, hend.inBounds⟩
  · rw [expandPercentm, hloop]
  · rw [text_store (Int.le_refl _)]
    simpa [Buffer.text] using happends.text
  · exact Function.update_self ..

theorem expandPercentm_overflows (hlong : lineMax ≤ (expansion error fmt.bytes).length) :
    ¬ InBounds (expandPercentm error fmt b).1 := by
  intro hin
  have hcursor := @expandLoop_overflows error fmt.bytes b 0 (by rwa [Nat.zero_add])
  have hlt := (hin _ List.mem_cons_self).2
  omega

theorem mem_accessed_stripNewline {siz : ℕ} {j : ℤ} :
    j ∈ (stripNewline b siz).accessed ↔ j = siz - 1 ∨ j ∈ b.accessed := by
  unfold stripNewline
  dsimp only [Buffer.load]
  split_ifs <;> simp [Buffer.store]

/-- What does not fit is cut off; the last character is looked at where it would stand. -/
theorem inBounds_message (text : List UInt8) (buffer : ℤ → UInt8) :
    InBounds (stripNewline ((Buffer.mk buffer []).snprintf 0 (lineMax - 1) text).1 text.length) ↔
      1 ≤ text.length ∧ text.length ≤ lineMax := by
  have hstored : ∀ j, j ∈ ((Buffer.mk buffer []).snprintf 0 (lineMax - 1) text).1.accessed →
      0 ≤ j ∧ j < lineMax := by
    intro j hj
    rw [Buffer.snprintf, if_neg (by decide)] at hj
    rcases accessed_storeAll.mp hj with hj | hj
    · rw [List.length_append, List.length_take, List.length_singleton] at hj
      have hmax : lineMax = 2048 := rfl
      omega
    · cases hj
  constructor
  · intro hin
    have hlast := hin _ (mem_accessed_stripNewline.mpr (.inl rfl))
    omega
  · intro hlen j hj
    rcases mem_accessed_stripNewline.mp hj with rfl | hj
    · omega
    · exact hstored j hj

/-- `vsnprintf` terminates what it has cut off too, and a newline is replaced by another
terminator. -/
theorem terminated_message (text : List UInt8) (buffer : ℤ → UInt8) :
    Terminated (stripNewline ((Buffer.mk buffer []).snprintf 0 (lineMax - 1) text).1 text.length) := by
  have hmax : lineMax = 2048 := rfl
  have hend : ((Buffer.mk buffer []).snprintf 0 (lineMax - 1) text).1.bytes
      (text.take (lineMax - 1 - 1)).length = 0 := by
    rw [Buffer.snprintf, if_neg (by decide), storeAll_append, Int.zero_add]
    exact Function.update_self ..
  refine ⟨(text.take (lineMax - 1 - 1)).length, Int.natCast_nonneg _, ?_, ?_⟩
  · rw [List.length_take]
    omega
  · unfold stripNewline
    dsimp only [Buffer.load]
    split_ifs
    · exact bytes_store_zero hend
    · exact hend

theorem StaysInside.copy {format : List UInt8 → List UInt8} {fmtcpy buffer : ℤ → UInt8}
    (hstays : StaysInside error fmt format fmtcpy buffer) :
    InBounds (expandPercentm error fmt ⟨fmtcpy, []⟩).1 := hstays.1

/-- The buffers are not left exactly when the expanded format is shorter than its buffer,
and the message is not empty and no longer than its own. -/
theorem staysInside_iff (error fmt : CString) (format : List UInt8 → List UInt8)
    (fmtcpy buffer : ℤ → UInt8) : StaysInside error fmt format fmtcpy buffer ↔
      (expansion error fmt.bytes).length < lineMax ∧
        1 ≤ (format (expansion error fmt.bytes)).length ∧
        (format (expansion error fmt.bytes)).length ≤ lineMax := by
  by_cases hfits : (expansion error fmt.bytes).length < lineMax
  · obtain ⟨b', hexpand, htext, hzero, haccessed⟩ :=
      expandPercentm_ok (b := ⟨fmtcpy, []⟩) hfits
    have hstring : (b'.text (expansion error fmt.bytes).length).takeWhile (· ≠ 0) =
        expansion error fmt.bytes := by rw [htext, takeWhile_expansion]
    have hin : InBounds b' := fun j hj => (haccessed j hj).resolve_left List.not_mem_nil
    have hmessage := inBounds_message (format (expansion error fmt.bytes)) buffer
    simp only [StaysInside, ldrLogv, hexpand, hstring]
    constructor
    · exact fun hstays => ⟨hfits, hmessage.mp hstays.2.2.1⟩
    · intro h
      exact ⟨hin, ⟨_, Int.natCast_nonneg _, by omega, hzero⟩, hmessage.mpr h.2,
        terminated_message _ buffer⟩
  · refine iff_of_false (fun hstays => ?_) (fun h => hfits h.1)
    exact expandPercentm_overflows (Nat.not_lt.mp hfits) hstays.copy

end Logged

/-- As many characters as the buffer has bytes. -/
def longFormat : CString := ⟨List.replicate lineMax 97, fun h => by simp at h⟩

/-- An empty message has no last character, and a format as long as the buffer is
terminated behind it. -/
theorem empty_and_long_formats_leave :
    ¬ StaysInside keyK ⟨[], List.not_mem_nil⟩ id (fun _ => 0) (fun _ => 0) ∧
      ¬ StaysInside keyK longFormat id (fun _ => 0) (fun _ => 0) := by
  constructor
  · intro hstays
    exact absurd (hstays.2.2.1 (-1) (mem_accessed_stripNewline.mpr (.inl rfl))).1 (by decide)
  · have hno : 37 ∉ longFormat.bytes := fun h => by simp [longFormat] at h
    refine mt StaysInside.copy (expandPercentm_overflows ?_)
    rw [expansion_of_notMem hno]
    simp [longFormat]

end OpenXPC.Logging
