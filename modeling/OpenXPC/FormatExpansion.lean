import OpenXPC.Formats
import OpenXPC.Logging
import OpenXPC.WordEquations

/-! # The meaning of an expanded format

`expand_percentm` looks for `%m` at every byte, also at the second percent sign of an
escape, and what it puts there is read again as part of the format. -/
namespace OpenXPC.FormatExpansion
open Formats Logging WordEquations

/-- The `%m` conversion. -/
def errorConversion : Directive := .conversion [] 109

/-- The error text stands for itself. -/
def meaning (error : List UInt8) (d : Directive) : List Directive :=
  if d = errorConversion then error.map .char else [d]

/-- The string that `expand_percentm` leaves in its buffer. -/
def expanded (error fmt : CString) (fmtcpy : Buffer) : List UInt8 :=
  let (fmtcpy, cursor) := expandPercentm error fmt fmtcpy
  (fmtcpy.text cursor).takeWhile (· ≠ 0)

theorem expanded_eq {error fmt : CString} {fmtcpy : Buffer}
    (hfits : (expansion error fmt.bytes).length < lineMax) :
    expanded error fmt fmtcpy = expansion error fmt.bytes := by
  obtain ⟨b', hexpand, htext, -⟩ := expandPercentm_ok (b := fmtcpy) hfits
  simp only [expanded, hexpand, htext, takeWhile_expansion]

/-! ## The pieces that the scanner sees -/

/-- An escaped percent sign with an `m` behind it, a conversion `%m`, and any other text. -/
inductive Piece
  | escapedM
  | errorM
  | other (text : List UInt8)
  deriving DecidableEq

def Piece.expanded (error : List UInt8) : Piece → List UInt8
  | .escapedM => percent :: error
  | .errorM => error
  | .other text => text

def Piece.meant (error : List UInt8) : Piece → List UInt8
  | .escapedM => [percent, percent, 109]
  | .errorM => escaped error
  | .other text => text

def pieces : List Directive → List Piece
  | [] => []
  | .char c :: .char d :: ds =>
    if c = percent ∧ d = 109 then .escapedM :: pieces ds
    else .other (Directive.char c).render :: pieces (.char d :: ds)
  | d :: ds => (if d = errorConversion then .errorM else .other d.render) :: pieces ds

variable {error : CString} {e : List UInt8} {g : Grammar} {d : Directive} {ds : List Directive}
  {c : UInt8} {cs w : List UInt8} {ps : List Piece}

section Scanning

theorem expansion_cons (hc : c = percent → cs.head? ≠ some 109) :
    expansion error (c :: cs) = c :: expansion error cs := by
  cases cs with
  | nil => rfl
  | cons d cs =>
    rw [expansion, if_neg]
    intro h
    exact hc h.1 (congrArg some h.2)

theorem expansion_append (hw : percent ∉ w) :
    expansion error (w ++ cs) = w ++ expansion error cs := by
  induction w with
  | nil => rfl
  | cons c w ih =>
    rw [List.mem_cons, not_or] at hw
    rw [List.cons_append, expansion_cons (fun h => absurd h.symm hw.1), ih hw.2, List.cons_append]

theorem expansion_errorM : expansion error (percent :: 109 :: cs) = error.bytes ++ expansion error cs := by
  rw [expansion, if_pos ⟨rfl, rfl⟩]

/-- Of an escape the scanner takes the second percent sign for a first one. -/
theorem expansion_escapedM : expansion error (percent :: percent :: 109 :: cs) =
    percent :: error.bytes ++ expansion error cs := by
  rw [expansion_cons (by simp [percent]), expansion_errorM, List.cons_append]

theorem expansion_char (hc : c = percent → cs.head? ≠ some 109) :
    expansion error ((Directive.char c).render ++ cs) =
      (Directive.char c).render ++ expansion error cs := by
  rw [Directive.render]
  split_ifs with hp
  · subst hp
    change expansion error (percent :: percent :: cs) = _
    rw [expansion_cons (by simp [percent]), expansion_cons hc]
    rfl
  · exact expansion_cons hc

theorem head_modifiers {ms : List UInt8} {s : UInt8} (hm : g.specifier 109 = true)
    (hms : ∀ c ∈ ms, g.modifier c = true) (hne : .conversion ms s ≠ errorConversion) :
    (ms ++ s :: cs).head? ≠ some 109 := by
  cases ms with
  | nil =>
    intro h
    apply hne
    rw [Option.some.inj h]
    rfl
  | cons c ms =>
    intro h
    have hc := hms c List.mem_cons_self
    rw [Option.some.inj h, g.disjoint 109 hm] at hc
    cases hc

theorem expansion_conversion {ms : List UInt8} {s : UInt8} (hm : g.specifier 109 = true)
    (hd : (Directive.conversion ms s).Valid g) (hne : .conversion ms s ≠ errorConversion) :
    expansion error ((Directive.conversion ms s).render ++ cs) =
      (Directive.conversion ms s).render ++ expansion error cs := by
  have hmodifiers : percent ∉ ms ++ [s] := by
    intro hmem
    rcases List.mem_append.mp hmem with hmem | hmem
    · have hp := hd.1 percent hmem
      rw [g.percent_not_modifier] at hp
      cases hp
    · have hp := hd.2
      rw [← List.mem_singleton.mp hmem, g.percent_not_specifier] at hp
      cases hp
  have hhead : ((ms ++ [s]) ++ cs).head? ≠ some 109 := by
    rw [List.append_assoc]
    exact head_modifiers hm hd.1 hne
  change expansion error (percent :: ((ms ++ [s]) ++ cs)) = _
  rw [expansion_cons (fun _ => hhead), expansion_append hmodifiers]
  rfl

theorem expansion_render (hm : g.specifier 109 = true) (hds : ∀ d ∈ ds, d.Valid g) :
    expansion error (render ds) = (pieces ds).flatMap (Piece.expanded error.bytes) := by
  fun_induction pieces ds with
  | case1 => rfl
  | case2 c d ds hcd ih =>
    obtain ⟨rfl, rfl⟩ := hcd
    rw [List.forall_mem_cons, List.forall_mem_cons] at hds
    rw [List.flatMap_cons, ← ih hds.2.2]
    exact expansion_escapedM
  | case3 c d ds hcd ih =>
    rw [List.forall_mem_cons] at hds
    rw [render_cons, List.flatMap_cons, ← ih hds.2, expansion_char]
    · rfl
    · intro hc h
      have hd : d ≠ 109 := fun hd => hcd ⟨hc, hd⟩
      rw [render_cons, Directive.render] at h
      split_ifs at h
      · cases h
      · exact hd (Option.some.inj h)
  | case4 d ds hother ih =>
    rw [List.forall_mem_cons] at hds
    rw [render_cons, List.flatMap_cons, ← ih hds.2]
    split_ifs with hd
    · rw [hd]
      exact expansion_errorM
    · cases d with
      | conversion ms s => exact expansion_conversion hm hds.1 hd
      | char c =>
        apply expansion_char
        intro _ h
        cases ds with
        | nil => cases h
        | cons d' ds =>
          cases d' with
          | char c' => exact hother c c' ds rfl rfl
          | conversion ms s => cases h

theorem render_meaning : render (ds.flatMap (meaning e)) = (pieces ds).flatMap (Piece.meant e) := by
  fun_induction pieces ds with
  | case1 => rfl
  | case2 c d ds hcd ih =>
    obtain ⟨rfl, rfl⟩ := hcd
    simp only [List.flatMap_cons, ← ih]
    rfl
  | case3 c d ds hcd ih =>
    simp only [List.flatMap_cons] at ih ⊢
    rw [← ih]
    rfl
  | case4 d ds hother ih =>
    rw [List.flatMap_cons, List.flatMap_cons, ← ih, meaning]
    split_ifs with hd
    · exact List.flatMap_append
    · rfl

theorem errorM_mem : .errorM ∈ pieces ds ↔ errorConversion ∈ ds := by
  fun_induction pieces ds with
  | case1 => simp
  | case2 c d ds hcd ih => simp [ih, errorConversion]
  | case3 c d ds hcd ih => simp [ih, errorConversion]
  | case4 d ds hother ih =>
    split_ifs with hd
    · simp [hd]
    · simp [ih, Ne.symm hd]

theorem escapedM_mem : .escapedM ∈ pieces ds ↔ [.char percent, .char 109] <:+: ds := by
  fun_induction pieces ds with
  | case1 => simp
  | case2 c d ds hcd ih =>
    obtain ⟨rfl, rfl⟩ := hcd
    exact iff_of_true List.mem_cons_self ⟨[], ds, rfl⟩
  | case3 c d ds hcd ih =>
    have hprefix : ¬ [.char percent, .char 109] <+: .char c :: .char d :: ds := by
      intro h
      simp only [List.cons_prefix_cons, Directive.char.injEq] at h
      exact hcd ⟨h.1.symm, h.2.1.symm⟩
    rw [List.infix_cons_iff, ← ih, or_iff_right hprefix]
    simp
  | case4 d ds hother ih =>
    have hprefix : ¬ [.char percent, .char 109] <+: d :: ds := by
      intro h
      obtain ⟨rest, hrest⟩ := h
      obtain ⟨hd, hds⟩ := List.cons.inj hrest
      exact hother percent 109 rest hd.symm hds.symm
    rw [List.infix_cons_iff, ← ih, or_iff_right hprefix]
    split_ifs <;> simp

end Scanning

/-! ## Where the two images agree -/

section Images

theorem expanded_eq_meant {t : Piece} (ha : t ≠ .escapedM) (hb : t ≠ .errorM) :
    t.expanded e = t.meant e := by
  cases t with
  | escapedM => exact absurd rfl ha
  | errorM => exact absurd rfl hb
  | other text => rfl

theorem balance (heq : ps.flatMap (Piece.expanded e) = ps.flatMap (Piece.meant e))
    (p : UInt8 → Bool) :
    ps.count .escapedM * [percent, percent, 109].countP p +
        ps.count .errorM * (escaped e).countP p =
      ps.count .escapedM * (percent :: e).countP p + ps.count .errorM * e.countP p :=
  countP_eq_of_flatMap_eq (by decide) (fun _ => expanded_eq_meant) heq p

/-- The percent signs of the two images. -/
theorem balance_percent (heq : ps.flatMap (Piece.expanded e) = ps.flatMap (Piece.meant e)) :
    ps.count .escapedM + ps.count .errorM * e.count percent =
      ps.count .escapedM * e.count percent := by
  have h := balance heq (· == percent)
  have hleft : [percent, percent, 109].countP (· == percent) = 2 := by decide
  have hright : (percent :: e).countP (· == percent) = e.count percent + 1 := by simp [List.count]
  rw [hleft, hright, countP_escaped, if_pos (beq_self_eq_true percent)] at h
  change _ * 2 + _ * (e.count percent + e.count percent) = _ + _ * e.count percent at h
  rw [Nat.mul_add, Nat.mul_add] at h
  omega

/-- The other letters. -/
theorem count_of_ne (heq : ps.flatMap (Piece.expanded e) = ps.flatMap (Piece.meant e))
    (hescaped : .escapedM ∈ ps) (hc : c ≠ percent) : e.count c = if c = 109 then 1 else 0 := by
  have h := balance heq (· == c)
  have hleft : [percent, percent, 109].countP (· == c) = if c = 109 then 1 else 0 := by
    by_cases hm : c = 109
    · rw [hm]
      decide
    · simp [Ne.symm hc, Ne.symm hm, hm]
  have hright : (percent :: e).countP (· == c) = e.count c := by
    simp [Ne.symm hc, List.count]
  have hmeant : (escaped e).countP (· == c) = e.countP (· == c) := by
    rw [countP_escaped, if_neg (by simpa using Ne.symm hc), Nat.add_zero]
  rw [hleft, hright, hmeant] at h
  exact (Nat.eq_of_mul_eq_mul_left (List.count_pos_iff.mpr hescaped) (Nat.add_right_cancel h)).symm

/-- One `m` between percent signs. -/
theorem shape_of_images_eq (heq : ps.flatMap (Piece.expanded e) = ps.flatMap (Piece.meant e))
    (hescaped : .escapedM ∈ ps) : ∃ before behind, e = before ++ 109 :: behind ∧
      (∀ c ∈ before, c = percent) ∧ ∀ c ∈ behind, c = percent := by
  have hcount := fun c hc => count_of_ne (c := c) heq hescaped hc
  have hone : e.count 109 = 1 := hcount 109 (by decide)
  obtain ⟨before, behind, he, hbefore⟩ :=
    List.eq_append_cons_of_mem (List.count_pos_iff.mp (by omega : 0 < e.count 109))
  have hbehind : 109 ∉ behind := by
    rw [he, List.count_append, List.count_cons_self] at hone
    exact List.count_eq_zero.mp (by omega)
  have hpercent : ∀ c ∈ e, c ≠ 109 → c = percent := by
    intro c hc hm
    by_contra hne
    have hzero := hcount c hne
    rw [if_neg hm] at hzero
    exact List.count_eq_zero.mp hzero hc
  refine ⟨before, behind, he, fun c hc => ?_, fun c hc => ?_⟩
  · apply hpercent c
    · rw [he]
      exact List.mem_append_left _ hc
    · exact fun h => hbefore (h ▸ hc)
  · apply hpercent c
    · rw [he]
      exact List.mem_append_right _ (List.mem_cons_of_mem _ hc)
    · exact fun h => hbehind (h ▸ hc)

theorem notMem_of_percent (hw : ∀ c ∈ w, c = percent) : 109 ∉ w := by
  intro h
  exact absurd (hw 109 h) (by decide)

/-- Percent signs are written twice. -/
theorem eq_nil_of_escaped (hw : ∀ c ∈ w, c = percent) (heq : w = escaped w) : w = [] := by
  have hlen := countP_escaped (w := w) (· == percent)
  have hcount : w.countP (· == percent) = w.length :=
    List.countP_eq_length.mpr (fun c hc => by simp [hw c hc])
  rw [← heq, if_pos (beq_self_eq_true percent)] at hlen
  change _ = w.countP (· == percent) + w.countP (· == percent) at hlen
  rw [hcount] at hlen
  exact List.eq_nil_of_length_eq_zero (by omega)

theorem escaped_append_m (before behind : List UInt8) :
    escaped (before ++ 109 :: behind) = escaped before ++ 109 :: escaped behind := by
  rw [escaped_append]
  rfl

section Shape

variable {before behind r r' : List UInt8} {t : Piece}

theorem eq_of_escaped (hbefore : ∀ c ∈ before, c = percent)
    (heq : before ++ 109 :: r = escaped before ++ 109 :: r') : before = [] := by
  have hm := notMem_of_percent hbefore
  exact eq_nil_of_escaped hbefore (eq_of_append_cons_eq hm (fun h => hm (mem_escaped.mp h)) heq)

/-- The text up to its `m`, at the first piece whose images differ. -/
theorem before_of_images (hbefore : ∀ c ∈ before, c = percent)
    (hne : t.expanded (before ++ 109 :: behind) ≠ t.meant (before ++ 109 :: behind))
    (heq : t.expanded (before ++ 109 :: behind) ++ r = t.meant (before ++ 109 :: behind) ++ r') :
    before = [] ∨ before = [percent] := by
  cases t with
  | other text => exact absurd rfl hne
  | escapedM =>
    have hwords : (percent :: before) ++ 109 :: (behind ++ r) = [percent, percent] ++ 109 :: r' := by
      simpa [Piece.expanded, Piece.meant] using heq
    have hm : 109 ∉ percent :: before :=
      List.not_mem_cons_of_ne_of_not_mem (by decide) (notMem_of_percent hbefore)
    exact .inr (List.cons.inj (eq_of_append_cons_eq hm (by decide) hwords)).2
  | errorM =>
    rw [Piece.expanded, Piece.meant, escaped_append_m, List.append_assoc, List.append_assoc] at heq
    exact .inl (eq_of_escaped hbefore heq)

/-- The text behind its `m`, at the last one. -/
theorem behind_of_images (hbehind : ∀ c ∈ behind, c = percent)
    (hne : t.expanded (before ++ 109 :: behind) ≠ t.meant (before ++ 109 :: behind))
    (heq : (t.expanded (before ++ 109 :: behind)).reverse ++ r =
      (t.meant (before ++ 109 :: behind)).reverse ++ r') : behind = [] := by
  have hreverse : ∀ c ∈ behind.reverse, c = percent :=
    fun c hc => hbehind c (List.mem_reverse.mp hc)
  have hm := notMem_of_percent hreverse
  cases t with
  | other text => exact absurd rfl hne
  | escapedM =>
    have hwords : behind.reverse ++ 109 :: (before.reverse ++ percent :: r) =
        [] ++ 109 :: (percent :: percent :: r') := by
      simpa [Piece.expanded, Piece.meant] using heq
    exact List.reverse_eq_nil_iff.mp (eq_of_append_cons_eq hm List.not_mem_nil hwords)
  | errorM =>
    have hwords : behind.reverse ++ 109 :: (before.reverse ++ r) =
        (escaped behind).reverse ++ 109 :: ((escaped before).reverse ++ r') := by
      simpa [Piece.expanded, Piece.meant, escaped_append_m] using heq
    have hnot : 109 ∉ (escaped behind).reverse :=
      fun h => hm (List.mem_reverse.mpr (mem_escaped.mp (List.mem_reverse.mp h)))
    exact eq_nil_of_escaped hbehind (List.reverse_injective (eq_of_append_cons_eq hm hnot hwords))

end Shape

/-- The only text that can be put behind an escaped percent sign is `%m` itself. -/
theorem eq_of_images_eq (heq : ps.flatMap (Piece.expanded e) = ps.flatMap (Piece.meant e))
    (hescaped : .escapedM ∈ ps) : e = [percent, 109] := by
  by_contra hne
  have hdiffer : Piece.escapedM.expanded e ≠ Piece.escapedM.meant e :=
    fun h => hne (List.cons.inj h).2
  obtain ⟨before, behind, rfl, hbefore, hbehind⟩ := shape_of_images_eq heq hescaped
  obtain ⟨t, -, ht, r, r', hfirst⟩ := exists_first_ne heq ⟨_, hescaped, hdiffer⟩
  obtain ⟨u, -, hu, z, z', hlast⟩ := exists_last_ne heq ⟨_, hescaped, hdiffer⟩
  obtain rfl := behind_of_images hbehind hu hlast
  rcases before_of_images hbefore ht hfirst with rfl | rfl
  · have hpos := List.count_pos_iff.mpr hescaped
    have hpercent := balance_percent heq
    have hcount : List.count percent [109] = 0 := by decide
    rw [List.nil_append, hcount] at hpercent
    omega
  · exact hne rfl

theorem images_eq_iff : ps.flatMap (Piece.expanded e) = ps.flatMap (Piece.meant e) ↔
    (.errorM ∈ ps → percent ∉ e) ∧ (.escapedM ∈ ps → e = [percent, 109]) := by
  constructor
  · intro heq
    refine ⟨fun herror hmem => ?_, eq_of_images_eq heq⟩
    have hpercent := balance_percent heq
    by_cases hescaped : .escapedM ∈ ps
    · rw [eq_of_images_eq heq hescaped] at hpercent
      have hcount : List.count percent [percent, 109] = 1 := by decide
      have hpos := List.count_pos_iff.mpr herror
      rw [hcount] at hpercent
      omega
    · rw [List.count_eq_zero.mpr hescaped, Nat.zero_mul, Nat.zero_add] at hpercent
      rcases Nat.mul_eq_zero.mp hpercent with hnone | hnone
      · exact List.count_eq_zero.mp hnone herror
      · exact List.count_eq_zero.mp hnone hmem
  · intro h
    apply List.flatMap_congr
    intro t ht
    cases t with
    | escapedM => rw [h.2 ht]; rfl
    | errorM => exact (escaped_of_notMem (h.1 ht)).symm
    | other text => rfl

end Images

/-! ## What is printed -/

/-- There is no `%m` or no percent sign in the error text, and no escaped percent sign
with an `m` behind it or the error text is `%m`. -/
def KeepsMeaning (error : List UInt8) (ds : List Directive) : Prop :=
  (errorConversion ∈ ds → percent ∉ error) ∧
    ([.char percent, .char 109] <:+: ds → error = [percent, 109])

theorem valid_meaning (hds : ∀ d ∈ ds, d.Valid g) : ∀ d ∈ ds.flatMap (meaning e), d.Valid g := by
  intro d hd
  obtain ⟨d', hd', hmem⟩ := List.mem_flatMap.mp hd
  rw [meaning] at hmem
  split_ifs at hmem
  · obtain ⟨c, -, rfl⟩ := List.mem_map.mp hmem
    trivial
  · rw [List.mem_singleton.mp hmem]
    exact hds d' hd'

/-- With any arguments that suffice for the original format, and any way to take them,
what `expand_percentm` makes of it prints what it means if and only if the error text
cannot be mistaken. The grammar is that of a `printf` with a conversion `%m`. -/
theorem prints_meaning_iff {VaList Taken : Type} {fmt : CString} {fmtcpy : Buffer}
    {take : List UInt8 → UInt8 → VaList → Option (Taken × VaList)} {ap : VaList}
    {out : List (Printed Taken)} (hm : g.specifier 109 = true) (hparse : g.parse fmt.bytes = some ds)
    (hfits : (expansion error fmt.bytes).length < lineMax)
    (hout : printAll take (ds.flatMap (meaning error.bytes)) ap = some out) :
    g.print take (expanded error fmt fmtcpy) ap = some out ↔ KeepsMeaning error.bytes ds := by
  obtain ⟨hds, hrender⟩ := parse_eq_some_iff.mp hparse
  rw [print_eq_iff (valid_meaning hds) hout, expanded_eq hfits, ← hrender, expansion_render hm hds,
    render_meaning, images_eq_iff, errorM_mem, escapedM_mem, KeepsMeaning]

/-! ## The formats of `printf` -/

/-- Flags, widths, precisions, lengths and argument positions; the first is the apostrophe. -/
def modifiers : List UInt8 :=
  39 :: (['-', '+', ' ', '#', '0', '1', '2', '3', '4', '5', '6', '7', '8', '9', '.', '*', '$', 'I',
    'h', 'l', 'q', 'L', 'j', 'z', 't'] : List Char).map Char.toUInt8

def specifiers : List UInt8 :=
  (['d', 'i', 'o', 'u', 'x', 'X', 'e', 'E', 'f', 'F', 'g', 'G', 'a', 'A', 'c', 's', 'C', 'S', 'p',
    'n', 'm'] : List Char).map Char.toUInt8

def printf : Grammar where
  modifier := fun c => modifiers.contains c
  specifier := fun c => specifiers.contains c
  percent_not_modifier := by decide
  percent_not_specifier := by decide
  disjoint := by
    intro c hc
    have hall : ∀ c ∈ specifiers, modifiers.contains c = false := by decide +kernel
    exact hall c (List.contains_iff_mem.mp hc)

/-- An argument for each star, and one for the value; `%m` has no value. -/
def takeArgs (modifiers : List UInt8) (specifier : UInt8) (ap : List ℕ) :
    Option (List ℕ × List ℕ) :=
  let n := modifiers.count 42 + if specifier = 109 then 0 else 1
  if n ≤ ap.length then some (ap.take n, ap.drop n) else none

/-- The formats `%d:%m` and `%%m`, and an error text. -/
def numberAndError : CString := ⟨[37, 100, 58, 37, 109], by decide⟩

def escapeAndM : CString := ⟨[37, 37, 109], by decide⟩

def success : CString := ⟨(['S', 'u', 'c', 'c', 'e', 's', 's'] : List Char).map Char.toUInt8, by decide⟩

def zeros : Buffer := ⟨fun _ => 0, []⟩

/-- The number, the colon and the text. -/
theorem number_and_error_printed :
    printf.print takeArgs (expanded keyK numberAndError zeros) [5] =
      some [.converted [] 100 [5], .byte 58, .byte 107] :=
  (prints_meaning_iff (by decide) rfl (by decide) rfl).mpr
    ⟨by decide, fun h => absurd h (by decide)⟩

/-- The escape is lost, and a conversion that was not there asks for an argument. And a
percent sign in the error text is the start of a conversion. -/
theorem escape_and_percent_lost :
    (printf.parse escapeAndM.bytes = some [.char 37, .char 109] ∧
      (expansion success escapeAndM.bytes).length < lineMax ∧
      printAll takeArgs ([.char 37, .char 109].flatMap (meaning success.bytes)) [] =
        some [.byte 37, .byte 109] ∧
      printf.print takeArgs (expanded success escapeAndM zeros) [] = none) ∧
    printf.parse [37, 109] = some [errorConversion] ∧
      (expansion escapeAndM [37, 109]).length < lineMax ∧
      printAll takeArgs ([errorConversion].flatMap (meaning escapeAndM.bytes)) [] =
        some [.byte 37, .byte 37, .byte 109] ∧
      printf.print takeArgs (expanded escapeAndM ⟨[37, 109], by decide⟩ zeros) [] =
        some [.byte 37, .byte 109] := by
  rw [expanded_eq (by decide), expanded_eq (by decide)]
  exact ⟨⟨rfl, by decide, rfl, rfl⟩, rfl, by decide, rfl, rfl⟩

end OpenXPC.FormatExpansion
