import Mathlib.Data.List.Basic
import Mathlib.Tactic.Common

/-! # Format strings

A format is a list of directives: characters and conversions. A grammar says which
bytes may stand in a conversion before the last one, and which may be the last.
Reading a format and writing its directives are inverse to each other, so two formats
print the same only if they are the same. -/
namespace OpenXPC.Formats

/-- The percent sign. -/
def percent : UInt8 := 37

/-- A conversion ends at the first byte that is no modifier. -/
structure Grammar where
  modifier : UInt8 → Bool
  specifier : UInt8 → Bool
  percent_not_modifier : modifier percent = false
  percent_not_specifier : specifier percent = false
  disjoint : ∀ c, specifier c = true → modifier c = false

/-- The escape of a percent sign is the character it prints. -/
inductive Directive
  | char (c : UInt8)
  | conversion (modifiers : List UInt8) (specifier : UInt8)
  deriving DecidableEq

def Directive.render : Directive → List UInt8
  | .char c => if c = percent then [percent, percent] else [c]
  | .conversion modifiers specifier => percent :: modifiers ++ [specifier]

def render (ds : List Directive) : List UInt8 := ds.flatMap Directive.render

def Directive.Valid (g : Grammar) : Directive → Prop
  | .char _ => True
  | .conversion modifiers specifier =>
    (∀ c ∈ modifiers, g.modifier c = true) ∧ g.specifier specifier = true

namespace Grammar

/-- Within a conversion the modifiers read so far are kept. -/
def parseFrom (g : Grammar) : Option (List UInt8) → List UInt8 → Option (List Directive)
  | none, [] => some []
  | some _, [] => none
  | none, c :: cs =>
    if c = percent then parseFrom g (some []) cs else (parseFrom g none cs).map (.char c :: ·)
  | some modifiers, c :: cs =>
    if g.modifier c then parseFrom g (some (modifiers ++ [c])) cs
    else if c = percent ∧ modifiers = [] then (parseFrom g none cs).map (.char percent :: ·)
    else if g.specifier c then (parseFrom g none cs).map (.conversion modifiers c :: ·)
    else none

def parse (g : Grammar) (format : List UInt8) : Option (List Directive) := g.parseFrom none format

end Grammar

variable {g : Grammar} {d : Directive} {ds ds' : List Directive} {c s : UInt8}
  {cs ms format : List UInt8}

@[simp] theorem render_nil : render [] = [] := rfl

@[simp] theorem render_cons : render (d :: ds) = d.render ++ render ds := rfl

/-! ## Reading -/

/-- What has been read of a conversion. -/
def opened : Option (List UInt8) → List UInt8
  | none => []
  | some modifiers => percent :: modifiers

theorem render_of_parseFrom {mode : Option (List UInt8)}
    (hmode : ∀ ms, mode = some ms → ∀ c ∈ ms, g.modifier c = true)
    (hparse : g.parseFrom mode cs = some ds) :
    (∀ d ∈ ds, d.Valid g) ∧ render ds = opened mode ++ cs := by
  fun_induction Grammar.parseFrom g mode cs generalizing ds with
  | case1 =>
    cases hparse
    exact ⟨nofun, rfl⟩
  | case2 ms => cases hparse
  | case3 cs ih =>
    obtain ⟨hvalid, hrender⟩ := ih (fun ms hms => by cases hms; exact nofun) hparse
    exact ⟨hvalid, hrender⟩
  | case4 c cs hc ih =>
    obtain ⟨es, hes, rfl⟩ := Option.map_eq_some_iff.mp hparse
    obtain ⟨hvalid, hrender⟩ := ih hmode hes
    refine ⟨List.forall_mem_cons.mpr ⟨trivial, hvalid⟩, ?_⟩
    rw [render_cons, hrender, Directive.render, if_neg hc]
    rfl
  | case5 ms c cs hc ih =>
    obtain ⟨hvalid, hrender⟩ := ih (fun ns hns => by
      cases hns
      intro e he
      rcases List.mem_append.mp he with he | he
      · exact hmode ms rfl e he
      · rw [List.mem_singleton.mp he, hc]) hparse
    refine ⟨hvalid, ?_⟩
    rw [hrender]
    simp [opened]
  | case6 ms c cs hc hescape ih =>
    obtain ⟨es, hes, rfl⟩ := Option.map_eq_some_iff.mp hparse
    obtain ⟨hvalid, hrender⟩ := ih nofun hes
    refine ⟨List.forall_mem_cons.mpr ⟨trivial, hvalid⟩, ?_⟩
    rw [render_cons, hrender, hescape.1, hescape.2]
    rfl
  | case7 ms c cs hc hescape hs ih =>
    obtain ⟨es, hes, rfl⟩ := Option.map_eq_some_iff.mp hparse
    obtain ⟨hvalid, hrender⟩ := ih nofun hes
    refine ⟨List.forall_mem_cons.mpr ⟨⟨hmode ms rfl, hs⟩, hvalid⟩, ?_⟩
    rw [render_cons, hrender]
    simp [Directive.render, opened]
  | case8 ms c cs hc hescape hs => cases hparse

theorem parse_char_append (hc : c ≠ percent) :
    g.parse (c :: cs) = (g.parse cs).map (.char c :: ·) := by
  rw [Grammar.parse, Grammar.parseFrom, if_neg hc, Grammar.parse]

theorem parse_escape_append :
    g.parse (percent :: percent :: cs) = (g.parse cs).map (.char percent :: ·) := by
  rw [Grammar.parse, Grammar.parseFrom, if_pos rfl, Grammar.parseFrom, if_neg, if_pos ⟨rfl, rfl⟩,
    Grammar.parse]
  simp [g.percent_not_modifier]

/-- The modifiers are read one by one up to the specifier. -/
theorem parseFrom_modifiers {ns : List UInt8} (hns : ∀ c ∈ ns, g.modifier c = true)
    (hs : g.specifier s = true) : g.parseFrom (some ms) (ns ++ s :: cs) =
      (g.parse cs).map (.conversion (ms ++ ns) s :: ·) := by
  induction ns generalizing ms with
  | nil =>
    have hmodifier : ¬ g.modifier s = true := by simp [g.disjoint s hs]
    have hpercent : s ≠ percent := by
      intro h
      rw [h, g.percent_not_specifier] at hs
      cases hs
    rw [List.nil_append, Grammar.parseFrom, if_neg hmodifier, if_neg (fun h => hpercent h.1),
      if_pos hs, List.append_nil, Grammar.parse]
  | cons n ns ih =>
    rw [List.forall_mem_cons] at hns
    rw [List.cons_append, Grammar.parseFrom, if_pos hns.1, ih hns.2, List.append_assoc]
    rfl

theorem parse_render_append (hd : d.Valid g) :
    g.parse (d.render ++ cs) = (g.parse cs).map (d :: ·) := by
  cases d with
  | char c =>
    rw [Directive.render]
    split_ifs with hc
    · subst hc
      exact parse_escape_append
    · exact parse_char_append hc
  | conversion ms s =>
    have hstart : (Directive.conversion ms s).render ++ cs = percent :: (ms ++ s :: cs) := by
      simp [Directive.render]
    rw [hstart, Grammar.parse, Grammar.parseFrom, if_pos rfl, parseFrom_modifiers hd.1 hd.2,
      List.nil_append]

theorem parse_render (hds : ∀ d ∈ ds, d.Valid g) : g.parse (render ds) = some ds := by
  induction ds with
  | nil => rfl
  | cons d ds ih =>
    rw [List.forall_mem_cons] at hds
    rw [render_cons, parse_render_append hds.1, ih hds.2, Option.map_some]

theorem parse_eq_some_iff :
    g.parse format = some ds ↔ (∀ d ∈ ds, d.Valid g) ∧ render ds = format := by
  constructor
  · intro hparse
    exact render_of_parseFrom (fun ms hms => by cases hms) hparse
  · intro hds
    rw [← hds.2, parse_render hds.1]

/-! ## Writing a text -/

/-- A format that prints a text writes its percent signs twice. -/
def escaped (text : List UInt8) : List UInt8 := render (text.map .char)

section Texts

variable {w : List UInt8}

theorem escaped_of_notMem (hw : percent ∉ w) : escaped w = w := by
  induction w with
  | nil => rfl
  | cons c w ih =>
    rw [List.mem_cons, not_or] at hw
    have hc : (Directive.char c).render = [c] := by rw [Directive.render, if_neg (Ne.symm hw.1)]
    rw [escaped, List.map_cons, render_cons, hc, ← escaped, ih hw.2]
    rfl

theorem escaped_append (w cs : List UInt8) : escaped (w ++ cs) = escaped w ++ escaped cs := by
  simp [escaped, render]

theorem countP_escaped (p : UInt8 → Bool) :
    (escaped w).countP p = w.countP p + if p percent then w.count percent else 0 := by
  induction w with
  | nil => simp [escaped]
  | cons c w ih =>
    change ((Directive.char c).render ++ escaped w).countP p = _
    rw [List.countP_append, ih, Directive.render]
    by_cases hc : c = percent
    · subst hc
      by_cases hp : p percent = true
      · simp [hp]
        omega
      · simp [hp]
    · by_cases hp : p percent = true
      · simp [hp, hc, List.countP_cons, Nat.add_comm]
        omega
      · simp [hp, hc, List.countP_cons, Nat.add_comm]

theorem mem_render_char {c d : UInt8} : c ∈ (Directive.char d).render ↔ c = d := by
  rw [Directive.render]
  split_ifs with hd
  · simp [hd]
  · simp

theorem mem_escaped : c ∈ escaped w ↔ c ∈ w := by
  simp [escaped, render, mem_render_char]

end Texts

/-! ## Printing -/

section Printing

variable {VaList Taken : Type}

/-- What is printed for a conversion is given by the conversion and by what it took
from the arguments. -/
inductive Printed (Taken : Type)
  | byte (c : UInt8)
  | converted (modifiers : List UInt8) (specifier : UInt8) (taken : Taken)
  deriving DecidableEq

def Printed.directive : Printed Taken → Directive
  | .byte c => .char c
  | .converted modifiers specifier _ => .conversion modifiers specifier

/-- The parameter takes the arguments of one conversion off the list, if they are there. -/
def printAll (take : List UInt8 → UInt8 → VaList → Option (Taken × VaList)) :
    List Directive → VaList → Option (List (Printed Taken))
  | [], _ => some []
  | .char c :: ds, ap => (printAll take ds ap).map (.byte c :: ·)
  | .conversion modifiers specifier :: ds, ap => do
    let (taken, ap) ← take modifiers specifier ap
    (printAll take ds ap).map (.converted modifiers specifier taken :: ·)

/-- Nothing is said of a string that is no format, or without the arguments for it. -/
def Grammar.print (g : Grammar) (take : List UInt8 → UInt8 → VaList → Option (Taken × VaList))
    (format : List UInt8) (ap : VaList) : Option (List (Printed Taken)) :=
  (g.parse format).bind (printAll take · ap)

variable {take : List UInt8 → UInt8 → VaList → Option (Taken × VaList)} {ap : VaList}
  {out : List (Printed Taken)}

/-- The directives can be read off what they print. -/
theorem directives_of_printAll (hout : printAll take ds ap = some out) :
    out.map Printed.directive = ds := by
  induction ds generalizing ap out with
  | nil =>
    cases hout
    rfl
  | cons d ds ih =>
    cases d with
    | char c =>
      obtain ⟨out', hout', rfl⟩ := Option.map_eq_some_iff.mp hout
      rw [List.map_cons, ih hout', Printed.directive]
    | conversion ms s =>
      obtain ⟨⟨taken, ap'⟩, htake, hout⟩ := Option.bind_eq_some_iff.mp hout
      obtain ⟨out', hout', rfl⟩ := Option.map_eq_some_iff.mp hout
      rw [List.map_cons, ih hout', Printed.directive]

/-- A format prints what given directives print exactly when it consists of them. -/
theorem print_eq_iff (hds : ∀ d ∈ ds, d.Valid g) (hout : printAll take ds ap = some out) :
    g.print take format ap = some out ↔ format = render ds := by
  rw [Grammar.print]
  constructor
  · intro hprint
    obtain ⟨ds', hparse, hout'⟩ := Option.bind_eq_some_iff.mp hprint
    have hsame : ds' = ds := (directives_of_printAll hout').symm.trans (directives_of_printAll hout)
    rw [← hsame]
    exact (parse_eq_some_iff.mp hparse).2.symm
  · intro hformat
    rw [hformat, parse_render hds, Option.bind_some, hout]

end Printing
end OpenXPC.Formats
