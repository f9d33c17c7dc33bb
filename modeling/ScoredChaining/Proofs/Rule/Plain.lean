import ScoredChaining.Proofs.Rule.Grammar

/-!
Rules of the documented shape.

* `Rule.Plain`: premises and an unprimed conclusion whose arguments are variables, integers, and
  strings without a double quote or a line feed.
* `Rule.read_text_of_plain`: the text of such a rule is never misread. It reads as the rule unless a
  string constant has an arrow in it, or one of a premise an ampersand; then it is refused. No other
  character of a string constant matters.
-/

namespace ScoredChaining

open Text

/-! ### Arguments -/

namespace Arg

variable {a : Arg}

/-- A variable, an integer, or a string without a double quote or a line feed in it. -/
def Plain : Arg → Prop
  | .var name => isVariableName name.toList = true
  | .const (.int _) => True
  | .const (.str s) => '"' ∉ s.toList ∧ '\n' ∉ s.toList
  | .const (.tuple _) => False

instance : DecidablePred Plain
  | .var name => inferInstanceAs (Decidable (isVariableName name.toList = true))
  | .const (.int _) => inferInstanceAs (Decidable True)
  | .const (.str s) => inferInstanceAs (Decidable ('"' ∉ s.toList ∧ '\n' ∉ s.toList))
  | .const (.tuple _) => inferInstanceAs (Decidable False)

theorem Plain.legible (plain : a.Plain) : a.Legible := by
  match a with
  | .var name => exact plain
  | .const (.int n) => exact trivial
  | .const (.str s) => exact plain.2

/-- The text of a plain argument is one of the grammar. -/
theorem Plain.derived (plain : a.Plain) : Derived NoQuote a.text.toList := by
  refine plain.legible.written.derived fun s isString => ?_
  obtain rfl := string?_eq_some_iff.mp isString
  exact plain.1

end Arg

/-! ### Terms -/

namespace Term

variable {t : Term}

/-- A term whose name has the shape of a name and whose arguments are plain. -/
structure Plain (t : Term) : Prop where
  name : isRelationName t.relation.toList = true
  args : ∀ a ∈ t.allArgs, a.Plain

instance : DecidablePred Plain := fun t =>
  decidable_of_iff (isRelationName t.relation.toList = true ∧ ∀ a ∈ t.allArgs, a.Plain)
    ⟨fun ⟨name, args⟩ => ⟨name, args⟩, fun plain => ⟨plain.name, plain.args⟩⟩

theorem Plain.legible (plain : t.Plain) : t.Legible where
  name := plain.name
  args a mem := (plain.args a mem).legible
  separated some := by
    refine .of_forall (by simpa using some) (List.forall_mem_map.mpr fun a mem => ?_)
    exact (plain.args a mem).derived.closed rfl (by decide)

theorem Plain.closed (plain : t.Plain) : scan '#' false t.text.toList = some false := by
  have sameMarks : marks t.text.toList = marks t.argsText := by
    rw [toList_text, marks_layout plain.name _ rfl]
  rw [scan_congr rfl sameMarks]
  refine scan_intercalate rfl (List.forall_mem_map.mpr fun a mem => ?_)
  exact (plain.args a mem).derived.closed rfl (by decide)

/-- The text of a plain term is one of the grammar, also with blanks around it. -/
theorem Plain.padded (plain : t.Plain) {blanks more : List Char}
    (blank : blanks.all isBlank = true) (blankMore : more.all isBlank = true) :
    Padded (Derived NoQuote) (blanks ++ (t.text.toList ++ more)) := by
  refine ⟨blanks, t.text.toList, more, blank, blankMore, rfl, ?_⟩
  refine plain.legible.written.derived fun s isArg => ?_
  have plainArg : (Arg.const (.str s)).Plain :=
    plain.args _ (List.mem_append_right _ (mem_strings.mp isArg))
  exact plainArg.1

end Term

namespace Rule

variable {r : Rule}

/-- Some premises and an unprimed conclusion, all of them plain. -/
structure Plain (r : Rule) : Prop where
  some : r.premises ≠ []
  terms : ∀ t ∈ r.premises ++ [r.conclusion], t.Plain
  unprimed : r.conclusion.isPrimed = false

instance : DecidablePred Plain := fun r =>
  decidable_of_iff (r.premises ≠ [] ∧ (∀ t ∈ r.premises ++ [r.conclusion], t.Plain) ∧
      r.conclusion.isPrimed = false)
    ⟨fun ⟨nonempty, terms, unprimed⟩ => ⟨nonempty, terms, unprimed⟩,
      fun plain => ⟨plain.some, plain.terms, plain.unprimed⟩⟩

namespace Plain

theorem closed (plain : r.Plain) : scan '#' false r.text.toList = .some false := by
  have closedPremises : scan '#' false (Term.joined r.premises) = .some false :=
    scan_intercalate rfl (List.forall_mem_map.mpr fun t mem =>
      (plain.terms t (List.mem_append_left _ mem)).closed)
  have closedConclusion : scan '#' false r.conclusion.text.toList = .some false :=
    (plain.terms _ (List.mem_append_right _ (List.mem_singleton_self _))).closed
  rw [toList_text, scan_append, scan_append, closedPremises]
  exact closedConclusion

theorem legible (plain : r.Plain) (uncut : r.Uncut) : r.Legible where
  some := plain.some
  terms t mem := (plain.terms t mem).legible
  unprimed := plain.unprimed
  uncut := uncut
  body := ⟨false, plain.closed⟩

/-- If the pieces between the ampersands of the premises are texts of terms, no ampersand stands in a
premise. -/
theorem not_ampersand (plain : r.Plain)
    (written : ∀ piece ∈ pieces '&' (Term.joined r.premises ++ [' ']),
      ∃ u, Term.Written (trim piece) u) : ∀ t ∈ r.premises, '&' ∉ t.text.toList := by
  have blank : [' '].all isBlank = true := rfl
  obtain ⟨first, others, premises⟩ := List.exists_cons_of_ne_nil plain.some
  have isPlain : ∀ t ∈ first :: others, t.Plain :=
    fun t mem => plain.terms t (List.mem_append_left _ (premises ▸ mem))
  obtain ⟨plainFirst, plainOthers⟩ := List.forall_mem_cons.mp isPlain
  rw [Term.joined, premises, List.map_cons, intercalate_padded, List.map_map] at written
  have free := Term.not_ampersand_of_pieces (List.forall_mem_cons.mpr
    ⟨plainFirst.padded List.all_nil blank,
      List.forall_mem_map.mpr fun t mem => (plainOthers t mem).padded blank blank⟩) written
  obtain ⟨freeFirst, freeOthers⟩ := List.forall_mem_cons.mp free
  rw [premises]
  refine List.forall_mem_cons.mpr ⟨fun mem => freeFirst (by simp [mem]), fun t isOther mem => ?_⟩
  exact List.forall_mem_map.mp freeOthers t isOther (by simp [mem])

/-- The reader accepts the text of a plain rule only if it cuts no string constant. -/
theorem uncut_of_readBody (plain : r.Plain) {premises : List Term} {conclusion : Term}
    (accepted : readBody r.text.toList = .ok (premises, conclusion)) : r.Uncut := by
  obtain ⟨left, right, isCut, notRight, written, -, -⟩ := readBody_eq_ok_iff.mp accepted
  have notLeft : ¬arrow <:+: left := not_infix_of_cut foreign_arrow.some isCut
  have eq : left ++ (arrow ++ right) =
      (Term.joined r.premises ++ [' ']) ++ (arrow ++ (' ' :: r.conclusion.text.toList)) := by
    rw [← toList_text, eq_of_cut isCut, List.append_assoc]
  obtain ⟨rfl, rfl⟩ := eq_of_append_pair (by decide) eq notLeft notRight
  have noAmpersand := plain.not_ampersand fun piece mem =>
    (exists_mem_of_forall₂ (List.Forall₂.flip written) mem).imp fun _ text => text.2
  have inText : ∀ t ∈ r.premises ++ [r.conclusion], ∀ s ∈ t.strings,
      s.toList <:+: t.text.toList :=
    fun t mem s isArg => (plain.terms t mem).legible.written.infix_of_mem isArg
  constructor
  · intro t mem s isArg inString
    have occurs := inString.trans (inText t mem s isArg)
    rcases List.mem_append.mp mem with isPremise | isConclusion
    · have inPremises : t.text.toList <:+: Term.joined r.premises :=
        infix_intercalate (List.mem_map_of_mem isPremise)
      exact notLeft (List.infix_append_of_infix_left (occurs.trans inPremises))
    · obtain rfl := List.mem_singleton.mp isConclusion
      exact notRight (List.infix_cons occurs)
  · intro t mem s isArg inString
    exact noAmpersand t mem ((inText t (List.mem_append_left _ mem) s isArg).subset inString)

end Plain

/-- The text of a plain rule is never misread: it reads as the rule, or it is refused because a
string constant is cut. -/
theorem read_text_of_plain (plain : r.Plain) :
    (r.Uncut → read r.text = .ok { r with comment := none }) ∧
      (¬r.Uncut → ∃ cause, read r.text = .error (.fault r.text cause)) := by
  refine ⟨fun uncut => (plain.legible uncut).read_text, fun notUncut => ?_⟩
  have stripped := stripComment_text plain.some (fun t mem => (plain.terms t mem).legible)
    plain.closed
  cases answer : readBody r.text.toList with
  | ok parts => exact absurd (plain.uncut_of_readBody answer) notUncut
  | error cause => exact ⟨cause, by simp [read, readLine, stripped, answer]⟩

/-- A rule with commas, hashes, parentheses, single signs of the arrow, colons and blanks in its
string constants, and an ampersand in the one of the conclusion. -/
def punctuatedRule : Rule where
  premises := [⟨"word", some "f", [.var "x", .const (.str "a, (b) #1: =")]⟩]
  conclusion := ⟨"out", none, [.var "x", .const (.str " & > ")]⟩
  comment := none

/-- A rule with an ampersand in the string constant of a premise. -/
def ampersandRule : Rule where
  premises := [⟨"a", none, [.var "x", .const (.str "p&q")]⟩]
  conclusion := ⟨"b", none, [.var "x"]⟩
  comment := none

theorem read_text_of_plain_punctuated :
    (punctuatedRule.Plain ∧ punctuatedRule.Uncut ∧
      read punctuatedRule.text = .ok punctuatedRule) ∧
    ampersandRule.Plain ∧ ¬ampersandRule.Uncut ∧
      ∃ cause, read ampersandRule.text = .error (.fault ampersandRule.text cause) := by
  have plain : punctuatedRule.Plain := by decide +kernel
  have uncut : punctuatedRule.Uncut := ⟨by decide +kernel, by decide +kernel⟩
  have cutPlain : ampersandRule.Plain := by decide +kernel
  have cut : ¬ampersandRule.Uncut := fun uncut =>
    absurd uncut.ampersand (by decide +kernel)
  exact ⟨⟨plain, uncut, (read_text_of_plain plain).1 uncut⟩, cutPlain, cut,
    (read_text_of_plain cutPlain).2 cut⟩

/-- Not every plain rule can be read again. -/
theorem not_read_text_ampersand :
    ¬∀ r : Rule, r.Plain → read r.text = .ok { r with comment := none } := by
  intro reads
  have plain : ampersandRule.Plain := by decide +kernel
  have legible := legible_of_read (reads ampersandRule plain)
  exact absurd legible.uncut.ampersand (by decide +kernel)

end Rule

end ScoredChaining
