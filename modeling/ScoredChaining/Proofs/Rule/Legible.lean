import Mathlib.Data.List.Infix
import ScoredChaining.Proofs.Rule.Written

/-!
Terms that can be printed and read again.

* `Arg.Legible`, `Term.Legible`: names have the shape of names, integers are in range, no string has
  a line feed in it, and the quotes in strings do not join arguments.
* `Term.Written.legible`: what the reader accepts is legible. `Term.Legible.written`: the text that a
  legible term is printed as is one that it is read from.
* `Term.Legible.exists_string`: a mark that has no place in a term stands in that text only within a
  string constant.
-/

namespace ScoredChaining

open Text

variable {c : Char} {mark cs : List Char}

/-! ### Marks that are foreign to terms -/

/-- The character may stand in a term outside of its string constants. -/
def isTermChar (c : Char) : Bool :=
  isWord c || ['\'', '(', ')', ',', '"'].contains c

/-- A nonempty text of characters that stand in a term only within its string constants. -/
structure Foreign (mark : List Char) : Prop where
  some : mark ≠ []
  all : ∀ c ∈ mark, isTermChar c = false

theorem Foreign.not_mem (foreign : Foreign mark) (own : isTermChar c = true) : c ∉ mark := by
  intro mem
  rw [foreign.all c mem] at own
  cases own

theorem Foreign.not_infix (foreign : Foreign mark) (own : ∀ c ∈ cs, isTermChar c = true) :
    ¬mark <:+: cs := by
  intro occurs
  obtain ⟨c, mem⟩ := List.exists_mem_of_ne_nil mark foreign.some
  exact foreign.not_mem (own c (occurs.subset mem)) mem

theorem Text.Word.isTermChar (word : Word cs) : ∀ c ∈ cs, isTermChar c = true := by
  intro c mem
  simp [ScoredChaining.isTermChar, word.all c mem]

theorem foreign_lineFeed : Foreign ['\n'] :=
  ⟨List.cons_ne_nil _ _, List.forall_mem_singleton.mpr rfl⟩

/-! ### Arguments -/

namespace Arg

variable {a : Arg}

/-- The argument can be printed and read again. -/
def Legible : Arg → Prop
  | .var name => isVariableName name.toList = true
  | .const (.int _) => True
  | .const (.str s) => '\n' ∉ s.toList
  | .const (.tuple _) => False

theorem Written.legible (written : Written cs a) (oneLine : '\n' ∉ cs) : a.Legible := by
  cases written with
  | var name => exact name
  | int => exact trivial
  | str s =>
    intro mem
    exact oneLine (List.mem_cons_of_mem _ (List.mem_append_left _ mem))

theorem Legible.written (legible : a.Legible) : Written a.text.toList a := by
  match a with
  | .var name => exact .var legible
  | .const (.int n) =>
    rw [toList_text_int]
    exact .int (Decimal.readInt64?_showInt64 n)
  | .const (.str s) =>
    rw [toList_text_str]
    exact .str s

theorem Legible.exists_string (legible : a.Legible) (foreign : Foreign mark)
    (occurs : mark <:+: a.text.toList) : ∃ s, a = .const (.str s) ∧ mark <:+: s.toList := by
  match a with
  | .var name =>
    exact absurd occurs (foreign.not_infix (word_of_isVariableName legible).isTermChar)
  | .const (.int n) =>
    have word : Word (Decimal.showInt64 n) := word_of_readInt64? (Decimal.readInt64?_showInt64 n)
    rw [toList_text_int] at occurs
    exact absurd occurs (foreign.not_infix word.isTermChar)
  | .const (.str s) =>
    have noQuote : '"' ∉ mark := foreign.not_mem rfl
    rw [toList_text_str, ← List.nil_append ('"' :: _), infix_append_cons_iff noQuote,
      infix_append_cons_iff noQuote] at occurs
    refine ⟨s, rfl, ?_⟩
    rcases occurs with nowhere | inString | nowhere
    · exact absurd (List.infix_nil.mp nowhere) foreign.some
    · exact inString
    · exact absurd (List.infix_nil.mp nowhere) foreign.some

theorem separated_split {inside : List Char} (some : split inside ≠ []) :
    Separated false (split inside) := by
  unfold split at some ⊢
  split at some
  · exact absurd rfl some
  · rename_i ink
    rw [if_neg ink]
    refine (separated_splitCommas false inside).congr ?_
    rw [List.map_map]
    exact List.map_congr_left fun piece _ => (marks_trim piece).symm

end Arg

/-! ### Terms -/

namespace Term

variable {t : Term}

/-- The term can be printed and read again. -/
structure Legible (t : Term) : Prop where
  name : isRelationName t.relation.toList = true
  args : ∀ a ∈ t.allArgs, a.Legible
  separated : t.allArgs ≠ [] → Arg.Separated false (t.allArgs.map fun a => a.text.toList)

theorem Written.legible (written : Written cs t) : t.Legible := by
  obtain @⟨_, _, inside, isName, _, oneLine, args⟩ := written
  refine ⟨isName, fun a mem => ?_, fun some => ?_⟩
  · obtain ⟨token, memToken, text⟩ := exists_mem_of_forall₂ args mem
    exact text.legible fun broken => oneLine ((Arg.infix_of_mem_split memToken).subset broken)
  · have tokens : Arg.split inside ≠ [] := by
      intro none
      rw [none, List.forall₂_nil_left_iff] at args
      exact some args
    refine (Arg.separated_split tokens).congr ?_
    rw [Arg.marks_eq_of_written args, List.map_map]
    rfl

/-- What stands in a term but has no place in it stands in one of its string constants. -/
theorem Legible.exists_string_of_argsText (legible : t.Legible) (foreign : Foreign mark)
    (occurs : mark <:+: t.argsText) : ∃ s ∈ t.strings, mark <:+: s.toList := by
  have free : ∀ c ∈ [','], c ∉ mark := by
    intro c mem
    rw [List.mem_singleton.mp mem]
    exact foreign.not_mem rfl
  obtain ⟨part, memPart, inPart⟩ :=
    exists_infix_of_infix_intercalate (List.cons_ne_nil _ _) free foreign.some occurs
  obtain ⟨a, memArg, rfl⟩ := List.mem_map.mp memPart
  obtain ⟨s, rfl, inString⟩ := (legible.args a memArg).exists_string foreign inPart
  have isArg : .const (.str s) ∈ t.args := by simpa [allArgs] using memArg
  exact ⟨s, mem_strings.mpr isArg, inString⟩

/-- Nothing foreign stands in the name and the prime. -/
theorem isTermChar_name {name : List Char} (isName : isRelationName name = true) (primed : Bool) :
    ∀ c ∈ name ++ prime primed, isTermChar c = true := by
  intro c mem
  rcases List.mem_append.mp mem with inName | inPrime
  · exact (word_of_isRelationName isName).isTermChar c inName
  · unfold prime at inPrime
    split at inPrime
    · obtain rfl := List.mem_singleton.mp inPrime
      rfl
    · cases inPrime

theorem Legible.exists_string (legible : t.Legible) (foreign : Foreign mark)
    (occurs : mark <:+: t.text.toList) : ∃ s ∈ t.strings, mark <:+: s.toList := by
  rw [toList_text, layout, List.nil_append, ← List.append_assoc,
    infix_append_cons_iff (foreign.not_mem rfl), infix_append_cons_iff (foreign.not_mem rfl)] at occurs
  rcases occurs with inName | inArgs | nowhere
  · exact absurd inName (foreign.not_infix (isTermChar_name legible.name _))
  · exact legible.exists_string_of_argsText foreign inArgs
  · exact absurd (List.infix_nil.mp nowhere) foreign.some

/-- The text between the parentheses is split into the texts of the arguments. -/
theorem Legible.split_argsText (legible : t.Legible) :
    Arg.split t.argsText = t.allArgs.map fun a => a.text.toList := by
  by_cases none : t.allArgs = []
  · rw [argsText, none]
    rfl
  · obtain ⟨a, mem⟩ := List.exists_mem_of_ne_nil _ none
    have ink : ¬isBlankText t.argsText = true := by
      intro blank
      have written := (legible.args a mem).written
      obtain ⟨c, rest, eq⟩ := List.exists_cons_of_ne_nil written.ne_nil
      have first : isBlank c = false := written.trimmed.first c (by rw [eq]; rfl)
      have inArgs : a.text.toList <:+: t.argsText :=
        infix_intercalate (List.mem_map_of_mem mem)
      have isBlank : isBlank c = true :=
        List.all_eq_true.mp blank c (inArgs.subset (eq ▸ List.mem_cons_self))
      rw [first] at isBlank
      cases isBlank
    rw [Arg.split, if_neg ink, argsText, Arg.splitCommas_intercalate (legible.separated none),
      List.map_map]
    exact List.map_congr_left fun b memArg =>
      trim_of_trimmed (legible.args b memArg).written.trimmed

theorem Legible.written (legible : t.Legible) : Written t.text.toList t := by
  have oneLine : '\n' ∉ t.argsText := by
    intro broken
    obtain ⟨s, mem, inString⟩ := legible.exists_string_of_argsText foreign_lineFeed
      ((List.singleton_infix_iff _ _).mpr broken)
    have isArg : .const (.str s) ∈ t.allArgs := List.mem_append_right _ (mem_strings.mp mem)
    exact legible.args _ isArg ((List.singleton_infix_iff _ _).mp inString)
  rw [toList_text]
  refine .mk legible.name rfl oneLine ?_
  rw [legible.split_argsText, List.forall₂_map_left_iff, List.forall₂_same]
  exact fun a mem => (legible.args a mem).written

theorem Legible.trimmed (legible : t.Legible) : Trimmed t.text.toList := by
  rw [toList_text]
  exact trimmed_layout legible.name _ _ _

theorem Legible.ne_nil (legible : t.Legible) : t.text.toList ≠ [] := by
  rw [toList_text, layout]
  exact List.append_ne_nil_of_left_ne_nil (word_of_isRelationName legible.name).some _

/-- Blanks around the printed text do not matter. -/
theorem Legible.written_padded (legible : t.Legible) {before after : List Char}
    (blankBefore : before.all isBlank = true) (blankAfter : after.all isBlank = true) :
    Written (trim (before ++ (t.text.toList ++ after))) t := by
  rw [trim_append legible.trimmed blankBefore blankAfter]
  exact legible.written

end Term

end ScoredChaining
