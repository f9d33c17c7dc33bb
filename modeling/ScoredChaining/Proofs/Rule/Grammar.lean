import ScoredChaining.Proofs.Rule.RoundTrip

/-!
The grammar of rules.

* `Rule.Derived`: terms joined by ampersands, an arrow and a term, with blanks around each. A term is a
  name, an optional prime, and arguments in parentheses, joined by commas; an argument is a name, an
  integer or a quoted text (`Term.Derived`, `Arg.Derived`). What may be quoted is a parameter.
* `Rule.derived_of_readBody`: the reader accepts texts of the grammar only, in which the string
  constants are quoted.
* `Rule.Derived.noQuote_of_readBody`: if no quote is quoted in a text of the grammar that the reader
  accepts, it finds none in a string constant. An ampersand that is quoted in a premise leaves an open
  quote before it, so the reader does not cut there and go on (`Term.not_ampersand_of_pieces`).
-/

namespace ScoredChaining

open Text

variable {Content : List Char → Prop} {mark : Char} {cs ds before after : List Char}

/-! ### The grammar -/

/-- A text of one kind with blanks around it. -/
def Text.Padded (Kind : List Char → Prop) (cs : List Char) : Prop :=
  ∃ before middle after, before.all isBlank = true ∧ after.all isBlank = true ∧
    cs = before ++ (middle ++ after) ∧ Kind middle

/-- The text of an argument: the name of a variable, an integer, or what may be quoted in quotes. -/
inductive Arg.Derived (Content : List Char → Prop) : List Char → Prop where
  | name {cs : List Char} (isName : isVariableName cs = true) : Derived Content cs
  | integer {sign digits : List Char} (isSign : Decimal.IsSign sign) (some : digits ≠ [])
      (allDigits : digits.all Decimal.isDigit = true) : Derived Content (sign ++ digits)
  | quoted {cs : List Char} (content : Content cs) : Derived Content ('"' :: (cs ++ ['"']))

/-- The text of a list of arguments. -/
inductive Arg.ListDerived (Content : List Char → Prop) : List Char → Prop where
  | none {blanks : List Char} (blank : blanks.all isBlank = true) : ListDerived Content blanks
  | some {parts : List (List Char)} (some : parts ≠ [])
      (each : ∀ part ∈ parts, Padded (Arg.Derived Content) part) :
      ListDerived Content ([','].intercalate parts)

/-- The text of a term. -/
inductive Term.Derived (Content : List Char → Prop) : List Char → Prop where
  | mk {name blanks inside : List Char} {primed : Bool} (isName : isRelationName name = true)
      (blank : blanks.all isBlank = true) (args : Arg.ListDerived Content inside) :
      Derived Content (layout name primed blanks inside)

/-- The text of a rule without its comment. -/
inductive Rule.Derived (Content : List Char → Prop) : List Char → Prop where
  | mk {premises : List (List Char)} {conclusion : List Char} (some : premises ≠ [])
      (each : ∀ text ∈ premises, Padded (Term.Derived Content) text)
      (last : Padded (Term.Derived Content) conclusion) :
      Derived Content (['&'].intercalate premises ++ (arrow ++ conclusion))

/-- No quote is quoted, as the grammar has it. -/
def NoQuote (cs : List Char) : Prop :=
  '"' ∉ cs

/-! ### Reading -/

theorem Text.padded_trim {Kind : List Char → Prop} (kind : Kind (trim cs)) : Padded Kind cs := by
  obtain ⟨before, after, blankBefore, blankAfter, eq⟩ := exists_trim cs
  exact ⟨before, trim cs, after, blankBefore, blankAfter, eq, kind⟩

namespace Arg

theorem Written.derived {a : Arg} (written : Written cs a)
    (content : ∀ s, a.string? = some s → Content s.toList) : Derived Content cs := by
  cases written with
  | var isName => exact .name isName
  | int read =>
    obtain ⟨sign, digits, isSign, some, allDigits, rfl⟩ :=
      Decimal.exists_digits_of_readInt64? read
    exact .integer isSign some allDigits
  | str s => exact .quoted (content s rfl)

/-- What stands between the parentheses of a term is a list of arguments. -/
theorem listDerived_of_split {inside : List Char} {args : List Arg}
    (written : List.Forall₂ Written (split inside) args)
    (content : ∀ s, .const (.str s) ∈ args → Content s.toList) : ListDerived Content inside := by
  by_cases nothing : isBlankText inside = true
  · exact .none nothing
  · rw [split, if_neg nothing] at written
    rw [← intercalate_splitCommas false inside]
    refine .some (separated_splitCommas false inside).ne_nil fun part mem => padded_trim ?_
    obtain ⟨a, memArgs, text⟩ :=
      exists_mem_of_forall₂ (List.Forall₂.flip written) (List.mem_map_of_mem mem)
    exact text.derived fun s isString => content s (string?_eq_some_iff.mp isString ▸ memArgs)

end Arg

theorem Term.Written.derived {t : Term} (written : Term.Written cs t)
    (content : ∀ s ∈ t.strings, Content s.toList) : Term.Derived Content cs := by
  obtain ⟨isName, blank, -, args⟩ := written
  refine .mk isName blank (Arg.listDerived_of_split args fun s mem => content s ?_)
  rcases List.mem_append.mp mem with isFact | isArg
  · obtain ⟨name, -, isVariable⟩ := List.mem_map.mp isFact
    cases isVariable
  · exact mem_strings.mpr isArg

namespace Rule

variable {r : Rule} {body : List Char}

/-- The string constants of a rule. -/
def strings (r : Rule) : List String :=
  (r.premises ++ [r.conclusion]).flatMap Term.strings

theorem derived_of_readBody (accepted : readBody body = .ok (r.premises, r.conclusion))
    (content : ∀ s ∈ r.strings, Content s.toList) : Derived Content body := by
  obtain ⟨left, right, isCut, -, premises, conclusion, -⟩ := readBody_eq_ok_iff.mp accepted
  have contentOf : ∀ t ∈ r.premises ++ [r.conclusion], ∀ s ∈ t.strings, Content s.toList :=
    fun t mem s isArg => content s (List.mem_flatMap.mpr ⟨t, mem, isArg⟩)
  rw [eq_of_cut isCut, ← intercalate_pieces '&' left, List.append_assoc]
  refine .mk (pieces_ne_nil '&' left) (fun piece mem => padded_trim ?_) (padded_trim ?_)
  · obtain ⟨t, isPremise, text⟩ := exists_mem_of_forall₂ (List.Forall₂.flip premises) mem
    exact text.derived (contentOf t (List.mem_append_left _ isPremise))
  · exact conclusion.derived (contentOf _ (List.mem_append_right _ (List.mem_singleton_self _)))

end Rule

/-! ### Texts in which no quote is quoted -/

/-- No mark stands in a word, so it is closed. -/
theorem Text.Word.closed (word : Word cs) (isMark_mark : isMark mark = true) :
    scan mark false cs = .some false := by
  rw [← scan_marks isMark_mark, word.marks]
  rfl

theorem Text.Word.not_mem (word : Word cs) {c : Char} (other : isWord c = false) : c ∉ cs :=
  fun mem => Bool.false_ne_true (other.symm.trans (word.all c mem))

namespace Text.Padded

variable {Kind : List Char → Prop}

/-- A character that is not blank lies in the text between the blanks. -/
theorem exists_split {c : Char} (ink : isBlank c = false)
    (padded : Padded Kind (before ++ c :: after)) : ∃ blanks start rest,
      blanks.all isBlank = true ∧ before = blanks ++ start ∧ Kind (start ++ c :: rest) := by
  obtain ⟨blanks, middle, more, blank, blankMore, eq, kind⟩ := padded
  have notIn {spaces : List Char} (blank : spaces.all isBlank = true) : c ∉ spaces :=
    fun mem => Bool.false_ne_true (ink.symm.trans (List.all_eq_true.mp blank c mem))
  rcases append_eq_append_cons eq.symm with ⟨rest, inBlanks⟩ | ⟨gap, rfl, eqMiddle⟩
  · exact absurd (inBlanks ▸ List.mem_append_right _ List.mem_cons_self) (notIn blank)
  rcases append_eq_append_cons eqMiddle with ⟨rest, rfl⟩ | ⟨start, -, inMore⟩
  · exact ⟨blanks, gap, rest, blank, rfl, kind⟩
  · exact absurd (inMore ▸ List.mem_append_right _ List.mem_cons_self) (notIn blankMore)

theorem exists_marks (padded : Padded Kind cs) : ∃ middle, Kind middle ∧ marks cs = marks middle := by
  obtain ⟨blanks, middle, more, blank, blankMore, rfl, kind⟩ := padded
  exact ⟨middle, kind, by simp [marks_of_blank blank, marks_of_blank blankMore]⟩

theorem trim (padded : Padded Kind cs) (trimmed : ∀ cs, Kind cs → Trimmed cs) :
    Kind (Text.trim cs) := by
  obtain ⟨blanks, middle, more, blank, blankMore, rfl, kind⟩ := padded
  rwa [trim_append (trimmed middle kind) blank blankMore]

end Text.Padded

namespace Arg

variable {a : Arg}

theorem Derived.cases_word (derived : Derived NoQuote cs) :
    Word cs ∨ ∃ content, '"' ∉ content ∧ cs = '"' :: (content ++ ['"']) := by
  cases derived with
  | name isName => exact .inl (word_of_isVariableName isName)
  | @integer sign digits isSign some allDigits =>
    have numerals := isSign.isNumeral_append allDigits
    exact .inl ⟨List.append_ne_nil_of_right_ne_nil sign some,
      fun c mem => isWord_of_isNumeral (numerals c mem)⟩
  | @quoted content noQuote => exact .inr ⟨content, noQuote, rfl⟩

/-- The quotes of the argument are closed, and no comma or hash stands outside of them. -/
theorem Derived.closed (derived : Derived NoQuote cs) (isMark_mark : isMark mark = true)
    (notQuote : mark ≠ '"') : scan mark false cs = some false := by
  rcases derived.cases_word with word | ⟨content, noQuote, rfl⟩
  · exact word.closed isMark_mark
  · exact scan_quotation notQuote noQuote

theorem Derived.trimmed (derived : Derived NoQuote cs) : Trimmed cs := by
  rcases derived.cases_word with word | ⟨content, -, rfl⟩
  · exact word.trimmed
  · exact .of_ends rfl rfl

/-- What is read as a string is what is quoted. -/
theorem Derived.noQuote {s : String} (derived : Derived NoQuote cs)
    (written : Written cs (.const (.str s))) : '"' ∉ s.toList := by
  cases written with
  | str =>
    rcases derived.cases_word with word | ⟨content, noQuote, eq⟩
    · exact absurd List.mem_cons_self (word.not_mem rfl)
    · rwa [List.append_cancel_right (List.cons.inj eq).2]

/-- No text of an argument has just one quote in it. -/
theorem Written.count_quote (written : Written cs a) : cs.count '"' ≠ 1 := by
  have ofWord {ds : List Char} (word : Word ds) : ds.count '"' ≠ 1 := by
    rw [List.count_eq_zero_of_not_mem (word.not_mem rfl)]
    exact Nat.zero_ne_one
  cases written with
  | var name => exact ofWord (word_of_isVariableName name)
  | int read => exact ofWord (word_of_readInt64? read)
  | str s => simp [List.count_append]

/-- Up to an ampersand in it, an argument has a quote that is not closed. -/
theorem Derived.open_before_ampersand (derived : Derived NoQuote (before ++ '&' :: after)) :
    ∃ part ∈ splitCommas false (marks before), part.count '"' = 1 := by
  rcases derived.cases_word with word | ⟨content, noQuote, eq⟩
  · exact absurd (List.mem_append_right _ List.mem_cons_self) (word.not_mem rfl)
  cases before with
  | nil => cases (List.cons.inj eq).1
  | cons quote start =>
    obtain ⟨rfl, eqTail⟩ := List.cons.inj eq
    have noQuoteStart : '"' ∉ start := by
      rcases append_eq_append_cons eqTail.symm with ⟨rest, inContent⟩ | ⟨gap, -, isQuote⟩
      · exact fun mem => noQuote (inContent ▸ List.mem_append_left _ mem)
      · cases eq_of_singleton_eq_append_cons isQuote
    have opened : scan ',' false (marks ('"' :: start)) = some true := by
      rw [scan_marks rfl]
      exact scan_inside noQuoteStart
    refine ⟨marks ('"' :: start), ?_, ?_⟩
    · rw [splitCommas_of_scan opened]
      exact List.mem_singleton_self _
    · rw [count_marks, List.count_cons_self, List.count_eq_zero_of_not_mem noQuoteStart]

/-- The same with blanks around it. -/
theorem open_before_ampersand_of_padded (padded : Padded (Derived NoQuote) (before ++ '&' :: after)) :
    ∃ part ∈ splitCommas false (marks before), part.count '"' = 1 := by
  obtain ⟨blanks, start, rest, blank, rfl, derived⟩ := padded.exists_split rfl
  rw [marks_append, marks_of_blank blank, List.nil_append]
  exact derived.open_before_ampersand

theorem closed_of_padded (padded : Padded (Derived NoQuote) cs) :
    scan ',' false cs = some false := by
  obtain ⟨middle, derived, same⟩ := padded.exists_marks
  rw [scan_congr rfl same]
  exact derived.closed rfl (by decide)

/-- So it is in joined arguments. -/
theorem open_before_ampersand {parts : List (List Char)}
    (each : ∀ part ∈ parts, Padded (Derived NoQuote) part)
    (eq : [','].intercalate parts = before ++ '&' :: after) :
    ∃ part ∈ splitCommas false (marks before), part.count '"' = 1 := by
  induction parts generalizing before with
  | nil => cases before <;> cases eq
  | cons part rest ih =>
    obtain ⟨first, others⟩ := List.forall_mem_cons.mp each
    cases rest with
    | nil =>
      rw [List.intercalate_singleton] at eq
      exact open_before_ampersand_of_padded (eq ▸ first)
    | cons second tail =>
      rw [List.intercalate_cons_cons, List.append_assoc] at eq
      rcases append_eq_append_cons eq with ⟨tail, inFirst⟩ | ⟨start, rfl, eqRest⟩
      · exact open_before_ampersand_of_padded (inFirst ▸ first)
      · cases start with
        | nil => cases (List.cons.inj eqRest).1
        | cons comma start =>
          obtain ⟨rfl, eqTail⟩ := List.cons.inj eqRest
          obtain ⟨found, mem, one⟩ := ih others eqTail
          have closed : scan ',' false (marks part) = some false := by
            rw [scan_marks rfl]
            exact closed_of_padded first
          have split : splitCommas false (marks (part ++ ',' :: start)) =
              marks part :: splitCommas false (marks start) := by
            rw [marks_append]
            exact splitCommas_append_comma closed
          exact ⟨found, split ▸ List.mem_cons_of_mem _ mem, one⟩

namespace ListDerived

variable {inside : List Char}

/-- The list is split into its arguments. -/
theorem derived_of_mem_split (derived : ListDerived NoQuote inside) :
    ∀ token ∈ Arg.split inside, Derived NoQuote token := by
  intro token mem
  unfold Arg.split at mem
  split at mem
  · cases mem
  · rename_i ink
    cases derived with
    | none blank => exact absurd blank ink
    | some nonempty each =>
      have separated := Separated.of_forall nonempty fun part mem => closed_of_padded (each part mem)
      rw [splitCommas_intercalate separated] at mem
      obtain ⟨part, memPart, rfl⟩ := List.mem_map.mp mem
      exact (each part memPart).trim fun _ derived => derived.trimmed

theorem open_before_ampersand (derived : ListDerived NoQuote (before ++ '&' :: after)) :
    ∃ part ∈ splitCommas false (marks before), part.count '"' = 1 := by
  generalize eq : before ++ '&' :: after = inside at derived
  cases derived with
  | none blank =>
    have mem : '&' ∈ inside := eq ▸ List.mem_append_right _ List.mem_cons_self
    cases List.all_eq_true.mp blank '&' mem
  | some _ each => exact Arg.open_before_ampersand each eq.symm

end ListDerived

end Arg

namespace Term

variable {t u : Term}

/-- No part between commas in a text of a term has just one quote in it. -/
theorem Written.count_quote (written : Written cs t) :
    ∀ part ∈ Arg.splitCommas false (Text.marks cs), part.count '"' ≠ 1 := by
  obtain @⟨_, _, inside, isName, blank, _, args⟩ := written
  rw [marks_layout isName _ blank, ← Arg.map_marks_splitCommas]
  refine List.forall_mem_map.mpr fun piece mem => ?_
  rw [count_marks]
  by_cases nothing : isBlankText inside = true
  · have noMarks : (Arg.splitCommas false inside).map Text.marks = [[]] := by
      rw [Arg.map_marks_splitCommas, marks_of_blank nothing]
      rfl
    have none : Text.marks piece = [] := by
      simpa [noMarks] using List.mem_map_of_mem (f := Text.marks) mem
    rw [← count_marks, none]
    exact Nat.zero_ne_one
  · have isToken : trim piece ∈ Arg.split inside := by
      rw [Arg.split, if_neg nothing]
      exact List.mem_map_of_mem mem
    obtain ⟨a, -, text⟩ := exists_mem_of_forall₂
      (show List.Forall₂ (flip Arg.Written) t.allArgs (Arg.split inside) from args.flip) isToken
    have some := text.count_quote
    rwa [← count_marks, marks_trim, count_marks] at some

/-- The reader finds the parentheses of a term. -/
theorem inside_of_shape? {name blanks inside word found : List Char} {primed marked : Bool}
    (isName : isRelationName name = true) (blank : blanks.all isBlank = true)
    (shape : shape? (layout name primed blanks inside) = some (word, marked, found)) :
    inside = found := by
  match name with
  | c :: rest =>
    obtain ⟨start, letters⟩ := Bool.and_eq_true_iff.mp isName
    have opened : trimStart (blanks ++ '(' :: (inside ++ [')'])) = '(' :: (inside ++ [')']) :=
      trimStart_append blank
    rw [layout, shape?_eq_some_iff start letters
      (isRelationRest_after_name primed inside blank)] at shape
    · obtain ⟨-, -, -, closed⟩ := shape
      rw [opened] at closed
      exact List.append_cancel_right (List.cons.inj closed).2
    · rintro - others prime
      rw [prime] at opened
      cases opened

namespace Derived

theorem trimmed (derived : Derived NoQuote cs) : Trimmed cs := by
  obtain ⟨isName, -, -⟩ := derived
  exact trimmed_layout isName _ _ _

/-- The strings that are read are those that are quoted. -/
theorem noQuote (derived : Derived NoQuote cs) (written : Written cs t) :
    ∀ s ∈ t.strings, '"' ∉ s.toList := by
  obtain @⟨name, blanks, inside, primed, isName, blank, args⟩ := derived
  generalize eq : layout name primed blanks inside = text at written
  obtain ⟨isRelation, blank', oneLine, tokens⟩ := written
  have shape : shape? (layout t.relation.toList t.isPrimed _ _) = _ :=
    shape?_layout isRelation blank' oneLine
  rw [← eq] at shape
  obtain rfl := inside_of_shape? isName blank shape
  intro s mem
  obtain ⟨token, memToken, text⟩ :=
    exists_mem_of_forall₂ tokens (List.mem_append_right _ (mem_strings.mp mem))
  exact (args.derived_of_mem_split token memToken).noQuote text

/-- The text of a term up to an ampersand in it is not one of a term. -/
theorem not_written {blanks : List Char} (derived : Derived NoQuote (before ++ '&' :: after))
    (blank : blanks.all isBlank = true) : ¬Written (trim (blanks ++ before)) u := by
  intro written
  generalize eq : before ++ '&' :: after = text at derived
  obtain @⟨name, spaces, inside, primed, isName, blankSpaces, args⟩ := derived
  have parts : (name ++ prime primed) ++ (spaces ++ ('(' :: inside ++ [')'])) =
      before ++ '&' :: after := by
    rw [eq]
    simp [layout]
  rcases append_eq_append_cons parts with ⟨rest, inName⟩ | ⟨fromSpaces, rfl, eqSpaces⟩
  · have own := isTermChar_name isName primed '&'
      (inName ▸ List.mem_append_right _ List.mem_cons_self)
    cases own
  rcases append_eq_append_cons eqSpaces with ⟨rest, inSpaces⟩ | ⟨fromParen, rfl, eqParen⟩
  · cases List.all_eq_true.mp blankSpaces '&' (inSpaces ▸ List.mem_append_right _ List.mem_cons_self)
  rcases append_eq_append_cons eqParen with ⟨rest, inArgs⟩ | ⟨gap, -, isParen⟩
  · cases fromParen with
    | nil => cases (List.cons.inj inArgs).1
    | cons paren start =>
      obtain ⟨rfl, rfl⟩ := List.cons.inj inArgs
      obtain ⟨part, mem, one⟩ := args.open_before_ampersand
      refine written.count_quote part ?_ one
      rw [marks_trim, marks_append, marks_of_blank blank, marks_append, marks_name isName,
        marks_append, marks_of_blank blankSpaces]
      exact mem
  · cases eq_of_singleton_eq_append_cons isParen

end Derived

/-- If the pieces between the ampersands of premises are texts of terms, no ampersand stands in a
premise. -/
theorem not_ampersand_of_pieces {premises : List (List Char)}
    (each : ∀ text ∈ premises, Padded (Derived NoQuote) text)
    (written : ∀ piece ∈ pieces '&' (['&'].intercalate premises), ∃ u, Written (trim piece) u) :
    ∀ text ∈ premises, '&' ∉ text := by
  induction premises with
  | nil => exact nofun
  | cons text rest ih =>
    obtain ⟨first, others⟩ := List.forall_mem_cons.mp each
    have noAmpersand : '&' ∉ text := by
      intro mem
      obtain ⟨before, after, rfl, free⟩ := List.eq_append_cons_of_mem mem
      obtain ⟨more, joined⟩ := exists_intercalate_cons ['&'] (before ++ '&' :: after) rest
      obtain ⟨blanks, start, tail, blank, rfl, derived⟩ := first.exists_split rfl
      rw [joined, List.append_assoc, List.cons_append, pieces_append_cons free] at written
      obtain ⟨u, text⟩ := written _ List.mem_cons_self
      exact derived.not_written blank text
    refine List.forall_mem_cons.mpr ⟨noAmpersand, ?_⟩
    cases rest with
    | nil => exact nofun
    | cons second tail =>
      rw [List.intercalate_cons_cons, List.append_assoc, List.singleton_append,
        pieces_append_cons noAmpersand] at written
      exact ih others fun piece mem => written piece (List.mem_cons_of_mem _ mem)

end Term

namespace Rule

variable {r : Rule} {body : List Char}

/-- If no quote is quoted in a text, none is found in a string constant. -/
theorem Derived.noQuote_of_readBody (derived : Derived NoQuote body)
    (accepted : readBody body = .ok (r.premises, r.conclusion)) :
    ∀ s ∈ r.strings, '"' ∉ s.toList := by
  obtain ⟨left, right, isCut, notRight, writtenPremises, writtenConclusion, -⟩ :=
    readBody_eq_ok_iff.mp accepted
  obtain @⟨premises, conclusion, some, each, last⟩ := derived
  have notLeft : ¬arrow <:+: left := not_infix_of_cut foreign_arrow.some isCut
  -- There is but one arrow in the text, so the reader cuts where the grammar does.
  have eq : left ++ (arrow ++ right) = ['&'].intercalate premises ++ (arrow ++ conclusion) := by
    rw [eq_of_cut isCut, List.append_assoc]
  obtain ⟨rfl, rfl⟩ := eq_of_append_pair (by decide) eq notLeft notRight
  have free : ∀ text ∈ premises, '&' ∉ text := by
    refine Term.not_ampersand_of_pieces each fun piece mem => ?_
    obtain ⟨u, -, text⟩ := exists_mem_of_forall₂ (List.Forall₂.flip writtenPremises) mem
    exact ⟨u, text⟩
  rw [pieces_intercalate some free] at writtenPremises
  have ofTerm {text : List Char} {t : Term} (padded : Padded (Term.Derived NoQuote) text)
      (written : Term.Written (trim text) t) : ∀ s ∈ t.strings, '"' ∉ s.toList :=
    (padded.trim fun _ derived => derived.trimmed).noQuote written
  intro s mem
  obtain ⟨t, memTerm, isArg⟩ := List.mem_flatMap.mp mem
  rcases List.mem_append.mp memTerm with isPremise | isConclusion
  · obtain ⟨text, memText, written⟩ := exists_mem_of_forall₂ writtenPremises isPremise
    exact ofTerm (each text memText) written s isArg
  · obtain rfl := List.mem_singleton.mp isConclusion
    exact ofTerm last writtenConclusion s isArg

end Rule

end ScoredChaining
