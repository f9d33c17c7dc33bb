import Mathlib.Algebra.Group.Nat.Even
import ScoredChaining.Proofs.Rule.Grammar

/-!
What the reader of rules accepts.

* `Text.Outlined`: the outline of a text are the opening parentheses, the ampersands and the arrows
  outside of quotes. A term of the grammar has one parenthesis, so between those of two terms of a rule
  there is another mark.
* `Rule.SideBySide`: two terms follow each other with nothing but blanks between them.
  `Rule.Derived.not_sideBySide`: if no quote is quoted, no rule of the grammar has such terms.
* `Rule.derived_of_read`: an accepted text is one of the grammar just if no string constant of the rule
  has a quote in it, and then no two terms stand side by side.
-/

namespace ScoredChaining

open Text

variable {cs ds : List Char}

/-! ### Outlines -/

namespace Text

/-- The characters that stand outside of double quotes. -/
def bare (quoted : Bool) : List Char → List Char
  | [] => []
  | c :: rest =>
    if c = '"' then bare (!quoted) rest
    else if quoted then bare quoted rest
    else c :: bare quoted rest

/-- The character opens a list of arguments or stands between terms. -/
def isOutline (c : Char) : Bool :=
  c == '(' || c == '&' || c == '>'

/-- The quotes of the text are closed, and these are the opening parentheses, the ampersands and the
arrows outside of them. -/
structure Outlined (cs outline : List Char) : Prop where
  closed : Even (cs.count '"')
  outline : (bare false cs).filter isOutline = outline

/-- A text with closed quotes does not change what is quoted after it. -/
theorem bare_append (quoted : Bool) (cs ds : List Char) : bare quoted (cs ++ ds) =
    bare quoted cs ++ bare (if Even (cs.count '"') then quoted else !quoted) ds := by
  induction cs generalizing quoted with
  | nil => rfl
  | cons c rest ih =>
    by_cases quote : c = '"'
    · subst quote
      simp only [List.cons_append, bare, if_true, List.count_cons_self, Nat.even_add_one, ih]
      by_cases even : Even (rest.count '"') <;> simp [even]
    · simp only [List.cons_append, bare, if_neg quote, List.count_cons_of_ne quote, ih]
      cases quoted <;> rfl

theorem bare_of_not_mem (noQuote : '"' ∉ cs) (quoted : Bool) :
    bare quoted cs = if quoted then [] else cs := by
  induction cs with
  | nil => cases quoted <;> rfl
  | cons c rest ih =>
    obtain ⟨notQuote, noQuoteRest⟩ := List.ne_and_not_mem_of_not_mem_cons noQuote
    rw [bare, if_neg (Ne.symm notQuote), ih noQuoteRest]
    cases quoted <;> rfl

theorem filter_bare_append (closed : Even (cs.count '"')) (ds : List Char) :
    (bare false (cs ++ ds)).filter isOutline =
      (bare false cs).filter isOutline ++ (bare false ds).filter isOutline := by
  rw [bare_append, if_pos closed, List.filter_append]

namespace Outlined

variable {m k : List Char}

theorem filter_append (outlined : Outlined cs m) (ds : List Char) :
    (bare false (cs ++ ds)).filter isOutline = m ++ (bare false ds).filter isOutline := by
  rw [filter_bare_append outlined.closed, outlined.outline]

theorem append (first : Outlined cs m) (second : Outlined ds k) : Outlined (cs ++ ds) (m ++ k) := by
  constructor
  · rw [List.count_append]
    exact first.closed.add second.closed
  · rw [first.filter_append, second.outline]

/-- A text without quotes. -/
theorem of_not_mem (noQuote : '"' ∉ cs) : Outlined cs (cs.filter isOutline) := by
  constructor
  · rw [List.count_eq_zero_of_not_mem noQuote]
    exact Even.zero
  · rw [bare_of_not_mem noQuote]
    rfl

/-- Characters of a kind that neither quotes nor marks of an outline are of. -/
theorem of_all {kind : Char → Bool} (free : ['"', '(', '&', '>'].any kind = false)
    (all : ∀ c ∈ cs, kind c = true) : Outlined cs [] := by
  have foreign : ∀ c ∈ cs, c ∉ ['"', '(', '&', '>'] := fun c mem isFree =>
    List.any_eq_false.mp free c isFree (all c mem)
  have none : cs.filter isOutline = [] := by
    refine List.filter_eq_nil_iff.mpr fun c mem outline => foreign c mem ?_
    simp only [isOutline, Bool.or_eq_true, beq_iff_eq, or_assoc] at outline
    simp [outline]
  rw [← none]
  exact of_not_mem fun mem => foreign '"' mem List.mem_cons_self

theorem of_word (word : Word cs) : Outlined cs [] :=
  of_all (by decide) word.all

theorem of_blank (blank : cs.all isBlank = true) : Outlined cs [] :=
  of_all (by decide) (List.all_eq_true.mp blank)

/-- Nothing that is quoted is part of an outline. -/
theorem quotation (noQuote : '"' ∉ cs) : Outlined ('"' :: (cs ++ ['"'])) [] := by
  have count : cs.count '"' = 0 := List.count_eq_zero_of_not_mem noQuote
  constructor
  · rw [List.count_cons_self, List.count_append, count]
    decide
  · have inside : bare false ('"' :: (cs ++ ['"'])) = bare true (cs ++ ['"']) := rfl
    have even : Even (cs.count '"') := count ▸ Even.zero
    rw [inside, bare_append, if_pos even, bare_of_not_mem noQuote]
    rfl

/-- Blanks around a text do not change its outline. -/
theorem padded {Kind : List Char → Prop} (outlined : ∀ cs, Kind cs → Outlined cs m)
    (isPadded : Padded Kind cs) : Outlined cs m := by
  obtain ⟨before, middle, after, blankBefore, blankAfter, rfl, kind⟩ := isPadded
  have whole := (of_blank blankBefore).append ((outlined middle kind).append (of_blank blankAfter))
  rwa [List.append_nil, List.nil_append] at whole

/-- Joined texts that have the same outline. -/
theorem intercalate {sep : List Char} {parts : List (List Char)} (separator : Outlined sep k)
    (each : ∀ part ∈ parts, Outlined part m) :
    Outlined (sep.intercalate parts) (k.intercalate (parts.map fun _ => m)) := by
  induction parts with
  | nil => exact of_not_mem List.not_mem_nil
  | cons part rest ih =>
    obtain ⟨first, others⟩ := List.forall_mem_cons.mp each
    cases rest with
    | nil => simpa using first
    | cons second tail =>
      have joined := (first.append separator).append (ih others)
      simpa only [List.map_cons, List.intercalate_cons_cons] using joined

end Outlined

end Text

namespace Arg

theorem Derived.outlined (derived : Derived NoQuote cs) : Outlined cs [] := by
  rcases derived.cases_word with word | ⟨content, noQuote, rfl⟩
  · exact .of_word word
  · exact .quotation noQuote

theorem ListDerived.outlined (derived : ListDerived NoQuote cs) : Outlined cs [] := by
  cases derived with
  | none blank => exact .of_blank blank
  | @some parts _ each =>
    have comma : Outlined [','] [] := .of_not_mem (by decide)
    have joined := comma.intercalate fun part mem =>
      Outlined.padded (fun _ derived => Derived.outlined derived) (each part mem)
    have nothing (n : Nat) : [].intercalate (List.replicate n ([] : List Char)) = [] := by
      induction n with
      | zero => rfl
      | succ n ih => cases n <;> simp_all [List.replicate_succ, List.intercalate_cons_cons]
    rwa [List.map_const', nothing] at joined

end Arg

/-- The outline of a term is one parenthesis. -/
theorem Term.Derived.outlined (derived : Term.Derived NoQuote cs) : Outlined cs ['('] := by
  obtain @⟨name, blanks, inside, primed, isName, blank, args⟩ := derived
  have isPrime : Outlined (prime primed) [] := by cases primed <;> exact .of_not_mem (by decide)
  have opening : Outlined ['('] ['('] := .of_not_mem (by decide)
  have closing : Outlined [')'] [] := .of_not_mem (by decide)
  exact (Outlined.of_word (word_of_isRelationName isName)).append (isPrime.append
    ((Outlined.of_blank blank).append (opening.append (args.outlined.append closing))))

namespace Rule

variable {r : Rule} {body : List Char}

/-- Two terms follow each other with nothing but blanks between them, and not within quotes. -/
def SideBySide (body : List Char) : Prop :=
  ∃ before first blanks second after,
    body = before ++ (first ++ (blanks ++ (second ++ after))) ∧ Even (before.count '"') ∧
      Term.Derived NoQuote first ∧ blanks.all isBlank = true ∧ Term.Derived NoQuote second

/-- Between the parentheses that open two terms there is an ampersand or an arrow. -/
theorem Derived.outlined (derived : Derived NoQuote body) :
    ∃ outline, Outlined body outline ∧ ¬['(', '('] <:+: outline := by
  obtain @⟨premises, conclusion, some, each, last⟩ := derived
  have term : ∀ cs, Term.Derived NoQuote cs → Outlined cs ['('] := fun _ term => term.outlined
  have ampersand : Outlined ['&'] ['&'] := .of_not_mem (by decide)
  have isArrow : Outlined arrow ['>'] := .of_not_mem (by decide)
  have joined := ampersand.intercalate fun text mem => Outlined.padded term (each text mem)
  refine ⟨_, joined.append (isArrow.append (Outlined.padded term last)), ?_⟩
  have alone : ¬['(', '('] <:+: ['('] := fun occurs => absurd occurs.length_le (by decide)
  rw [List.singleton_append, infix_append_cons_iff (by decide)]
  rintro (inPremises | inConclusion)
  · have free : ∀ c ∈ ['&'], c ∉ ['(', '('] := by simp
    obtain ⟨part, mem, inPart⟩ := exists_infix_of_infix_intercalate (List.cons_ne_nil _ _) free
      (List.cons_ne_nil _ _) inPremises
    obtain ⟨_, _, rfl⟩ := List.mem_map.mp mem
    exact alone inPart
  · exact alone inConclusion

theorem Derived.not_sideBySide (derived : Derived NoQuote body) : ¬SideBySide body := by
  rintro ⟨before, first, blanks, second, after, rfl, closed, isFirst, blank, isSecond⟩
  obtain ⟨outline, outlined, apart⟩ := derived.outlined
  refine apart ?_
  rw [← outlined.outline, filter_bare_append closed, isFirst.outlined.filter_append,
    (Outlined.of_blank blank).filter_append, isSecond.outlined.filter_append]
  exact ⟨(bare false before).filter isOutline, (bare false after).filter isOutline, by simp⟩

/-! ### What the reader accepts -/

/-- The reader accepts texts of the grammar only, up to what may be quoted: there stand the string
constants of the rule. The text is as the grammar has it just if none of them has a quote in it, and
then no two terms stand side by side in it. -/
theorem derived_of_read {text : String} (accepted : read text = .ok r) :
    let body := (stripComment text.toList).1
    Derived (fun cs => ∃ s ∈ r.strings, s.toList = cs) body ∧
      (Derived NoQuote body ↔ ∀ s ∈ r.strings, '"' ∉ s.toList) ∧
      ((∀ s ∈ r.strings, '"' ∉ s.toList) → ¬SideBySide body) := by
  intro body
  have acceptedBody : readBody body = .ok (r.premises, r.conclusion) :=
    (readLine_eq_ok_iff.mp accepted).1
  have derived (noQuote : ∀ s ∈ r.strings, '"' ∉ s.toList) : Derived NoQuote body :=
    derived_of_readBody acceptedBody noQuote
  exact ⟨derived_of_readBody acceptedBody fun s mem => ⟨s, mem, rfl⟩,
    ⟨fun strict => strict.noQuote_of_readBody acceptedBody, derived⟩,
    fun noQuote => (derived noQuote).not_sideBySide⟩

/-- A prime, a sign, blanks, an empty list of arguments, and two terms side by side within quotes. -/
def quotingText : String :=
  "edge-1'( f , +007,\"b(x) c(y), #\" )&tag( )=>  out( f ) # done"

/-- The rule in `quotingText`. -/
def quotingRule : Rule where
  premises :=
    [⟨"edge-1", some "f", [.const (.int 7), .const (.str "b(x) c(y), #")]⟩, ⟨"tag", none, []⟩]
  conclusion := ⟨"out", none, [.var "f"]⟩
  comment := some "done"

theorem derived_of_read_quoting : read quotingText = .ok quotingRule ∧
    (∀ s ∈ quotingRule.strings, '"' ∉ s.toList) ∧
    Derived NoQuote (stripComment quotingText.toList).1 ∧
    ¬SideBySide (stripComment quotingText.toList).1 := by
  have accepted : read quotingText = .ok quotingRule := by decide +kernel
  have noQuote : ∀ s ∈ quotingRule.strings, '"' ∉ s.toList := by decide +kernel
  obtain ⟨-, strict, apart⟩ := derived_of_read accepted
  exact ⟨accepted, noQuote, strict.mpr noQuote, apart noQuote⟩

/-- Two terms side by side. -/
def adjacentText : String :=
  "a(\"x\") b(\"y\") => c(z)"

/-- They are read as one, with a quoted text that reaches from the first into the second. -/
def adjacentRule : Rule where
  premises := [⟨"a", none, [.const (.str "x\") b(\"y")]⟩]
  conclusion := ⟨"c", none, [.var "z"]⟩
  comment := none

theorem sideBySide_adjacent : SideBySide (stripComment adjacentText.toList).1 := by
  have term (name inside : Char) (isName : isNameStart name = true) (noQuote : inside ≠ '"') :
      Term.Derived NoQuote [name, '(', '"', inside, '"', ')'] := by
    have content : NoQuote [inside] := by simpa [NoQuote] using Ne.symm noQuote
    have argument : Padded (Arg.Derived NoQuote) ['"', inside, '"'] :=
      ⟨[], _, [], rfl, rfl, rfl, .quoted content⟩
    have list : Arg.ListDerived NoQuote ['"', inside, '"'] :=
      .some (List.cons_ne_nil _ []) (List.forall_mem_singleton.mpr argument)
    exact @Term.Derived.mk _ [name] [] _ false (by simp [isRelationName, isName]) rfl list
  exact ⟨[], _, [' '], _, " => c(z)".toList, by decide, by decide,
    term 'a' 'x' rfl (by decide), rfl, term 'b' 'y' rfl (by decide)⟩

/-- Not everything that the reader accepts is as the grammar has it. -/
theorem not_derived_adjacent :
    ¬∀ text r, read text = .ok r → Derived NoQuote (stripComment text.toList).1 := by
  intro grammatical
  have accepted : read adjacentText = .ok adjacentRule := by decide +kernel
  exact (grammatical adjacentText adjacentRule accepted).not_sideBySide sideBySide_adjacent

end Rule

end ScoredChaining
