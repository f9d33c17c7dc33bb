import Mathlib.Data.List.Infix
import ScoredChaining.Document.Line
import ScoredChaining.Proofs.Rule.Written

/-!
Facts that are written on a line and read again.

* `FactLine.tokens?_intercalate`: words that no blank breaks are the tokens of the text that they are
  joined to. `FactLine.tokens?_trim`: blanks at the ends of a text do not matter.
* `FactLine.tokens?_line`: a comment begins at the first `#`, also within quotes, where it leaves no
  tokens at all.
* `FactLine.read_written`: a fact on a line is never misread. Whatever its strings hold, it reads as
  itself unless one of them holds a `#`; then the line is refused for an open quote.
-/

namespace ScoredChaining

open Text

variable {cs before after : List Char}

/-! ### Values on a line -/

namespace Value

variable {v : Value}

/-- The token that a value is written as: integers in decimal, strings in double quotes. -/
def token : Value → List Char
  | .int n => Decimal.showInt64 n
  | .str s => '"' :: (s.toList ++ ['"'])
  | .tuple items => (Value.tuple items).text.toList

/-- An integer, or a string without a double quote in it. -/
def Quotable : Value → Prop
  | .int _ => True
  | .str s => '"' ∉ s.toList
  | .tuple _ => False

instance : DecidablePred Quotable
  | .int _ => inferInstanceAs (Decidable True)
  | .str s => inferInstanceAs (Decidable ('"' ∉ s.toList))
  | .tuple _ => inferInstanceAs (Decidable False)

theorem word_showInt64 (n : Int64) : Word (Decimal.showInt64 n) :=
  word_of_readInt64? (Decimal.readInt64?_showInt64 n)

theorem token_ne_nil (quotable : v.Quotable) : v.token ≠ [] := by
  match v with
  | .int n => exact (word_showInt64 n).some
  | .str s => exact List.cons_ne_nil _ _

/-- A value is read from its token, whatever it looks like. -/
theorem ofToken_token (quotable : v.Quotable) : ofToken v.token = v := by
  match v with
  | .str s => simp [token, ofToken, unquoted?]
  | .int n =>
    have bare : unquoted? (Decimal.showInt64 n) = none := by
      unfold unquoted?
      split
      · rename_i rest eq
        cases (word_showInt64 n).all '"' (eq ▸ List.mem_cons_self)
      · rfl
    rw [token, ofToken, bare, Decimal.readInt64?_showInt64]

theorem map_ofToken_token {values : List Value} (quotable : ∀ v ∈ values, v.Quotable) :
    (values.map token).map ofToken = values := by
  rw [List.map_map]
  exact (List.map_congr_left fun v mem => ofToken_token (quotable v mem)).trans (List.map_id _)

end Value

namespace FactLine

/-! ### Tokens -/

/-- A word of a line: without blanks, quotes and hashes, or in double quotes. -/
inductive LineWord : List Char → Prop where
  | bare {word : List Char} : (∀ c ∈ word, isBlank c = false ∧ c ≠ '"' ∧ c ≠ '#') → LineWord word
  | quoted {cs : List Char} : '"' ∉ cs → LineWord ('"' :: (cs ++ ['"']))

/-- Names and integers have nothing in them that breaks a word. -/
theorem bare_of_word (word : Word cs) : ∀ c ∈ cs, isBlank c = false ∧ c ≠ '"' ∧ c ≠ '#' := by
  intro c mem
  have isWord := word.all c mem
  refine ⟨isBlank_of_isWord isWord, ?_, ?_⟩
  · rintro rfl
    cases isWord
  · rintro rfl
    cases isWord

theorem bare_of_isRelationName (name : isRelationName cs = true) :
    ∀ c ∈ cs, isBlank c = false ∧ c ≠ '"' ∧ c ≠ '#' :=
  bare_of_word (word_of_isRelationName name)

theorem lineWord_token {v : Value} (quotable : v.Quotable) : LineWord v.token := by
  match v with
  | .str s => exact .quoted quotable
  | .int n => exact .bare (bare_of_word (Value.word_showInt64 n))

/-- Within quotes all but a quote is part of the token. -/
theorem tokensFrom?_inside (noQuote : '"' ∉ cs) (reversed rest : List Char) :
    tokensFrom? true reversed (cs ++ rest) = tokensFrom? true (cs.reverse ++ reversed) rest := by
  induction cs generalizing reversed with
  | nil => rfl
  | cons c others ih =>
    obtain ⟨notQuote, noQuoteOthers⟩ := List.ne_and_not_mem_of_not_mem_cons noQuote
    simp [tokensFrom?, Ne.symm notQuote, ih noQuoteOthers (c :: reversed)]

/-- A word stays whole: a token that has begun goes on over it. -/
theorem LineWord.whole {word : List Char} (isWord : LineWord word) (reversed rest : List Char) :
    tokensFrom? false reversed (word ++ rest) =
      tokensFrom? false (word.reverse ++ reversed) rest := by
  cases isWord with
  | bare plain =>
    induction word generalizing reversed with
    | nil => rfl
    | cons c others ih =>
      obtain ⟨⟨ink, notQuote, -⟩, plainOthers⟩ := List.forall_mem_cons.mp plain
      simp [tokensFrom?, ink, notQuote, ih (c :: reversed) plainOthers]
  | @quoted cs noQuote =>
    have inside := tokensFrom?_inside noQuote ('"' :: reversed) ('"' :: rest)
    simpa [tokensFrom?] using inside

/-- A word ends at a blank. -/
theorem LineWord.tokens?_append {word : List Char} (isWord : LineWord word) (rest : List Char) :
    tokens? (word ++ ' ' :: rest) = (tokens? rest).map (closeToken word.reverse) := by
  have blank : isBlank ' ' = true := rfl
  rw [tokens?, isWord.whole, List.append_nil]
  simp [tokensFrom?, tokens?, blank]

theorem closeToken_reverse (word : List Char) (others : List (List Char)) :
    closeToken word.reverse others = [word].filter (· ≠ []) ++ others := by
  by_cases nothing : word = [] <;> simp [closeToken, nothing]

/-- The tokens of joined words are the words that are not empty. -/
theorem tokens?_intercalate {words : List (List Char)} (areWords : ∀ w ∈ words, LineWord w) :
    tokens? ([' '].intercalate words) = some (words.filter (· ≠ [])) := by
  induction words with
  | nil => rfl
  | cons word rest ih =>
    obtain ⟨isWord, areRest⟩ := List.forall_mem_cons.mp areWords
    have closed : (word :: rest).filter (· ≠ []) =
        closeToken word.reverse (rest.filter (· ≠ [])) := by
      rw [closeToken_reverse, ← List.filter_append, List.singleton_append]
    rw [closed]
    cases rest with
    | nil =>
      have whole := isWord.whole [] []
      rw [List.append_nil, List.append_nil] at whole
      rw [List.intercalate_singleton, tokens?, whole]
      rfl
    | cons second others =>
      rw [List.intercalate_cons_cons, List.append_assoc, List.singleton_append,
        isWord.tokens?_append, ih areRest]
      rfl

/-- Blanks in front of a text do not matter. -/
theorem tokens?_append_left (blank : before.all isBlank = true) :
    tokens? (before ++ cs) = tokens? cs := by
  induction before with
  | nil => rfl
  | cons c rest ih =>
    obtain ⟨isBlankFirst, blankRest⟩ := by simpa using blank
    have notQuote : c ≠ '"' := by
      rintro rfl
      cases isBlankFirst
    have dropped : closeToken [] = id := funext fun _ => rfl
    have ended := ih (by simpa using blankRest)
    rw [tokens?] at ended ⊢
    simp [tokensFrom?, isBlankFirst, notQuote, ended, dropped]

/-- Nor do blanks after it, within quotes or outside. -/
theorem tokensFrom?_append_blank (blank : after.all isBlank = true) (quoted : Bool)
    (reversed : List Char) :
    tokensFrom? quoted reversed (cs ++ after) = tokensFrom? quoted reversed cs := by
  induction cs generalizing quoted reversed with
  | cons c rest ih => simp only [List.cons_append, tokensFrom?, ih]
  | nil =>
    cases quoted with
    | true =>
      have noQuote : '"' ∉ after := fun mem => by cases List.all_eq_true.mp blank '"' mem
      have inside := tokensFrom?_inside noQuote reversed []
      rw [List.append_nil] at inside
      rw [List.nil_append, inside]
      rfl
    | false =>
      cases after with
      | nil => rfl
      | cons c rest =>
        obtain ⟨isBlankFirst, blankRest⟩ := by simpa using blank
        have notQuote : c ≠ '"' := by
          rintro rfl
          cases isBlankFirst
        have allBlank : rest.all isBlank = true := by simpa using blankRest
        have nothing : tokens? (rest ++ []) = tokens? [] := tokens?_append_left allBlank
        rw [List.append_nil, tokens?] at nothing
        simp [tokensFrom?, isBlankFirst, notQuote, nothing, tokens?, closeToken]

theorem tokens?_trim (cs : List Char) : tokens? (trim cs) = tokens? cs := by
  obtain ⟨before, after, blankBefore, blankAfter, eq⟩ := exists_trim cs
  calc tokens? (trim cs) = tokens? (before ++ (trim cs ++ after)) := by
        rw [tokens?_append_left blankBefore, tokens?, tokens?, tokensFrom?_append_blank blankAfter]
    _ = tokens? cs := by rw [← eq]

/-! ### Comments -/

theorem stripComment_append (after : List Char) (noHash : '#' ∉ before) :
    stripComment (before ++ '#' :: after) = trim before := by
  have first : ¬['#'] <:+: before ++ ['#'].dropLast := by
    simpa [List.singleton_infix_iff] using noHash
  have isCut : cut ['#'] (before ++ '#' :: after) = some (before, after) := cut_append after first
  rw [stripComment, isCut]

theorem stripComment_of_not_mem (noHash : '#' ∉ cs) : stripComment cs = trim cs := by
  have nowhere : cut ['#'] cs = none := by
    rw [← Option.not_isSome_iff_eq_none]
    intro occurs
    exact noHash ((List.singleton_infix_iff _ _).mp (occurs_iff.mp occurs))
  rw [stripComment, nowhere]

/-- What may follow a fact on its line: blanks, and a comment. -/
inductive LineEnd : List Char → Prop where
  | blank {cs : List Char} : cs.all isBlank = true → LineEnd cs
  | comment {before after : List Char} : before.all isBlank = true →
      LineEnd (before ++ '#' :: after)

theorem tokens?_stripComment {text ending : List Char} (isEnd : LineEnd ending)
    (noHash : '#' ∉ text) : tokens? (stripComment (text ++ ending)) = tokens? text := by
  have noHashUpTo {blanks : List Char} (blank : blanks.all isBlank = true) :
      '#' ∉ text ++ blanks := by
    intro mem
    rcases List.mem_append.mp mem with inText | inBlanks
    · exact noHash inText
    · cases List.all_eq_true.mp blank '#' inBlanks
  cases isEnd with
  | blank blank =>
    rw [stripComment_of_not_mem (noHashUpTo blank), tokens?_trim, tokens?,
      tokensFrom?_append_blank blank, tokens?]
  | comment blank =>
    rw [← List.append_assoc, stripComment_append _ (noHashUpTo blank), tokens?_trim, tokens?,
      tokensFrom?_append_blank blank, tokens?]

/-- Up to the first hash in joined words a quote is open. -/
theorem exists_open_before_hash {words : List (List Char)} (areWords : ∀ w ∈ words, LineWord w)
    (hash : ∃ w ∈ words, '#' ∈ w) : ∃ before after,
      [' '].intercalate words = before ++ '#' :: after ∧ '#' ∉ before ∧ tokens? before = none := by
  induction words with
  | nil => simp at hash
  | cons word rest ih =>
    obtain ⟨isWord, areRest⟩ := List.forall_mem_cons.mp areWords
    by_cases here : '#' ∈ word
    · obtain ⟨more, eq⟩ := exists_intercalate_cons [' '] word rest
      rw [eq]
      cases isWord with
      | bare plain => exact absurd rfl (plain '#' here).2.2
      | @quoted cs noQuote =>
        have inString : '#' ∈ cs := by simpa using here
        obtain ⟨start, after, rfl, noHash⟩ := List.eq_append_cons_of_mem inString
        have noQuoteStart : '"' ∉ start := fun mem => noQuote (List.mem_append_left _ mem)
        refine ⟨'"' :: start, after ++ '"' :: more, by simp, by simpa using noHash, ?_⟩
        have opened := tokensFrom?_inside noQuoteStart ['"'] []
        rw [List.append_nil] at opened
        simp [tokens?, tokensFrom?, opened]
    · have later : ∃ w ∈ rest, '#' ∈ w := by
        obtain ⟨w, mem, inWord⟩ := hash
        rcases List.mem_cons.mp mem with rfl | memRest
        · exact absurd inWord here
        · exact ⟨w, memRest, inWord⟩
      obtain ⟨before, after, eq, noHash, isOpen⟩ := ih areRest later
      cases rest with
      | nil => simp at later
      | cons second others =>
        refine ⟨word ++ ' ' :: before, after, ?_, by simpa using ⟨here, noHash⟩, ?_⟩
        · rw [List.intercalate_cons_cons, eq]
          simp
        · rw [isWord.tokens?_append, isOpen]
          rfl

/-- The tokens of a line of words, up to its comment. -/
theorem tokens?_line {words : List (List Char)} {ending : List Char}
    (areWords : ∀ w ∈ words, LineWord w) (isEnd : LineEnd ending) :
    tokens? (stripComment ([' '].intercalate words ++ ending)) =
      if ∃ w ∈ words, '#' ∈ w then none else some (words.filter (· ≠ [])) := by
  split_ifs with hash
  · obtain ⟨before, after, eq, noHash, isOpen⟩ := exists_open_before_hash areWords hash
    rw [eq, List.append_assoc, List.cons_append, stripComment_append _ noHash, tokens?_trim, isOpen]
  · have noHash : '#' ∉ [' '].intercalate words := by
      intro mem
      have free : ∀ c ∈ [' '], c ∉ ['#'] := by simp
      obtain ⟨w, memWord, occurs⟩ := exists_infix_of_infix_intercalate (List.cons_ne_nil _ _) free
        (List.cons_ne_nil _ _) ((List.singleton_infix_iff _ _).mpr mem)
      exact hash ⟨w, memWord, (List.singleton_infix_iff _ _).mp occurs⟩
    rw [tokens?_stripComment isEnd noHash, tokens?_intercalate areWords]

/-! ### Facts -/

/-- The commands that mention a fact. -/
inductive FactCommand where
  | schemaFact
  | fact
  | label
  deriving DecidableEq

namespace FactCommand

/-- The word for a command. -/
def word : FactCommand → List Char
  | .schemaFact => ['s', 'c', 'h', 'e', 'm', 'a']
  | .fact => ['x']
  | .label => ['y']

/-- What the command says about a fact. -/
def line : FactCommand → String → List Value → FactLine
  | .schemaFact => FactLine.schemaFact
  | .fact => FactLine.fact
  | .label => FactLine.label

end FactCommand

/-- The line of a command about a fact: the words with single blanks between them. -/
def written (command : FactCommand) (relation : String) (values : List Value) : List Char :=
  [' '].intercalate (command.word :: relation.toList :: values.map Value.token)

theorem ofTokens_word (n : Nat) (command : FactCommand) (relation : List Char)
    (tokens : List (List Char)) : ofTokens n command.word (relation :: tokens) =
      .ok (command.line (String.ofList relation) (tokens.map Value.ofToken)) := by
  cases command <;> rfl

theorem ofTokens_word_nil (n : Nat) (command : FactCommand) : ofTokens n command.word [] =
    .error (.malformed n (.missingRelation (String.ofList command.word))) := by
  cases command <;> rfl

theorem lineWord_command (command : FactCommand) : LineWord command.word := by
  refine .bare (bare_of_isRelationName ?_)
  cases command <;> rfl

/-- The tokens of a fact on a line. An empty name is no token. -/
theorem tokens?_written (command : FactCommand) {relation : String}
    (isName : ∀ c ∈ relation.toList, isBlank c = false ∧ c ≠ '"' ∧ c ≠ '#') {values : List Value}
    (quotable : ∀ v ∈ values, v.Quotable) {ending : List Char} (isEnd : LineEnd ending) :
    tokens? (stripComment (written command relation values ++ ending)) =
      if ∃ v ∈ values, '#' ∈ v.token then none
      else some (command.word ::
        ([relation.toList].filter (· ≠ []) ++ values.map Value.token)) := by
  have areTokens : ∀ w ∈ values.map Value.token, LineWord w :=
    List.forall_mem_map.mpr fun v mem => lineWord_token (quotable v mem)
  have areWords : ∀ w ∈ command.word :: relation.toList :: values.map Value.token, LineWord w :=
    List.forall_mem_cons.mpr ⟨lineWord_command command, List.forall_mem_cons.mpr
      ⟨.bare isName, areTokens⟩⟩
  have hash_iff : (∃ w ∈ command.word :: relation.toList :: values.map Value.token, '#' ∈ w) ↔
      ∃ v ∈ values, '#' ∈ v.token := by
    have notCommand : '#' ∉ command.word := by cases command <;> decide
    have notName : '#' ∉ relation.toList := fun mem => (isName '#' mem).2.2 rfl
    simp [notCommand, notName]
  have kept : (command.word :: relation.toList :: values.map Value.token).filter (· ≠ []) =
      command.word :: ([relation.toList].filter (· ≠ []) ++ values.map Value.token) := by
    have commandSome : command.word ≠ [] := by cases command <;> decide
    have tokensSome : (values.map Value.token).filter (· ≠ []) = values.map Value.token :=
      List.filter_eq_self.mpr (List.forall_mem_map.mpr fun v mem =>
        decide_eq_true (Value.token_ne_nil (quotable v mem)))
    rw [List.filter_cons_of_pos (by simpa using commandSome),
      ← List.singleton_append (l := values.map Value.token), List.filter_append, tokensSome]
  rw [written, tokens?_line areWords isEnd, kept]
  simp only [hash_iff]

/-- What is written about a fact is never misread. It reads as what was written, whatever the strings
look like, unless a hash is in one of them; then it is refused. If the relation has no name at all,
the first value stands in its place. -/
theorem read_written (n : Nat) (command : FactCommand) {relation : String}
    (isName : ∀ c ∈ relation.toList, isBlank c = false ∧ c ≠ '"' ∧ c ≠ '#') {values : List Value}
    (quotable : ∀ v ∈ values, v.Quotable) {ending : List Char} (isEnd : LineEnd ending) :
    ((∃ v ∈ values, '#' ∈ v.token) →
      read n (written command relation values ++ ending) = .error (.malformed n .openQuote)) ∧
    ((∀ v ∈ values, '#' ∉ v.token) →
      (relation ≠ "" → read n (written command relation values ++ ending) =
        .ok (some (command.line relation values))) ∧
      (relation = "" → ∀ first rest, values = first :: rest →
        read n (written command relation values ++ ending) =
          .ok (some (command.line (String.ofList first.token) rest))) ∧
      (relation = "" → values = [] → read n (written command relation values ++ ending) =
        .error (.malformed n (.missingRelation (String.ofList command.word))))) := by
  have tokens := tokens?_written command isName quotable isEnd
  refine ⟨fun hash => by rw [read, tokens, if_pos hash], fun noHash => ?_⟩
  rw [if_neg (by simpa using noHash)] at tokens
  refine ⟨fun some => ?_, fun none first rest eq => ?_, fun none eq => ?_⟩
  · have kept : [relation.toList].filter (· ≠ []) = [relation.toList] := by simpa using some
    rw [kept, List.singleton_append] at tokens
    simp only [read, tokens, ofTokens_word, Value.map_ofToken_token quotable,
      String.ofList_toList, Except.map]
  · subst none eq
    have back := Value.map_ofToken_token (List.forall_mem_cons.mp quotable).2
    rw [read, tokens]
    simp [ofTokens_word, back, Except.map]
  · subst none eq
    rw [read, tokens]
    simp [ofTokens_word_nil, Except.map]

/-- Strings that look like an integer and a type, with blanks and a line feed in them, and an empty
one. -/
def scruffyValues : List Value :=
  [.str "007", .str "", .str " <a>\t b\n", .int (-5)]

theorem read_written_scruffy :
    read 1 (written .fact "word-2" scruffyValues ++ [' ', '#', '"', '!']) =
        .ok (some (.fact "word-2" scruffyValues)) ∧
      read 2 (written .label "tag" [.int 1, .str "a #1"]) = .error (.malformed 2 .openQuote) ∧
      read 3 (written .schemaFact "" [.int 1, .str "a"]) = .ok (some (.schemaFact "1" [.str "a"])) ∧
      read 4 (written .fact "" []) = .error (.malformed 4 (.missingRelation "x")) := by
  have noEnd : LineEnd [] := .blank rfl
  have comment : LineEnd [' ', '#', '"', '!'] := @LineEnd.comment [' '] ['"', '!'] rfl
  refine ⟨?_, ?_, ?_, ?_⟩
  · exact ((read_written 1 .fact (bare_of_isRelationName (by decide +kernel)) (by decide +kernel)
      comment).2 (by decide +kernel)).1 (by decide +kernel)
  · have refused := (@read_written 2 .label "tag" (bare_of_isRelationName (by decide +kernel))
      [.int 1, .str "a #1"] (by decide +kernel) _ noEnd).1 (by decide +kernel)
    rwa [List.append_nil] at refused
  · have read := ((@read_written 3 .schemaFact "" (List.forall_mem_nil _)
      [.int 1, .str "a"] (by decide +kernel) _ noEnd).2 (by decide +kernel)).2.1 rfl _ _ rfl
    rwa [List.append_nil] at read
  · have refused := ((@read_written 4 .fact "" (List.forall_mem_nil _)
      [] (by decide +kernel) _ noEnd).2 (by decide +kernel)).2.2 rfl rfl
    rwa [List.append_nil] at refused

/-- Not every string that can be quoted can be read again. -/
theorem not_read_written_hash : ¬∀ (n : Nat) (command : FactCommand) (relation : String)
    (values : List Value), (∀ v ∈ values, v.Quotable) → relation ≠ "" →
      (∀ c ∈ relation.toList, isBlank c = false ∧ c ≠ '"' ∧ c ≠ '#') →
      read n (written command relation values) = .ok (some (command.line relation values)) := by
  intro reads
  have claimed := reads 1 .fact "r" [.str "a#b"] (by decide +kernel) (by decide +kernel)
    (bare_of_isRelationName (by decide +kernel))
  have actual : read 1 (written .fact "r" [.str "a#b"]) = .error (.malformed 1 .openQuote) := by
    decide +kernel
  rw [actual] at claimed
  cases claimed

end FactLine

end ScoredChaining
