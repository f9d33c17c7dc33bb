import Mathlib.Data.List.Forall2
import ScoredChaining.Proofs.Decimal.Integer
import ScoredChaining.Proofs.Rule.Quotes
import ScoredChaining.Proofs.Text.Cutting

/-!
The texts that arguments and terms are read from.

* `Arg.Written`, `Term.Written`: the trimmed text is one of an argument, or of a term.
  `Arg.read?_eq_some_iff` and `Term.read_eq_ok_iff`: the reader accepts just these texts.
* `Term.Written.marks`: such a text has the quotes, commas and hashes of the text that the term is
  printed as. `Term.Written.infix_of_mem`: the string constants stand in it as they are.
-/

namespace ScoredChaining

open Text

/-! ### Related lists -/

section Related

variable {α β γ : Type} {R : α → β → Prop} {l : List α} {u : List β}

theorem exists_mem_of_forall₂ {b : β} (related : List.Forall₂ R l u) (mem : b ∈ u) :
    ∃ a ∈ l, R a b := by
  induction related with
  | nil => cases mem
  | cons first _ ih =>
    rcases List.mem_cons.mp mem with rfl | later
    · exact ⟨_, List.mem_cons_self, first⟩
    · obtain ⟨a, memRest, relatedRest⟩ := ih later
      exact ⟨a, List.mem_cons_of_mem _ memRest, relatedRest⟩

theorem map_eq_of_forall₂ {f : α → γ} {g : β → γ} (related : List.Forall₂ R l u)
    (same : ∀ a b, R a b → f a = g b) : l.map f = u.map g := by
  rw [← List.forall₂_eq_eq_eq, List.forall₂_map_left_iff, List.forall₂_map_right_iff]
  exact related.imp same

end Related

/-! ### Words -/

/-- The character may stand in a name or in an integer. -/
def isWord (c : Char) : Bool :=
  isRelationRest c || c == '+'

/-- A nonempty text of such characters. -/
structure Text.Word (cs : List Char) : Prop where
  some : cs ≠ []
  all : ∀ c ∈ cs, isWord c = true

/-- The name of a relation. -/
def isRelationName : List Char → Bool
  | [] => false
  | c :: rest => isNameStart c && rest.all isRelationRest

section Words

variable {c : Char} {cs : List Char}

theorem isWord_of_isRelationRest (rest : isRelationRest c = true) : isWord c = true := by
  simp [isWord, rest]

theorem isRelationRest_of_isNameRest (rest : isNameRest c = true) : isRelationRest c = true := by
  simp [isRelationRest, rest]

theorem isNameRest_of_isNameStart (start : isNameStart c = true) : isNameRest c = true := by
  simp only [isNameStart, isNameRest, Char.isAlphanum, Bool.or_eq_true] at start ⊢
  exact start.imp_left .inl

theorem isRelationRest_of_isNameStart (start : isNameStart c = true) : isRelationRest c = true :=
  isRelationRest_of_isNameRest (isNameRest_of_isNameStart start)

theorem isWord_of_isNumeral (numeral : Decimal.isNumeral c = true) : isWord c = true := by
  simp only [Decimal.isNumeral, Decimal.isDigit_eq, Bool.or_eq_true] at numeral
  simp only [isWord, isRelationRest, isNameRest, Char.isAlphanum, Bool.or_eq_true]
  tauto

theorem toNat_of_isAlpha (alpha : c.isAlpha = true) :
    65 ≤ c.toNat ∧ c.toNat ≤ 90 ∨ 97 ≤ c.toNat ∧ c.toNat ≤ 122 := by
  rcases Bool.or_eq_true_iff.mp alpha with upper | lower
  · obtain ⟨least, greatest⟩ := of_decide_eq_true upper
    exact .inl ⟨least, greatest⟩
  · obtain ⟨least, greatest⟩ := Bool.and_eq_true_iff.mp lower
    exact .inr ⟨of_decide_eq_true least, of_decide_eq_true greatest⟩

theorem toNat_of_isDigit (digit : c.isDigit = true) : 48 ≤ c.toNat ∧ c.toNat ≤ 57 := by
  obtain ⟨least, greatest⟩ := Bool.and_eq_true_iff.mp digit
  exact ⟨of_decide_eq_true least, of_decide_eq_true greatest⟩

/-- What begins a name does not begin an integer. -/
theorem isNumeral_of_isNameStart (start : isNameStart c = true) : Decimal.isNumeral c = false := by
  rw [Bool.eq_false_iff]
  intro numeral
  simp only [isNameStart, Bool.or_eq_true, beq_iff_eq] at start
  rcases start with alpha | rfl
  · simp only [Decimal.isNumeral, Decimal.isDigit_eq, Bool.or_eq_true, beq_iff_eq] at numeral
    have letter := toNat_of_isAlpha alpha
    rcases numeral with (rfl | rfl) | digit
    · cases alpha
    · cases alpha
    · have figure := toNat_of_isDigit digit
      omega
  · cases numeral

/-- Words are of printable ASCII characters. -/
theorem toNat_of_isWord (word : isWord c = true) : 33 ≤ c.toNat ∧ c.toNat ≤ 126 := by
  simp only [isWord, isRelationRest, isNameRest, Char.isAlphanum, Bool.or_eq_true,
    beq_iff_eq] at word
  rcases word with ((((alpha | digit) | rfl) | rfl) | rfl)
  · have letter := toNat_of_isAlpha alpha
    omega
  · have figure := toNat_of_isDigit digit
    omega
  all_goals decide

theorem isBlank_of_isWord (word : isWord c = true) : isBlank c = false := by
  have printable := toNat_of_isWord word
  rw [Bool.eq_false_iff]
  intro blank
  simp only [isBlank, Bool.or_eq_true, Bool.and_eq_true, decide_eq_true_eq, beq_iff_eq] at blank
  omega

theorem isMark_of_isWord (word : isWord c = true) : isMark c = false := by
  rw [Bool.eq_false_iff]
  intro mark
  simp only [isMark, Bool.or_eq_true, beq_iff_eq] at mark
  rcases mark with (rfl | rfl) | rfl <;> revert word <;> decide

theorem Text.Word.trimmed (word : Word cs) : Trimmed cs :=
  .of_forall fun c mem => isBlank_of_isWord (word.all c mem)

theorem Text.Word.marks (word : Word cs) : marks cs = [] :=
  marks_of_forall fun c mem => isMark_of_isWord (word.all c mem)

theorem word_of_isRelationName (name : isRelationName cs = true) : Word cs := by
  match cs with
  | c :: rest =>
    obtain ⟨start, others⟩ := Bool.and_eq_true_iff.mp name
    refine ⟨List.cons_ne_nil _ _, List.forall_mem_cons.mpr ⟨?_, fun d mem => ?_⟩⟩
    · exact isWord_of_isRelationRest (isRelationRest_of_isNameStart start)
    · exact isWord_of_isRelationRest (List.all_eq_true.mp others d mem)

/-- A variable's name could be one of a relation. -/
theorem isRelationName_of_isVariableName (name : isVariableName cs = true) :
    isRelationName cs = true := by
  match cs with
  | c :: rest =>
    obtain ⟨start, others⟩ := Bool.and_eq_true_iff.mp name
    refine Bool.and_eq_true_iff.mpr ⟨start, List.all_eq_true.mpr fun d mem => ?_⟩
    exact isRelationRest_of_isNameRest (List.all_eq_true.mp others d mem)

theorem word_of_isVariableName (name : isVariableName cs = true) : Word cs :=
  word_of_isRelationName (isRelationName_of_isVariableName name)

theorem word_of_readInt64? {n : Int64} (read : Decimal.readInt64? cs = some n) : Word cs := by
  obtain ⟨some, numerals⟩ := Decimal.isNumeral_of_readInt64? read
  exact ⟨some, fun c mem => isWord_of_isNumeral (numerals c mem)⟩

theorem readInt64?_of_isVariableName (name : isVariableName cs = true) :
    Decimal.readInt64? cs = none := by
  rw [Option.eq_none_iff_forall_ne_some]
  intro n read
  match cs with
  | c :: rest =>
    have start : isNameStart c = true := (Bool.and_eq_true_iff.mp name).1
    have numeral := (Decimal.isNumeral_of_readInt64? read).2 c List.mem_cons_self
    rw [isNumeral_of_isNameStart start] at numeral
    cases numeral

end Words

/-! ### Arguments -/

namespace Arg

variable {cs : List Char} {a : Arg}

/-- The string, if the argument is one. -/
def string? : Arg → Option String
  | .const (.str s) => some s
  | _ => none

theorem string?_eq_some_iff {s : String} : a.string? = some s ↔ a = .const (.str s) := by
  rcases a with _ | (_ | _ | _) <;> simp [string?]

/-- The trimmed text is one of the argument. -/
inductive Written : List Char → Arg → Prop where
  | var {name : String} : isVariableName name.toList = true → Written name.toList (.var name)
  | int {cs : List Char} {n : Int64} : Decimal.readInt64? cs = some n → Written cs (.const (.int n))
  | str (s : String) : Written ('"' :: (s.toList ++ ['"'])) (.const (.str s))

@[simp] theorem text_var (name : String) : (Arg.var name).text = name := rfl

theorem toList_text_str (s : String) :
    (Arg.const (.str s)).text.toList = '"' :: (s.toList ++ ['"']) := by
  simp [text]

theorem toList_text_int (n : Int64) :
    (Arg.const (.int n)).text.toList = Decimal.showInt64 n := by
  simp [text, Value.text]

theorem read?_quotation (s : String) :
    read? ('"' :: (s.toList ++ ['"'])) = some (.const (.str s)) := by
  simp [read?, Value.ofToken, Value.unquoted?]

theorem read?_of_word (word : Word cs) :
    read? cs = match Decimal.readInt64? cs with
      | some n => some (.const (.int n))
      | none => if isVariableName cs then some (.var (String.ofList cs)) else none := by
  unfold read?
  split
  · exact absurd (word.all '"' List.mem_cons_self) (by decide)
  · rfl

theorem read?_eq_some_iff : read? cs = some a ↔ Written cs a := by
  constructor
  · intro read
    unfold read? at read
    split at read
    case h_1 rest =>
      split at read
      case isTrue ends =>
        have closed : rest.dropLast ++ ['"'] = rest := List.dropLast_append_getLast? _ ends
        obtain rfl : .const (Value.ofToken ('"' :: rest)) = a := by simpa using read
        have written := Written.str (String.ofList rest.dropLast)
        rw [String.toList_ofList, closed] at written
        simpa [Value.ofToken, Value.unquoted?, ends] using written
      case isFalse => cases read
    case h_2 =>
      split at read
      case h_1 n isInt =>
        obtain rfl := Option.some.inj read
        exact .int isInt
      case h_2 =>
        split at read
        case isTrue name =>
          obtain rfl := Option.some.inj read
          have written := @Written.var (String.ofList cs) (by rwa [String.toList_ofList])
          rwa [String.toList_ofList] at written
        case isFalse => cases read
  · intro written
    cases written with
    | var name =>
      rw [read?_of_word (word_of_isVariableName name), readInt64?_of_isVariableName name]
      simp [name]
    | int read => rw [read?_of_word (word_of_readInt64? read), read]
    | str s => exact read?_quotation s

theorem readAll_eq_ok_iff {tokens : List (List Char)} {args : List Arg} :
    readAll tokens = .ok args ↔ List.Forall₂ Written tokens args := by
  induction tokens generalizing args with
  | nil => simp [readAll, eq_comm]
  | cons token rest ih =>
    rw [List.forall₂_cons_left_iff]
    simp only [← read?_eq_some_iff, ← ih, readAll]
    cases read? token <;> cases readAll rest <;> simp [Except.map, eq_comm]

/-! What such a text has in common with the one that the argument is printed as. -/

theorem Written.ne_nil (written : Written cs a) : cs ≠ [] := by
  cases written with
  | var name => exact (word_of_isVariableName name).some
  | int read => exact (word_of_readInt64? read).some
  | str => exact List.cons_ne_nil _ _

theorem Written.trimmed (written : Written cs a) : Trimmed cs := by
  cases written with
  | var name => exact (word_of_isVariableName name).trimmed
  | int read => exact (word_of_readInt64? read).trimmed
  | str => exact .of_ends rfl rfl

theorem Written.marks (written : Written cs a) : marks a.text.toList = marks cs := by
  cases written with
  | var => rfl
  | @int _ n read =>
    rw [toList_text_int, (word_of_readInt64? (Decimal.readInt64?_showInt64 n)).marks,
      (word_of_readInt64? read).marks]
  | str s => rw [toList_text_str]

theorem marks_eq_of_written {tokens : List (List Char)} {args : List Arg}
    (written : List.Forall₂ Written tokens args) :
    tokens.map Text.marks = args.map fun a => Text.marks a.text.toList :=
  map_eq_of_forall₂ written fun _ _ text => text.marks.symm

/-! ### The text between the parentheses -/

theorem intercalate_marks_split (inside : List Char) :
    [','].intercalate ((split inside).map Text.marks) = Text.marks inside := by
  unfold split
  split
  case isTrue blank => rw [marks_of_blank blank]; rfl
  case isFalse =>
    have trimmed : Text.marks ∘ trim = Text.marks := funext marks_trim
    have joined := marks_intercalate [','] (splitCommas false inside)
    rw [intercalate_splitCommas] at joined
    rw [List.map_map, trimmed, joined]
    rfl

theorem infix_of_mem_split {token inside : List Char} (mem : token ∈ split inside) :
    token <:+: inside := by
  unfold split at mem
  split at mem
  case isTrue => cases mem
  case isFalse =>
    obtain ⟨piece, memPiece, rfl⟩ := List.mem_map.mp mem
    have inJoined : piece <:+: [','].intercalate (splitCommas false inside) :=
      infix_intercalate memPiece
    rw [intercalate_splitCommas] at inJoined
    exact (isInfix_trim piece).trans inJoined

end Arg

/-! ### Terms -/

namespace Term

variable {cs name blanks inside : List Char} {primed : Bool} {t : Term}

/-- The strings among the arguments. -/
def strings (t : Term) : List String :=
  t.args.filterMap Arg.string?

theorem mem_strings {s : String} : s ∈ t.strings ↔ .const (.str s) ∈ t.args := by
  rw [strings, List.mem_filterMap]
  constructor
  · rintro ⟨a, mem, isString⟩
    rwa [← Arg.string?_eq_some_iff.mp isString]
  · exact fun mem => ⟨_, mem, rfl⟩

/-- The arguments, the variable for the fact itself first. -/
def allArgs (t : Term) : List Arg :=
  t.factVariable.toList.map .var ++ t.args

/-- What stands between the parentheses when the term is printed. -/
def argsText (t : Term) : List Char :=
  [','].intercalate (t.allArgs.map fun a => a.text.toList)

/-- The prime of a primed term. -/
def prime (primed : Bool) : List Char :=
  if primed then ['\''] else []

/-- A name, a prime, blanks, and a text in parentheses. -/
def layout (name : List Char) (primed : Bool) (blanks inside : List Char) : List Char :=
  name ++ (prime primed ++ (blanks ++ '(' :: (inside ++ [')'])))

/-- The trimmed text is one of the term. -/
inductive Written : List Char → Term → Prop where
  | mk {t : Term} {blanks inside : List Char} : isRelationName t.relation.toList = true →
      blanks.all isBlank = true → '\n' ∉ inside →
      List.Forall₂ Arg.Written (Arg.split inside) t.allArgs →
      Written (layout t.relation.toList t.isPrimed blanks inside) t

theorem toList_text (t : Term) :
    t.text.toList = layout t.relation.toList t.isPrimed [] t.argsText := by
  obtain ⟨relation, fact, args⟩ := t
  cases fact <;>
    simp [text, layout, prime, isPrimed, argsText, allArgs, String.toList_intercalate,
      Function.comp_def]

/-- A name is read up to what follows it. -/
theorem span_name {rest after : List Char} (letters : rest.all isRelationRest = true)
    (stops : ∀ c ∈ after.head?, isRelationRest c = false) :
    (rest ++ after).takeWhile isRelationRest = rest ∧
      (rest ++ after).dropWhile isRelationRest = after := by
  have taken : (rest ++ after).takeWhile isRelationRest = rest ++ after.takeWhile isRelationRest :=
    List.takeWhile_append_of_pos (List.all_eq_true.mp letters)
  have dropped : (rest ++ after).dropWhile isRelationRest = after.dropWhile isRelationRest :=
    List.dropWhile_append_of_pos (List.all_eq_true.mp letters)
  cases after with
  | nil => simp_all
  | cons c others =>
    have stop : isRelationRest c = false := stops c rfl
    simp [taken, dropped, stop]

/-- No letter of a name begins what follows the name of a term. -/
theorem isRelationRest_after_name (primed : Bool) (inside : List Char)
    (blank : blanks.all isBlank = true) :
    ∀ c ∈ (prime primed ++ (blanks ++ '(' :: (inside ++ [')']))).head?,
      isRelationRest c = false := by
  intro c first
  cases primed with
  | true =>
    obtain rfl : '\'' = c := Option.some.inj first
    rfl
  | false =>
    cases blanks with
    | nil =>
      obtain rfl : '(' = c := Option.some.inj first
      rfl
    | cons d rest =>
      obtain rfl : d = c := Option.some.inj first
      rw [Bool.eq_false_iff]
      intro letter
      have ink := isBlank_of_isWord (isWord_of_isRelationRest letter)
      rw [List.all_eq_true.mp blank d List.mem_cons_self] at ink
      cases ink

theorem exists_span_name (text : List Char) : ∃ rest primed after,
    rest.all isRelationRest = true ∧
      (∀ c ∈ (prime primed ++ after).head?, isRelationRest c = false) ∧
      (primed = false → ∀ others, after ≠ '\'' :: others) ∧
      text = rest ++ (prime primed ++ after) := by
  have letters : (text.takeWhile isRelationRest).all isRelationRest = true := List.all_takeWhile
  have stops : ∀ c ∈ (text.dropWhile isRelationRest).head?, isRelationRest c = false := by
    intro c first
    have notLetter := List.head?_dropWhile_not isRelationRest text
    rwa [show (text.dropWhile isRelationRest).head? = some c from first] at notLetter
  have eq : text = text.takeWhile isRelationRest ++ text.dropWhile isRelationRest :=
    List.takeWhile_append_dropWhile.symm
  by_cases primed : ∃ after, text.dropWhile isRelationRest = '\'' :: after
  · obtain ⟨after, isPrime⟩ := primed
    rw [isPrime] at stops eq
    exact ⟨_, true, after, letters, stops, nofun, eq⟩
  · exact ⟨_, false, _, letters, stops, fun _ others isPrime => primed ⟨others, isPrime⟩, eq⟩

/-- A text in parentheses, after blanks. -/
theorem opening_eq_some_iff {word after : List Char} {marked : Bool} :
    (match trimStart after with
      | '(' :: inside =>
        if inside.getLast? = some ')' && !inside.dropLast.contains '\n' then
          some (word, marked, inside.dropLast)
        else none
      | _ => none) = some (name, primed, inside) ↔
      word = name ∧ marked = primed ∧ '\n' ∉ inside ∧ trimStart after = '(' :: (inside ++ [')']) := by
  split
  case h_1 found opened =>
    rw [opened, Option.ite_none_right_eq_some]
    constructor
    · rintro ⟨closed, same⟩
      obtain ⟨rfl, rfl, rfl⟩ := by simpa using same
      obtain ⟨ends, oneLine⟩ := by simpa using closed
      exact ⟨rfl, rfl, oneLine, by rw [List.dropLast_append_getLast? _ ends]⟩
    · rintro ⟨rfl, rfl, oneLine, same⟩
      obtain rfl := (List.cons.inj same).2
      simp [oneLine]
  case h_2 unopened =>
    refine ⟨nofun, ?_⟩
    rintro ⟨-, -, -, opened⟩
    exact absurd opened (unopened _)

theorem shape?_eq_some_iff {c : Char} {rest after : List Char} {marked : Bool}
    (start : isNameStart c = true) (letters : rest.all isRelationRest = true)
    (stops : ∀ d ∈ (prime marked ++ after).head?, isRelationRest d = false)
    (unprimed : marked = false → ∀ others, after ≠ '\'' :: others) :
    shape? (c :: rest ++ (prime marked ++ after)) = some (name, primed, inside) ↔
      c :: rest = name ∧ marked = primed ∧ '\n' ∉ inside ∧
        trimStart after = '(' :: (inside ++ [')']) := by
  obtain ⟨taken, dropped⟩ := span_name letters stops
  simp only [List.cons_append, shape?, start, taken, dropped, if_true]
  cases marked with
  | true => exact opening_eq_some_iff
  | false =>
    simp only [prime, Bool.false_eq_true, if_false, List.nil_append, unprimed rfl, imp_self,
      implies_true]
    exact opening_eq_some_iff

theorem shape?_layout (isName : isRelationName name = true) (blank : blanks.all isBlank = true)
    (oneLine : '\n' ∉ inside) :
    shape? (layout name primed blanks inside) = some (name, primed, inside) := by
  match name with
  | c :: rest =>
    obtain ⟨start, letters⟩ := Bool.and_eq_true_iff.mp isName
    have opened : trimStart (blanks ++ '(' :: (inside ++ [')'])) = '(' :: (inside ++ [')']) :=
      trimStart_append blank
    rw [layout, shape?_eq_some_iff start letters (isRelationRest_after_name primed inside blank)]
    · exact ⟨rfl, rfl, oneLine, opened⟩
    · rintro - others prime
      rw [prime] at opened
      cases opened

theorem exists_of_shape? (shape : shape? cs = some (name, primed, inside)) :
    isRelationName name = true ∧ '\n' ∉ inside ∧
      ∃ blanks, blanks.all isBlank = true ∧ cs = layout name primed blanks inside := by
  match cs with
  | c :: text =>
    by_cases start : isNameStart c = true
    · obtain ⟨rest, marked, after, letters, stops, unprimed, rfl⟩ := exists_span_name text
      rw [← List.cons_append, shape?_eq_some_iff start letters stops unprimed] at shape
      obtain ⟨rfl, rfl, oneLine, opened⟩ := shape
      obtain ⟨blanks, blank, eq⟩ := exists_trimStart after
      refine ⟨Bool.and_eq_true_iff.mpr ⟨start, letters⟩, oneLine, blanks, blank, ?_⟩
      rw [layout, ← opened, ← eq, List.cons_append]
    · simp [shape?, start] at shape

/-- The reader accepts the texts of terms, with blanks around them. -/
theorem read_eq_ok_iff {text : List Char} : read text = .ok t ↔ Written (trim text) t := by
  constructor
  · intro accepted
    simp only [read] at accepted
    split at accepted
    case h_1 => cases accepted
    case h_2 name primed inside shape =>
      obtain ⟨isName, oneLine, blanks, blank, eq⟩ := exists_of_shape? shape
      split at accepted
      case h_1 => cases accepted
      case h_2 args read =>
        have parts : t.relation.toList = name ∧ t.isPrimed = primed ∧ t.allArgs = args := by
          cases primed with
          | false =>
            obtain rfl := Except.ok.inj accepted
            exact ⟨String.toList_ofList, rfl, rfl⟩
          | true =>
            rw [if_pos rfl] at accepted
            split at accepted
            · obtain rfl := Except.ok.inj accepted
              exact ⟨String.toList_ofList, rfl, rfl⟩
            · cases accepted
        obtain ⟨rfl, rfl, rfl⟩ := parts
        rw [eq]
        exact .mk isName blank oneLine (Arg.readAll_eq_ok_iff.mp read)
  · intro written
    generalize eq : trim text = cs at written
    cases written with
    | mk isName blank oneLine args =>
      simp only [read, eq, shape?_layout isName blank oneLine, Arg.readAll_eq_ok_iff.mpr args]
      obtain ⟨relation, fact, args⟩ := t
      cases fact <;> simp [isPrimed, allArgs]

theorem readAll_eq_ok_iff {texts : List (List Char)} {terms : List Term} :
    readAll texts = .ok terms ↔ List.Forall₂ (fun text t => read text = .ok t) texts terms := by
  induction texts generalizing terms with
  | nil => simp [readAll, eq_comm]
  | cons text rest ih =>
    rw [List.forall₂_cons_left_iff]
    simp only [← ih, readAll]
    cases read text <;> cases readAll rest <;> simp [Except.map, eq_comm]

/-! What such a text has in common with the one that the term is printed as. -/

theorem trimmed_layout (isName : isRelationName name = true) (primed : Bool)
    (blanks inside : List Char) : Trimmed (layout name primed blanks inside) := by
  match name with
  | c :: rest =>
    have first : isBlank c = false :=
      isBlank_of_isWord ((word_of_isRelationName isName).all c List.mem_cons_self)
    have ends : Trimmed (c :: (rest ++ (prime primed ++ (blanks ++ '(' :: inside))) ++ [')']) :=
      .of_ends first rfl
    simpa [layout] using ends

theorem marks_name (isName : isRelationName name = true) (primed : Bool) :
    marks (name ++ prime primed) = [] := by
  rw [marks_append, (word_of_isRelationName isName).marks]
  cases primed <;> rfl

theorem marks_layout (isName : isRelationName name = true) (primed : Bool)
    (blank : blanks.all isBlank = true) (inside : List Char) :
    marks (layout name primed blanks inside) = marks inside := by
  have parens : marks ('(' :: (inside ++ [')'])) = marks inside := by
    rw [← List.singleton_append, marks_append, marks_append]
    exact List.append_nil _
  rw [layout, ← List.append_assoc, marks_append (name ++ prime primed), marks_name isName,
    marks_append, marks_of_blank blank, parens]
  rfl

theorem Written.marks (written : Written cs t) : marks t.text.toList = marks cs := by
  obtain @⟨_, blanks, inside, isName, blank, _, args⟩ := written
  calc Text.marks t.text.toList = Text.marks t.argsText := by
        rw [toList_text, marks_layout isName _ rfl]
    _ = [','].intercalate ((Arg.split inside).map Text.marks) := by
        rw [argsText, marks_intercalate, Arg.marks_eq_of_written args, List.map_map]
        rfl
    _ = Text.marks inside := Arg.intercalate_marks_split inside
    _ = Text.marks (layout t.relation.toList t.isPrimed blanks inside) :=
        (marks_layout isName _ blank inside).symm

theorem infix_layout (name : List Char) (primed : Bool) (blanks inside : List Char) :
    inside <:+: layout name primed blanks inside :=
  ⟨name ++ (prime primed ++ (blanks ++ ['('])), [')'], by simp [layout]⟩

/-- A string constant stands in the text as it is. -/
theorem Written.infix_of_mem {s : String} (written : Written cs t) (mem : s ∈ t.strings) :
    s.toList <:+: cs := by
  obtain ⟨_, _, _, args⟩ := written
  obtain ⟨token, memToken, text⟩ :=
    exists_mem_of_forall₂ args (List.mem_append_right _ (mem_strings.mp mem))
  cases text with
  | str =>
    have inQuotes : s.toList <:+: '"' :: (s.toList ++ ['"']) := ⟨['"'], ['"'], by simp⟩
    exact inQuotes.trans ((Arg.infix_of_mem_split memToken).trans (infix_layout _ _ _ _))

end Term

end ScoredChaining
