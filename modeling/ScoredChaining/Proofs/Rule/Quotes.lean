import ScoredChaining.Proofs.Text.Trimming
import ScoredChaining.Rule.Reader

/-!
Cutting text outside of double quotes.

* `Text.scan`: whether a text that begins inside or outside of quotes ends inside, if a mark does not
  stand outside of them. All that it reads of a text are the quotes, commas and hashes in it
  (`Text.scan_marks`), so blanks and names do not matter.
* `splitComment_of_scan`, `exists_scan_splitComment`: what stands before a comment is just what can
  be scanned for a `#`.
* `Arg.Separated`: the texts have no comma outside of quotes, and the quotes are closed at the end of
  each but the last. `Arg.splitCommas_intercalate`, `Arg.separated_splitCommas`: these are just the
  lists of texts that splitting at the commas gives.
-/

namespace ScoredChaining

namespace Text

variable {mark : Char} {quoted : Bool} {cs ds : List Char}

/-- Reads over a text that begins inside of double quotes or outside of them, and tells which of the
two holds at its end; nothing if the mark stands outside of quotes in it. -/
def scan (mark : Char) (quoted : Bool) : List Char → Option Bool
  | [] => some quoted
  | c :: rest =>
    if c = mark && !quoted then none else scan mark (if c = '"' then !quoted else quoted) rest

theorem scan_append (mark : Char) (quoted : Bool) (cs ds : List Char) :
    scan mark quoted (cs ++ ds) = (scan mark quoted cs).bind fun inside => scan mark inside ds := by
  induction cs generalizing quoted with
  | nil => rfl
  | cons c rest ih =>
    simp only [List.cons_append, scan]
    split
    · rfl
    · exact ih _

/-- Within quotes all but a quote is text. -/
theorem scan_inside (plain : '"' ∉ cs) : scan mark true cs = some true := by
  induction cs with
  | nil => rfl
  | cons c rest ih =>
    obtain ⟨notQuote, plainRest⟩ := List.ne_and_not_mem_of_not_mem_cons plain
    simp [scan, Ne.symm notQuote, ih plainRest]

/-- A text in double quotes that has no others in it is closed, whatever it says. -/
theorem scan_quotation (notQuote : mark ≠ '"') (plain : '"' ∉ cs) :
    scan mark false ('"' :: cs ++ ['"']) = some false := by
  have opens : scan mark false ['"'] = some true := by simp [scan, Ne.symm notQuote]
  have closes : scan mark true ['"'] = some false := by simp [scan]
  rw [List.cons_append, ← List.singleton_append, scan_append, opens, Option.bind_some, scan_append,
    scan_inside plain, Option.bind_some, closes]

/-- Closed texts that are joined by a closed text are closed. -/
theorem scan_intercalate {sep : List Char} {parts : List (List Char)}
    (closedSep : scan mark false sep = some false)
    (closed : ∀ part ∈ parts, scan mark false part = some false) :
    scan mark false (sep.intercalate parts) = some false := by
  induction parts with
  | nil => rfl
  | cons part rest ih =>
    obtain ⟨closedPart, closedRest⟩ := List.forall_mem_cons.mp closed
    cases rest with
    | nil => rwa [List.intercalate_singleton]
    | cons second others =>
      rw [List.intercalate_cons_cons, scan_append, scan_append, closedPart, Option.bind_some,
        closedSep, Option.bind_some, ih closedRest]

/-! ### Marks -/

/-- A double quote, or one of the characters whose meaning depends on quotes. -/
def isMark (c : Char) : Bool :=
  c == '"' || c == ',' || c == '#'

/-- The quotes, commas and hashes of a text, in order. -/
def marks (cs : List Char) : List Char :=
  cs.filter isMark

@[simp] theorem marks_nil : marks [] = [] := rfl

@[simp] theorem marks_append (cs ds : List Char) : marks (cs ++ ds) = marks cs ++ marks ds :=
  List.filter_append cs ds

theorem marks_of_forall (plain : ∀ c ∈ cs, isMark c = false) : marks cs = [] :=
  List.filter_eq_nil_iff.mpr fun c mem => by simp [plain c mem]

@[simp] theorem marks_marks (cs : List Char) : marks (marks cs) = marks cs := by
  simp [marks, List.filter_filter]

theorem count_marks (cs : List Char) : (marks cs).count '"' = cs.count '"' :=
  List.count_filter rfl

theorem marks_intercalate (sep : List Char) (parts : List (List Char)) :
    marks (sep.intercalate parts) = (marks sep).intercalate (parts.map marks) := by
  match parts with
  | [] => rfl
  | [part] => simp
  | part :: second :: rest =>
    have ih := marks_intercalate sep (second :: rest)
    rw [List.map_cons] at ih
    simp only [List.intercalate_cons_cons, List.map_cons, marks_append, ih]

theorem isMark_of_isBlank {c : Char} (blank : isBlank c = true) : isMark c = false := by
  rw [Bool.eq_false_iff]
  intro mark
  simp only [isMark, Bool.or_eq_true, beq_iff_eq] at mark
  rcases mark with (rfl | rfl) | rfl <;> revert blank <;> decide

theorem marks_of_blank (blank : cs.all isBlank = true) : marks cs = [] :=
  marks_of_forall fun c mem => isMark_of_isBlank (List.all_eq_true.mp blank c mem)

theorem marks_trim (cs : List Char) : marks (trim cs) = marks cs := by
  obtain ⟨before, after, blankBefore, blankAfter, eq⟩ := exists_trim cs
  calc marks (trim cs) = marks (before ++ (trim cs ++ after)) := by
        simp [marks_of_blank blankBefore, marks_of_blank blankAfter]
    _ = marks cs := by rw [← eq]

/-- All that is read of a text are its marks. -/
theorem scan_marks (isMark_mark : isMark mark = true) :
    scan mark quoted (marks cs) = scan mark quoted cs := by
  induction cs generalizing quoted with
  | nil => rfl
  | cons c rest ih =>
    by_cases kept : isMark c = true
    · rw [marks, List.filter_cons_of_pos kept]
      simp only [scan]
      rw [show List.filter isMark rest = marks rest from rfl, ih]
    · have notMark : c ≠ mark := fun same => kept (same ▸ isMark_mark)
      have notQuote : c ≠ '"' := fun same => kept (same ▸ rfl)
      rw [marks, List.filter_cons_of_neg kept]
      simp only [scan, notMark, notQuote, decide_false, Bool.false_and, Bool.false_eq_true, if_false]
      exact ih

theorem scan_congr (isMark_mark : isMark mark = true) (same : marks cs = marks ds) :
    scan mark quoted cs = scan mark quoted ds := by
  rw [← scan_marks isMark_mark, same, scan_marks isMark_mark]

end Text

open Text

variable {quoted : Bool} {cs : List Char}

/-! ### Comments -/

/-- No `#` stands outside of quotes before a comment. -/
theorem exists_scan_splitComment (quoted : Bool) (cs : List Char) :
    ∃ inside, scan '#' quoted (splitComment quoted cs).1 = some inside := by
  induction cs generalizing quoted with
  | nil => exact ⟨quoted, rfl⟩
  | cons c rest ih =>
    simp only [splitComment]
    split
    · exact ⟨quoted, rfl⟩
    · rename_i others
      simp only [scan, if_neg others]
      exact ih _

theorem splitComment_of_scan {inside : Bool} (closed : scan '#' quoted cs = some inside) :
    splitComment quoted cs = (cs, none) := by
  induction cs generalizing quoted with
  | nil => rfl
  | cons c rest ih =>
    simp only [scan, splitComment] at closed ⊢
    split at closed
    · cases closed
    · rename_i others
      rw [if_neg others, ih closed]

/-! ### Arguments -/

namespace Arg

/-- The first text begins inside of quotes or outside, the others outside; in none of them a comma
stands outside of quotes, and all but the last end outside. -/
inductive Separated : Bool → List (List Char) → Prop where
  | last {quoted inside : Bool} {cs : List Char} : scan ',' quoted cs = some inside →
      Separated quoted [cs]
  | cons {quoted : Bool} {cs : List Char} {rest : List (List Char)} :
      scan ',' quoted cs = some false → Separated false rest → Separated quoted (cs :: rest)

theorem Separated.ne_nil {parts : List (List Char)} (separated : Separated quoted parts) :
    parts ≠ [] := by
  cases separated <;> exact List.cons_ne_nil _ _

theorem Separated.of_forall {parts : List (List Char)} (some : parts ≠ [])
    (closed : ∀ part ∈ parts, scan ',' false part = .some false) : Separated false parts := by
  induction parts with
  | nil => exact absurd rfl some
  | cons part rest ih =>
    obtain ⟨closedPart, closedRest⟩ := List.forall_mem_cons.mp closed
    by_cases none : rest = []
    · subst none
      exact .last closedPart
    · exact .cons closedPart (ih none closedRest)

/-- Texts with the same marks can stand for each other. -/
theorem Separated.congr {parts others : List (List Char)} (separated : Separated quoted parts)
    (same : parts.map marks = others.map marks) : Separated quoted others := by
  induction separated generalizing others with
  | last closed =>
    obtain ⟨other, rfl, sameMarks⟩ := List.map_eq_singleton_iff.mp same.symm
    exact .last ((scan_congr rfl sameMarks).trans closed)
  | cons closed _ ih =>
    obtain ⟨other, rest, rfl, sameMarks, sameRest⟩ := List.map_eq_cons_iff.mp same.symm
    exact .cons ((scan_congr rfl sameMarks).trans closed) (ih sameRest.symm)

theorem splitCommas_of_scan {inside : Bool} (closed : scan ',' quoted cs = some inside) :
    splitCommas quoted cs = [cs] := by
  induction cs generalizing quoted with
  | nil => rfl
  | cons c rest ih =>
    simp only [scan, splitCommas] at closed ⊢
    split at closed
    · cases closed
    · rename_i others
      rw [if_neg others, ih closed]

theorem splitCommas_append_comma {rest : List Char} (closed : scan ',' quoted cs = some false) :
    splitCommas quoted (cs ++ ',' :: rest) = cs :: splitCommas false rest := by
  induction cs generalizing quoted with
  | nil =>
    obtain rfl : quoted = false := Option.some.inj closed
    rfl
  | cons c others ih =>
    simp only [scan, List.cons_append, splitCommas] at closed ⊢
    split at closed
    · cases closed
    · rename_i notComma
      rw [if_neg notComma, ih closed]

theorem splitCommas_intercalate {parts : List (List Char)} (separated : Separated quoted parts) :
    splitCommas quoted ([','].intercalate parts) = parts := by
  induction separated with
  | last closed => rw [List.intercalate_singleton, splitCommas_of_scan closed]
  | cons closed others ih =>
    rw [List.intercalate_cons_of_ne_nil others.ne_nil, List.append_assoc, List.singleton_append,
      splitCommas_append_comma closed, ih]

theorem separated_splitCommas (quoted : Bool) (cs : List Char) :
    Separated quoted (splitCommas quoted cs) := by
  induction cs generalizing quoted with
  | nil => exact .last rfl
  | cons c rest ih =>
    simp only [splitCommas]
    split
    case isTrue comma =>
      simp only [Bool.and_eq_true, decide_eq_true_eq, Bool.not_eq_true'] at comma
      obtain ⟨rfl, rfl⟩ := comma
      exact .cons rfl (ih false)
    case isFalse others =>
      have step (ds : List Char) : scan ',' quoted (c :: ds) =
          scan ',' (if c = '"' then !quoted else quoted) ds := by
        rw [scan, if_neg others]
      have separated := ih (if c = '"' then !quoted else quoted)
      generalize splitCommas (if c = '"' then !quoted else quoted) rest = parts at separated ⊢
      cases separated with
      | last closed => exact .last ((step _).trans closed)
      | cons closed tail => exact .cons ((step _).trans closed) tail

/-- Splitting drops the commas and nothing else. -/
theorem intercalate_splitCommas (quoted : Bool) (cs : List Char) :
    [','].intercalate (splitCommas quoted cs) = cs := by
  induction cs generalizing quoted with
  | nil => rfl
  | cons c rest ih =>
    have separated := separated_splitCommas (if c = '"' then !quoted else quoted) rest
    have rejoined := ih (if c = '"' then !quoted else quoted)
    simp only [splitCommas]
    split
    case isTrue comma =>
      simp only [Bool.and_eq_true, decide_eq_true_eq, Bool.not_eq_true'] at comma
      obtain ⟨rfl, rfl⟩ := comma
      rw [List.intercalate_cons_of_ne_nil (separated_splitCommas false rest).ne_nil, ih false]
      rfl
    case isFalse others =>
      generalize splitCommas (if c = '"' then !quoted else quoted) rest = parts
        at separated rejoined ⊢
      match parts with
      | [] => exact absurd rfl separated.ne_nil
      | [part] => simpa using rejoined
      | part :: second :: tail => simpa [List.intercalate_cons_cons] using rejoined

/-- What is split depends on the marks alone. -/
theorem map_marks_splitCommas (quoted : Bool) (cs : List Char) :
    (splitCommas quoted cs).map marks = splitCommas quoted (marks cs) := by
  have separated : Separated quoted ((splitCommas quoted cs).map marks) :=
    (separated_splitCommas quoted cs).congr (by simp [Function.comp_def])
  have joined := marks_intercalate [','] (splitCommas quoted cs)
  rw [intercalate_splitCommas] at joined
  rw [joined]
  exact (splitCommas_intercalate separated).symm

end Arg

end ScoredChaining
