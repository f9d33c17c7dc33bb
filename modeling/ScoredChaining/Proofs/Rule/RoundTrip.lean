import ScoredChaining.Proofs.Rule.Legible

/-!
Rules that are printed and read again.

* `Rule.Legible`: the terms are legible, the conclusion is not primed, and no string constant has a
  mark in it at which the reader cuts without regard to quotes.
* `Rule.legible_of_read`, `Rule.Legible.read_text`: what the reader accepts is legible, and a legible
  rule reads as itself. Together they say that printing undoes reading (`Rule.read_text_of_read`).
-/

namespace ScoredChaining

open Text

/-- The arrow between the premises and the conclusion. -/
def arrow : List Char :=
  ['=', '>']

theorem foreign_arrow : Foreign arrow :=
  ⟨List.cons_ne_nil _ _, List.forall_mem_cons.mpr ⟨rfl, List.forall_mem_singleton.mpr rfl⟩⟩

theorem foreign_ampersand : Foreign ['&'] :=
  ⟨List.cons_ne_nil _ _, List.forall_mem_singleton.mpr rfl⟩

/-- The texts of premises with ampersands between them. -/
def Term.joined (terms : List Term) : List Char :=
  [' ', '&', ' '].intercalate (terms.map fun t => t.text.toList)

theorem Term.exists_joined_cons (t : Term) (terms : List Term) :
    ∃ more, joined (t :: terms) = t.text.toList ++ more :=
  exists_intercalate_cons _ _ _

namespace Rule

variable {r : Rule}

/-- No string constant has an arrow in it, and none of a premise an ampersand. -/
structure Uncut (r : Rule) : Prop where
  arrow : ∀ t ∈ r.premises ++ [r.conclusion], ∀ s ∈ t.strings, ¬arrow <:+: s.toList
  ampersand : ∀ t ∈ r.premises, ∀ s ∈ t.strings, '&' ∉ s.toList

/-- The rule can be printed and read again. -/
structure Legible (r : Rule) : Prop where
  some : r.premises ≠ []
  terms : ∀ t ∈ r.premises ++ [r.conclusion], t.Legible
  unprimed : r.conclusion.isPrimed = false
  uncut : r.Uncut
  /-- There is no comment in the text of the rule. -/
  body : ∃ inside, scan '#' false r.text.toList = .some inside

/-! ### Reading -/

/-- The reader accepts texts of terms with ampersands between them and an arrow before the last. -/
theorem readBody_eq_ok_iff {body : List Char} {premises : List Term} {conclusion : Term} :
    readBody body = .ok (premises, conclusion) ↔
      ∃ left right, cut arrow body = some (left, right) ∧ ¬arrow <:+: right ∧
        List.Forall₂ (fun piece t => Term.Written (trim piece) t) (pieces '&' left) premises ∧
        Term.Written (trim right) conclusion ∧ conclusion.isPrimed = false := by
  simp only [← Term.read_eq_ok_iff, ← Term.readAll_eq_ok_iff, ← occurs_iff, arrow]
  constructor
  · intro accepted
    simp only [readBody] at accepted
    split at accepted
    case h_1 => cases accepted
    case h_2 left right isCut =>
      split at accepted
      case isTrue => cases accepted
      case isFalse alone =>
        split at accepted
        case h_1 => cases accepted
        case h_2 readPremises =>
          split at accepted
          case h_1 => cases accepted
          case h_2 readConclusion =>
            split at accepted
            case isTrue => cases accepted
            case isFalse unprimed =>
              cases accepted
              exact ⟨left, right, isCut, alone, readPremises, readConclusion,
                Bool.not_eq_true _ ▸ unprimed⟩
  · rintro ⟨left, right, isCut, alone, readPremises, readConclusion, unprimed⟩
    simp [readBody, isCut, alone, readPremises, readConclusion, unprimed]

theorem readLine_eq_ok_iff {line : List Char} : readLine line = .ok r ↔
    readBody (stripComment line).1 = .ok (r.premises, r.conclusion) ∧
      (stripComment line).2 = r.comment := by
  obtain ⟨premises, conclusion, comment⟩ := r
  simp only [readLine]
  cases readBody (stripComment line).1 with
  | error fault => simp
  | ok parts => simp [and_assoc, Prod.ext_iff]

theorem toList_text (r : Rule) : r.text.toList =
    (Term.joined r.premises ++ [' ']) ++ (arrow ++ (' ' :: r.conclusion.text.toList)) := by
  simp [text, Term.joined, arrow, String.toList_intercalate, Function.comp_def]

/-- What is printed has the quotes, commas and hashes of what was read. -/
theorem marks_of_readBody {body : List Char}
    (accepted : readBody body = .ok (r.premises, r.conclusion)) :
    marks r.text.toList = marks body := by
  obtain ⟨left, right, isCut, -, premises, conclusion, -⟩ := readBody_eq_ok_iff.mp accepted
  have samePremises : marks (Term.joined r.premises) = marks left := by
    have samePieces : (pieces '&' left).map marks =
        r.premises.map fun t => marks t.text.toList :=
      map_eq_of_forall₂ premises fun piece t written => by rw [written.marks, marks_trim]
    rw [← intercalate_pieces '&' left, Term.joined, marks_intercalate, marks_intercalate,
      samePieces, List.map_map]
    rfl
  have sameConclusion : marks r.conclusion.text.toList = marks right := by
    rw [conclusion.marks, marks_trim]
  have padded (cs : List Char) : marks (' ' :: cs) = marks cs := rfl
  have noMarks : marks arrow = [] := rfl
  rw [toList_text, eq_of_cut isCut]
  simp only [marks_append, padded, marks_nil, noMarks, samePremises, sameConclusion,
    List.append_nil, List.nil_append]

theorem uncut_of_readBody {body : List Char}
    (accepted : readBody body = .ok (r.premises, r.conclusion)) : r.Uncut := by
  obtain ⟨left, right, isCut, alone, premises, conclusion, -⟩ := readBody_eq_ok_iff.mp accepted
  -- A string constant of a premise stands in one of the pieces.
  have inPiece : ∀ t ∈ r.premises, ∀ s ∈ t.strings,
      ∃ piece ∈ pieces '&' left, s.toList <:+: piece := by
    intro t mem s isArg
    obtain ⟨piece, memPiece, written⟩ := exists_mem_of_forall₂ premises mem
    exact ⟨piece, memPiece, (written.infix_of_mem isArg).trans (isInfix_trim piece)⟩
  constructor
  · intro t mem s isArg inString
    rcases List.mem_append.mp mem with inPremises | isConclusion
    · obtain ⟨piece, memPiece, inPiece⟩ := inPiece t inPremises s isArg
      have inLeft : piece <:+: left := by
        rw [← intercalate_pieces '&' left]
        exact infix_intercalate memPiece
      exact not_infix_of_cut (List.cons_ne_nil _ _) isCut
        (inString.trans (inPiece.trans inLeft))
    · obtain rfl := List.mem_singleton.mp isConclusion
      exact alone (inString.trans ((conclusion.infix_of_mem isArg).trans (isInfix_trim right)))
  · intro t mem s isArg inString
    obtain ⟨piece, memPiece, inPiece⟩ := inPiece t mem s isArg
    exact not_mem_of_mem_pieces memPiece (inPiece.subset inString)

theorem legible_of_read {text : String} (accepted : read text = .ok r) : r.Legible := by
  obtain ⟨accepted, -⟩ := readLine_eq_ok_iff.mp accepted
  obtain ⟨left, right, -, -, premises, conclusion, unprimed⟩ := readBody_eq_ok_iff.mp accepted
  refine ⟨?_, fun t mem => ?_, unprimed, uncut_of_readBody accepted, ?_⟩
  · intro none
    rw [none, List.forall₂_nil_right_iff] at premises
    exact pieces_ne_nil '&' left premises
  · rcases List.mem_append.mp mem with inPremises | isConclusion
    · obtain ⟨piece, -, written⟩ := exists_mem_of_forall₂ premises inPremises
      exact written.legible
    · obtain rfl := List.mem_singleton.mp isConclusion
      exact conclusion.legible
  · obtain ⟨inside, closed⟩ := exists_scan_splitComment false text.toList
    refine ⟨inside, (scan_congr rfl ?_).trans closed⟩
    rw [marks_of_readBody accepted]
    exact marks_trim _

/-! ### Printing -/

/-- Texts joined by ampersands with blanks around them, as pieces between ampersands. -/
theorem intercalate_padded (first : List Char) (others : List (List Char)) :
    [' ', '&', ' '].intercalate (first :: others) ++ [' '] =
      ['&'].intercalate ((first ++ [' ']) :: others.map fun cs => ' ' :: (cs ++ [' '])) := by
  induction others generalizing first with
  | nil => simp
  | cons second rest ih =>
    rw [List.intercalate_cons_cons, List.append_assoc, ih second, List.map_cons,
      List.intercalate_cons_cons, List.intercalate_cons_cons_left]
    simp

/-- The text of a rule is a body without a comment. -/
theorem stripComment_text {inside : Bool} (some : r.premises ≠ [])
    (terms : ∀ t ∈ r.premises ++ [r.conclusion], t.Legible)
    (closed : scan '#' false r.text.toList = .some inside) :
    stripComment r.text.toList = (r.text.toList, none) := by
  obtain ⟨first, others, premises⟩ := List.exists_cons_of_ne_nil some
  have legibleFirst : first.Legible :=
    terms first (List.mem_append_left _ (premises ▸ List.mem_cons_self))
  have legibleLast : r.conclusion.Legible :=
    terms r.conclusion (List.mem_append_right _ (List.mem_singleton_self _))
  obtain ⟨more, eq⟩ := first.exists_joined_cons others
  have parts : r.text.toList = first.text.toList ++
      ((more ++ ([' '] ++ (arrow ++ [' ']))) ++ r.conclusion.text.toList) := by
    rw [toList_text, premises, eq]
    simp
  have trimmed : Trimmed r.text.toList := by
    rw [parts]
    exact legibleFirst.trimmed.append legibleLast.trimmed legibleFirst.ne_nil legibleLast.ne_nil
  simp [stripComment, splitComment_of_scan closed, trim_of_trimmed trimmed]

namespace Legible

theorem conclusion (legible : r.Legible) : r.conclusion.Legible :=
  legible.terms _ (List.mem_append_right _ (List.mem_singleton_self _))

theorem premise (legible : r.Legible) {t : Term} (mem : t ∈ r.premises) : t.Legible :=
  legible.terms t (List.mem_append_left _ mem)

/-- No term has an arrow in its text. -/
theorem not_arrow (legible : r.Legible) {t : Term} (mem : t ∈ r.premises ++ [r.conclusion]) :
    ¬arrow <:+: t.text.toList := by
  intro occurs
  obtain ⟨s, isArg, inString⟩ := (legible.terms t mem).exists_string foreign_arrow occurs
  exact legible.uncut.arrow t mem s isArg inString

/-- No premise has an ampersand in its text. -/
theorem not_ampersand (legible : r.Legible) {t : Term} (mem : t ∈ r.premises) :
    '&' ∉ t.text.toList := by
  rw [← List.singleton_infix_iff]
  intro occurs
  obtain ⟨s, isArg, inString⟩ := (legible.premise mem).exists_string foreign_ampersand occurs
  exact legible.uncut.ampersand t mem s isArg ((List.singleton_infix_iff _ _).mp inString)

/-- The text of a rule is cut at its arrow. -/
theorem cut_text (legible : r.Legible) : cut arrow r.text.toList =
    .some (Term.joined r.premises ++ [' '], ' ' :: r.conclusion.text.toList) := by
  have first : ¬arrow <:+: (Term.joined r.premises ++ [' ']) ++ arrow.dropLast := by
    intro occurs
    have free : ∀ c ∈ [' ', '&', ' '], c ∉ arrow := by simp [arrow]
    rw [List.append_assoc, List.singleton_append,
      infix_append_cons_iff (free ' ' List.mem_cons_self)] at occurs
    rcases occurs with inPremises | inDash
    · obtain ⟨text, isText, inText⟩ :=
        exists_infix_of_infix_intercalate (List.cons_ne_nil _ _) free foreign_arrow.some inPremises
      obtain ⟨t, mem, rfl⟩ := List.mem_map.mp isText
      exact legible.not_arrow (List.mem_append_left _ mem) inText
    · exact absurd inDash.length_le (by simp [arrow])
  rw [toList_text]
  exact cut_append _ first

/-- The premises are cut at the ampersands between them. -/
theorem written_pieces (legible : r.Legible) :
    List.Forall₂ (fun piece t => Term.Written (trim piece) t)
      (pieces '&' (Term.joined r.premises ++ [' '])) r.premises := by
  have blank : [' '].all isBlank = true := rfl
  obtain ⟨first, others, premises⟩ := List.exists_cons_of_ne_nil legible.some
  have isPremise : ∀ t ∈ first :: others, t ∈ r.premises := fun t mem => premises ▸ mem
  obtain ⟨isFirst, isOther⟩ := List.forall_mem_cons.mp isPremise
  rw [Term.joined, premises, List.map_cons, intercalate_padded, List.map_map, pieces_intercalate]
  · refine .cons ((legible.premise isFirst).written_padded List.all_nil blank) ?_
    rw [List.forall₂_map_left_iff, List.forall₂_same]
    exact fun t mem => (legible.premise (isOther t mem)).written_padded blank blank
  · exact List.cons_ne_nil _ _
  · refine List.forall_mem_cons.mpr ⟨?_, List.forall_mem_map.mpr fun t mem => ?_⟩
    · simpa using legible.not_ampersand isFirst
    · simpa using legible.not_ampersand (isOther t mem)

theorem readBody_text (legible : r.Legible) :
    readBody r.text.toList = .ok (r.premises, r.conclusion) := by
  have blank : [' '].all isBlank = true := rfl
  rw [readBody_eq_ok_iff]
  refine ⟨_, _, legible.cut_text, ?_, legible.written_pieces, ?_, legible.unprimed⟩
  · have noBlank : ' ' ∉ arrow := by simp [arrow]
    rw [← List.nil_append (' ' :: _), infix_append_cons_iff noBlank]
    rintro (nowhere | inConclusion)
    · exact foreign_arrow.some (List.infix_nil.mp nowhere)
    · exact legible.not_arrow (List.mem_append_right _ (List.mem_singleton_self _)) inConclusion
  · simpa using legible.conclusion.written_padded blank List.all_nil

theorem read_text (legible : r.Legible) : read r.text = .ok { r with comment := none } := by
  obtain ⟨inside, closed⟩ := legible.body
  rw [read, readLine_eq_ok_iff, stripComment_text legible.some legible.terms closed]
  exact ⟨legible.readBody_text, rfl⟩

end Legible

/-- Printing undoes reading: whatever text a rule was read from, its own text reads as the rule
without the comment. -/
theorem read_text_of_read {text : String} (accepted : read text = .ok r) :
    read r.text = .ok { r with comment := none } :=
  (legible_of_read accepted).read_text

/-- Blanks, a prime, a sign and leading zeros, an empty list of arguments, and strings with commas, a
hash and quotes in them. -/
def scruffyText : String :=
  "  edge-1'( f , +007,\"a, #\" )&tag( )=>  out( f , \"p\"q\", \" ) # done "

/-- The rule in `scruffyText`. -/
def scruffyRule : Rule where
  premises :=
    [⟨"edge-1", some "f", [.const (.int 7), .const (.str "a, #")]⟩, ⟨"tag", none, []⟩]
  conclusion := ⟨"out", none, [.var "f", .const (.str "p\"q\", ")]⟩
  comment := some "done"

theorem read_text_of_read_scruffy :
    read scruffyText = .ok scruffyRule ∧
      read scruffyRule.text = .ok { scruffyRule with comment := none } := by
  have accepted : read scruffyText = .ok scruffyRule := by decide +kernel
  exact ⟨accepted, read_text_of_read accepted⟩

end Rule

end ScoredChaining
