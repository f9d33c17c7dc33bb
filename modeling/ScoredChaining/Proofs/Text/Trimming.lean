import ScoredChaining.Text.Blank

/-!
Trimmed text.

* `Text.Trimmed`: the text neither begins nor ends with a blank. `Text.trim_append`: it is what
  trimming leaves when blanks stand around it.
* `Text.exists_trim`: trimming drops blanks only.
-/

namespace ScoredChaining.Text

variable {cs before after : List Char}

/-- The text does not begin with a blank. -/
def StartsInk (cs : List Char) : Prop :=
  ∀ c ∈ cs.head?, isBlank c = false

/-- The text neither begins nor ends with a blank. -/
structure Trimmed (cs : List Char) : Prop where
  first : StartsInk cs
  last : StartsInk cs.reverse

theorem StartsInk.append (ink : StartsInk cs) (some : cs ≠ []) : StartsInk (cs ++ after) := by
  obtain ⟨c, rest, rfl⟩ := List.exists_cons_of_ne_nil some
  exact ink

/-- A text that begins and ends with these characters is trimmed, whatever stands between. -/
theorem Trimmed.of_ends {first last : Char} {middle : List Char} (firstInk : isBlank first = false)
    (lastInk : isBlank last = false) : Trimmed (first :: middle ++ [last]) := by
  constructor
  · rintro c ⟨⟩
    exact firstInk
  · rw [List.reverse_append]
    rintro c ⟨⟩
    exact lastInk

/-- A text without blanks is trimmed. -/
theorem Trimmed.of_forall (ink : ∀ c ∈ cs, isBlank c = false) : Trimmed cs :=
  ⟨fun c first => ink c (List.mem_of_mem_head? first),
    fun c last => ink c (List.mem_reverse.mp (List.mem_of_mem_head? last))⟩

theorem Trimmed.append {middle : List Char} (first : Trimmed before) (last : Trimmed after)
    (some : before ≠ []) (some' : after ≠ []) : Trimmed (before ++ (middle ++ after)) := by
  constructor
  · exact first.first.append some
  · rw [← List.append_assoc, List.reverse_append]
    exact last.last.append (by simpa using some')

/-! ### At the start -/

theorem trimStart_of_startsInk (ink : StartsInk cs) : trimStart cs = cs := by
  cases cs with
  | nil => rfl
  | cons c rest =>
    have first : isBlank c = false := ink c rfl
    simp [trimStart, first]

theorem trimStart_append (blank : before.all isBlank = true) :
    trimStart (before ++ cs) = trimStart cs :=
  List.dropWhile_append_of_pos (List.all_eq_true.mp blank)

theorem exists_trimStart (cs : List Char) :
    ∃ before, before.all isBlank = true ∧ cs = before ++ trimStart cs :=
  ⟨cs.takeWhile isBlank, List.all_takeWhile, List.takeWhile_append_dropWhile.symm⟩

/-! ### At both ends -/

/-- Trimming drops blanks only. -/
theorem exists_trim (cs : List Char) : ∃ before after, before.all isBlank = true ∧
    after.all isBlank = true ∧ cs = before ++ (trim cs ++ after) := by
  obtain ⟨before, blankBefore, eqBefore⟩ := exists_trimStart cs
  obtain ⟨after, blankAfter, eqAfter⟩ := exists_trimStart (trimStart cs).reverse
  refine ⟨before, after.reverse, blankBefore, by simpa using blankAfter, ?_⟩
  have middle : trimStart cs = trim cs ++ after.reverse := by
    rw [trim, ← List.reverse_append, ← eqAfter, List.reverse_reverse]
  rw [← middle, ← eqBefore]

theorem isInfix_trim (cs : List Char) : trim cs <:+: cs := by
  obtain ⟨before, after, _, _, eq⟩ := exists_trim cs
  exact ⟨before, after, by rw [List.append_assoc, ← eq]⟩

/-- Trimming a text that is trimmed already, with blanks around it. -/
theorem trim_append (trimmed : Trimmed cs) (blankBefore : before.all isBlank = true)
    (blankAfter : after.all isBlank = true) : trim (before ++ (cs ++ after)) = cs := by
  have reversedBlank : after.reverse.all isBlank = true := by simpa using blankAfter
  rw [trim, trimStart_append blankBefore]
  by_cases nothing : cs = []
  · subst nothing
    have gone : trimStart after = [] := by
      rw [← List.append_nil after, trimStart_append blankAfter]
      rfl
    rw [List.nil_append, gone]
    rfl
  · rw [trimStart_of_startsInk (trimmed.first.append nothing), List.reverse_append,
      trimStart_append reversedBlank, trimStart_of_startsInk trimmed.last, List.reverse_reverse]

theorem trim_of_trimmed (trimmed : Trimmed cs) : trim cs = cs := by
  have noBlanks : ([] : List Char).all isBlank = true := rfl
  simpa using trim_append trimmed noBlanks noBlanks

end ScoredChaining.Text
