import ScoredChaining.Text.Cut

/-!
Where text is cut.

* `Text.occurs_iff`: a mark occurs in a text just if it is a part of it.
* `Text.cut_append`, `Text.not_infix_of_cut`: a text is cut at the first occurrence of the mark.
* `Text.pieces_eq_splitOn`: cutting at every occurrence of one character is the library's splitting.
-/

namespace ScoredChaining.Text

variable {mark cs before after : List Char} {sep : Char}

/-- A character of a joined text lies in the first part or in the second. -/
theorem append_eq_append_cons {first second : List Char} {c : Char}
    (eq : first ++ second = before ++ c :: after) :
    (∃ rest, first = before ++ c :: rest) ∨
      ∃ start, before = first ++ start ∧ second = start ++ c :: after := by
  rcases List.append_eq_append_iff.mp eq with ⟨start, isStart, isRest⟩ | ⟨gap, isFirst, isRest⟩
  · exact .inr ⟨start, isStart, isRest⟩
  · cases gap with
    | nil => exact .inr ⟨[], by simpa using isFirst.symm, isRest.symm⟩
    | cons d rest =>
      obtain rfl := (List.cons.inj isRest).1
      exact .inl ⟨rest, isFirst⟩

theorem eq_of_singleton_eq_append_cons {c d : Char} (eq : [d] = before ++ c :: after) : c = d := by
  have mem : c ∈ [d] := by simp [eq]
  exact List.mem_singleton.mp mem

/-! ### At one mark -/

theorem occurs_iff : occurs mark cs = true ↔ mark <:+: cs := by
  unfold occurs
  induction cs with
  | nil =>
    by_cases nothing : mark = [] <;> simp [cut, nothing]
  | cons c rest ih =>
    rw [List.infix_cons_iff, ← ih, ← List.isPrefixOf_iff_prefix, cut]
    by_cases starts : mark.isPrefixOf (c :: rest) = true <;> simp [starts]

/-- The mark does not occur in the text that comes before its first occurrence. -/
theorem not_infix_of_cut (some : mark ≠ []) (h : cut mark cs = .some (before, after)) :
    ¬mark <:+: before := by
  induction cs generalizing before with
  | nil => simp [cut, some] at h
  | cons c rest ih =>
    simp only [cut] at h
    split at h
    case isTrue starts =>
      obtain ⟨rfl, _⟩ := by simpa using h
      simpa using some
    case isFalse elsewhere =>
      obtain ⟨⟨first, last⟩, found, eq⟩ := Option.map_eq_some_iff.mp h
      obtain ⟨rfl, rfl⟩ := by simpa using eq
      rw [List.infix_cons_iff]
      rintro (⟨tail, starts⟩ | later)
      · refine elsewhere (List.isPrefixOf_iff_prefix.mpr ⟨tail ++ (mark ++ last), ?_⟩)
        rw [← List.append_assoc, starts, eq_of_cut found]
        simp
      · exact ih found later

/-- A text is cut at a mark if no occurrence of it begins earlier. -/
theorem cut_append (after : List Char) (first : ¬mark <:+: before ++ mark.dropLast) :
    cut mark (before ++ (mark ++ after)) = some (before, after) := by
  induction before with
  | nil => cases mark <;> cases after <;> simp [cut]
  | cons c rest ih =>
    have elsewhere : ¬mark.isPrefixOf (c :: (rest ++ (mark ++ after))) = true := by
      intro starts
      refine first (List.IsPrefix.isInfix ?_)
      -- The occurrence would be as long as the mark, so it would end before the mark's last character.
      have long : c :: rest ++ mark.dropLast <+: c :: (rest ++ (mark ++ after)) := by
        rw [List.cons_append, List.cons_prefix_cons]
        exact ⟨rfl, List.prefix_append_right_inj rest |>.mpr
          ((List.dropLast_prefix mark).trans (List.prefix_append mark after))⟩
      refine List.prefix_of_prefix_length_le (List.isPrefixOf_iff_prefix.mp starts) long ?_
      simp only [List.length_append, List.length_cons, List.length_dropLast]
      omega
    rw [List.cons_append, cut, if_neg elsewhere,
      ih fun later => first (later.trans (List.suffix_cons c _).isInfix)]
    rfl

/-- Two different characters cannot overlap themselves, so their occurrence in a text is one and the
same if there is but one. -/
theorem eq_of_append_pair {a b : Char} {left right : List Char} (different : a ≠ b)
    (eq : left ++ ([a, b] ++ right) = before ++ ([a, b] ++ after)) (notLeft : ¬[a, b] <:+: left)
    (notRight : ¬[a, b] <:+: right) : left = before ∧ right = after := by
  rcases List.append_eq_append_iff.mp eq with ⟨gap, rfl, rest⟩ | ⟨gap, rfl, rest⟩
  · match gap with
    | [] => simpa using rest
    | [c] => simp_all
    | c :: d :: others =>
      obtain ⟨rfl, rfl, rfl⟩ := by simpa using rest
      exact absurd ⟨others, after, by simp⟩ notRight
  · match gap with
    | [] => simpa [eq_comm] using rest
    | [c] => simp_all
    | c :: d :: others =>
      obtain ⟨rfl, rfl, rfl⟩ := by simpa using rest
      exact absurd ⟨before, others, by simp⟩ notLeft

/-- A character that is not in the mark separates its occurrences. -/
theorem infix_append_cons_iff {c : Char} (other : c ∉ mark) :
    mark <:+: before ++ c :: after ↔ mark <:+: before ∨ mark <:+: after := by
  constructor
  · intro occurs
    rcases List.infix_append_iff.mp occurs with inBefore | inAfter | ⟨left, right, rfl, ends, starts⟩
    · exact .inl inBefore
    · rcases List.infix_cons_iff.mp inAfter with starts | later
      · cases mark with
        | nil => exact .inl List.nil_infix
        | cons d rest => exact absurd ((List.cons_prefix_cons.mp starts).1 ▸ List.mem_cons_self) other
      · exact .inr later
    · cases right with
      | nil => exact .inl (by simpa using ends.isInfix)
      | cons d rest =>
        obtain rfl := (List.cons_prefix_cons.mp starts).1
        exact absurd (List.mem_append_right left List.mem_cons_self) other
  · rintro (inBefore | inAfter)
    · exact List.infix_append_of_infix_left inBefore
    · exact List.infix_append_of_infix_right (List.infix_cons inAfter)

/-- So does a text of such characters. -/
theorem infix_or_infix_of_infix_append {sep : List Char} (some : sep ≠ [])
    (free : ∀ c ∈ sep, c ∉ mark) (occurs : mark <:+: before ++ (sep ++ after)) :
    mark <:+: before ∨ mark <:+: after := by
  induction sep generalizing before with
  | nil => exact absurd rfl some
  | cons c rest ih =>
    obtain ⟨other, freeRest⟩ := List.forall_mem_cons.mp free
    rcases (infix_append_cons_iff other).mp occurs with inBefore | later
    · exact .inl inBefore
    · cases rest with
      | nil => exact .inr later
      | cons d others =>
        have atStart : mark <:+: [] ++ (d :: others ++ after) := later
        refine (ih (List.cons_ne_nil _ _) freeRest atStart).imp_left fun nowhere => ?_
        rw [List.infix_nil.mp nowhere]
        exact List.nil_infix

/-- What occurs in joined texts occurs in one of them if it has no character of what joins them. -/
theorem exists_infix_of_infix_intercalate {sep : List Char} {parts : List (List Char)}
    (some : sep ≠ []) (free : ∀ c ∈ sep, c ∉ mark) (nonempty : mark ≠ [])
    (occurs : mark <:+: sep.intercalate parts) : ∃ part ∈ parts, mark <:+: part := by
  induction parts with
  | nil => exact absurd (List.infix_nil.mp occurs) nonempty
  | cons part rest ih =>
    cases rest with
    | nil => exact ⟨part, List.mem_cons_self, by simpa using occurs⟩
    | cons second others =>
      rw [List.intercalate_cons_cons, List.append_assoc] at occurs
      rcases infix_or_infix_of_infix_append some free occurs with first | later
      · exact ⟨part, List.mem_cons_self, first⟩
      · obtain ⟨found, mem, inFound⟩ := ih later
        exact ⟨found, List.mem_cons_of_mem _ mem, inFound⟩

/-- A text in front of others that are joined to it. -/
theorem exists_intercalate_cons (sep first : List Char) (others : List (List Char)) :
    ∃ rest, sep.intercalate (first :: others) = first ++ rest := by
  cases others with
  | nil => exact ⟨[], by simp⟩
  | cons second rest =>
    exact ⟨sep ++ sep.intercalate (second :: rest), by
      rw [List.intercalate_cons_cons, List.append_assoc]⟩

theorem infix_intercalate {sep part : List Char} {parts : List (List Char)} (mem : part ∈ parts) :
    part <:+: sep.intercalate parts := by
  induction parts with
  | nil => cases mem
  | cons first rest ih =>
    cases rest with
    | nil =>
      obtain rfl := List.mem_singleton.mp mem
      simp
    | cons second others =>
      rw [List.intercalate_cons_cons]
      rcases List.mem_cons.mp mem with rfl | later
      · exact List.infix_append_of_infix_left (List.prefix_append part sep).isInfix
      · exact List.infix_append_of_infix_right (ih later)

/-! ### At every occurrence of a character -/

theorem pieces_eq_splitOn (sep : Char) (cs : List Char) : pieces sep cs = cs.splitOn sep := by
  induction cs with
  | nil => rfl
  | cons c rest ih =>
    rw [pieces, List.splitOn_cons_eq_if_modifyHead, ih]
    cases parts : rest.splitOn sep with
    | nil => exact absurd parts (List.splitOn_ne_nil sep rest)
    | cons first others => simp

theorem not_mem_of_mem_pieces {piece : List Char} (mem : piece ∈ pieces sep cs) : sep ∉ piece := by
  induction cs generalizing piece with
  | nil => simp_all [pieces]
  | cons c rest ih =>
    simp only [pieces] at mem
    split at mem
    case isTrue same =>
      rcases List.mem_cons.mp mem with rfl | later
      · exact List.not_mem_nil
      · exact ih later
    case isFalse other =>
      obtain ⟨first, others, eq⟩ := List.exists_cons_of_ne_nil (pieces_ne_nil sep rest)
      rw [eq] at mem ih
      rcases List.mem_cons.mp mem with rfl | later
      · exact List.not_mem_cons_of_ne_of_not_mem (Ne.symm other) (ih List.mem_cons_self)
      · exact ih (List.mem_cons_of_mem _ later)

theorem pieces_append_cons (free : sep ∉ before) :
    pieces sep (before ++ sep :: after) = before :: pieces sep after := by
  induction before with
  | nil => simp [pieces]
  | cons c rest ih =>
    obtain ⟨other, freeRest⟩ := List.ne_and_not_mem_of_not_mem_cons free
    rw [List.cons_append, pieces, if_neg (Ne.symm other), ih freeRest]

theorem pieces_intercalate {parts : List (List Char)} (some : parts ≠ [])
    (free : ∀ part ∈ parts, sep ∉ part) : pieces sep ([sep].intercalate parts) = parts := by
  rw [pieces_eq_splitOn, List.splitOn_intercalate sep free some]

end ScoredChaining.Text
