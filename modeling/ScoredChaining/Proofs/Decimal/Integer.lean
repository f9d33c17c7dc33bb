import ScoredChaining.Decimal.Integer

/-!
Integers that are written and read again.

`Decimal.readInt64?_showInt64`: the decimal text of an integer reads as that integer. That text, and any
other that reads as an integer, is digits after an optional sign
(`Decimal.exists_digits_of_readInt64?`).
-/

namespace ScoredChaining.Decimal

theorem isDigit_eq (c : Char) : isDigit c = c.isDigit := by
  rw [Bool.eq_iff_iff]
  simp [isDigit, Char.isDigit, Char.le_def]

/-! ### Writing and reading -/

theorem isDigit_of_mem_showNat {n : Nat} {c : Char} (mem : c ∈ showNat n) : isDigit c = true := by
  rw [isDigit_eq]
  exact Nat.isDigit_of_mem_toDigits (by decide) (by decide) mem

theorem readNat?_showNat (n : Nat) : readNat? (showNat n) = some n := by
  have some : showNat n ≠ [] := Nat.toDigits_ne_nil
  have digits : (showNat n).all isDigit = true :=
    List.all_eq_true.mpr fun _ => isDigit_of_mem_showNat
  have value : ofDigits (showNat n) = n := Nat.ofDigitChars_ten_toDigits
  simp [readNat?, some, digits, value]

/-- A run of digits has no sign. -/
theorem splitSign_showNat (n : Nat) : splitSign (showNat n) = (false, showNat n) := by
  unfold splitSign
  split
  · rename_i rest eq
    have digit : isDigit '-' = true :=
      isDigit_of_mem_showNat (n := n) (eq ▸ List.mem_cons_self)
    cases digit
  · rename_i rest eq
    have digit : isDigit '+' = true :=
      isDigit_of_mem_showNat (n := n) (eq ▸ List.mem_cons_self)
    cases digit
  · rfl

/-- The number that a sign and digits stand for. -/
theorem readInt?_eq_some_iff {cs : List Char} {k : Int} : readInt? cs = some k ↔
    ∃ n, readNat? (splitSign cs).2 = some n ∧ (if (splitSign cs).1 then -(n : Int) else n) = k := by
  unfold readInt?
  cases read : readNat? (splitSign cs).2 <;> simp [read]

theorem readInt?_showInt64 (n : Int64) : readInt? (showInt64 n) = some n.toInt := by
  rw [readInt?_eq_some_iff]
  refine ⟨n.toInt.natAbs, ?_⟩
  unfold showInt64
  split
  · rename_i negative
    simp only [splitSign, readNat?_showNat, true_and, if_true]
    omega
  · rename_i natural
    simp only [splitSign_showNat, readNat?_showNat, true_and, Bool.false_eq_true, if_false]
    omega

theorem readInt64?_showInt64 (n : Int64) : readInt64? (showInt64 n) = some n := by
  have range : Int64.minValue.toInt ≤ n.toInt ∧ n.toInt ≤ Int64.maxValue.toInt :=
    ⟨n.minValue_le_toInt, n.toInt_le⟩
  simp only [readInt64?, readInt?_showInt64]
  rw [if_pos (by simpa using range), Int64.ofInt_toInt]

/-! ### What the text of an integer looks like -/

/-- The character may stand in the text of an integer. -/
def isNumeral (c : Char) : Bool :=
  c == '-' || c == '+' || isDigit c

/-- The text of a sign, or nothing. -/
def IsSign (cs : List Char) : Prop :=
  cs = [] ∨ cs = ['-'] ∨ cs = ['+']

theorem exists_sign_append (cs : List Char) :
    ∃ sign, IsSign sign ∧ cs = sign ++ (splitSign cs).2 := by
  unfold splitSign
  split
  · exact ⟨['-'], .inr (.inl rfl), rfl⟩
  · exact ⟨['+'], .inr (.inr rfl), rfl⟩
  · exact ⟨[], .inl rfl, rfl⟩

/-- What reads as an integer is digits after an optional sign. -/
theorem exists_digits_of_readInt64? {cs : List Char} {n : Int64} (h : readInt64? cs = some n) :
    ∃ sign digits, IsSign sign ∧ digits ≠ [] ∧ digits.all isDigit = true ∧ cs = sign ++ digits := by
  cases read : readInt? cs with
  | none => simp [readInt64?, read] at h
  | some k =>
    obtain ⟨m, digits, _⟩ := readInt?_eq_some_iff.mp read
    rw [readNat?, Option.ite_none_right_eq_some] at digits
    obtain ⟨some, allDigits⟩ := Bool.and_eq_true_iff.mp digits.1
    obtain ⟨sign, isSign, eq⟩ := exists_sign_append cs
    exact ⟨sign, _, isSign, of_decide_eq_true some, allDigits, eq⟩

theorem IsSign.isNumeral_append {sign digits : List Char} (isSign : IsSign sign)
    (allDigits : digits.all isDigit = true) : ∀ c ∈ sign ++ digits, isNumeral c = true := by
  intro c mem
  rcases List.mem_append.mp mem with inSign | inDigits
  · rcases isSign with rfl | rfl | rfl
    · cases inSign
    · rw [List.mem_singleton.mp inSign]
      rfl
    · rw [List.mem_singleton.mp inSign]
      rfl
  · simp [isNumeral, List.all_eq_true.mp allDigits c inDigits]

theorem isNumeral_of_readInt64? {cs : List Char} {n : Int64} (h : readInt64? cs = some n) :
    cs ≠ [] ∧ ∀ c ∈ cs, isNumeral c = true := by
  obtain ⟨sign, digits, isSign, some, allDigits, rfl⟩ := exists_digits_of_readInt64? h
  exact ⟨List.append_ne_nil_of_right_ne_nil sign some, isSign.isNumeral_append allDigits⟩

end ScoredChaining.Decimal
