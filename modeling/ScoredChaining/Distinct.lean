/-!
Lists without repetitions, and sorting by the order of a type.
-/

namespace ScoredChaining

/-- The elements of a list, each once. -/
def distinct {α : Type} [DecidableEq α] : List α → List α
  | [] => []
  | a :: rest => if a ∈ rest then distinct rest else a :: distinct rest

@[simp] theorem mem_distinct {α : Type} [DecidableEq α] {a : α} {l : List α} :
    a ∈ distinct l ↔ a ∈ l := by
  induction l with
  | nil => simp [distinct]
  | cons b rest ih =>
    simp only [distinct]
    split
    · rename_i repeated
      rw [ih, List.mem_cons]
      exact ⟨.inr, fun h => h.elim (fun eq => eq ▸ repeated) id⟩
    · simp [ih]

theorem nodup_distinct {α : Type} [DecidableEq α] (l : List α) : (distinct l).Nodup := by
  induction l with
  | nil => simp [distinct]
  | cons b rest ih =>
    simp only [distinct]
    split
    · exact ih
    · exact List.nodup_cons.mpr ⟨by simpa, ih⟩

/-- The list in ascending order. -/
def ascending {α : Type} [Ord α] (l : List α) : List α :=
  l.mergeSort fun a b => (compare a b).isLE

@[simp] theorem mem_ascending {α : Type} [Ord α] {a : α} {l : List α} :
    a ∈ ascending l ↔ a ∈ l := by
  simp [ascending]

end ScoredChaining
