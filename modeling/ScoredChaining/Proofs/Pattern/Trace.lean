import ScoredChaining.Pattern.Walk

/-!
What a walk keeps in mind.

* `Trace.Recorded`: the crossed links are those that the trace takes back.
* `Trace.uncross_cross`: taking a crossing back restores the trace.
* `Trace.Kept`: what holds of the trace of a walk from `start` that stands at `current`.
* `Trace.Kept.cross`, `Trace.Kept.back`: stepping over a link and stepping back keep this.
-/

namespace ScoredChaining

namespace Trace

open Std

variable {t : Trace} {start current previous : Vertex} {rest : List Vertex} {l : Link}

/-- The crossed links are those that the trace takes back. -/
def Recorded (t : Trace) : Prop :=
  t.crossed = ExtTreeSet.ofList t.links

instance (t : Trace) : Decidable t.Recorded :=
  inferInstanceAs (Decidable (_ = _))

theorem recorded_start (v : Vertex) : (Trace.start v).Recorded :=
  ExtTreeSet.ext_mem fun k => by simp [Trace.start]

theorem Recorded.isCrossed_iff (recorded : t.Recorded) (l : Link) :
    t.isCrossed l = true ↔ l ∈ t.links := by
  rw [isCrossed, recorded, ExtTreeSet.contains_iff_mem, ExtTreeSet.mem_ofList,
    List.contains_iff_mem]

theorem Recorded.cross (recorded : t.Recorded) (key : Key) (l : Link) :
    (t.cross key l).Recorded := by
  apply ExtTreeSet.ext_mem
  intro k
  have known : k ∈ t.crossed ↔ k ∈ t.links := recorded.isCrossed_iff k
  rw [Trace.cross, ExtTreeSet.mem_ofList, List.contains_iff_mem, List.mem_cons,
    ExtTreeSet.mem_insert, Link.compare_eq_iff, known, eq_comm]

/-- Taking a crossing back restores the trace. -/
theorem uncross_cross (new : t.isCrossed l = false) (key : Key) : (t.cross key l).uncross = t := by
  have erased : (t.crossed.insert l).erase l = t.crossed := by
    apply ExtTreeSet.ext_mem
    intro k
    simp only [ExtTreeSet.mem_erase, ExtTreeSet.mem_insert, ne_eq, Link.compare_eq_iff]
    constructor
    · rintro ⟨other, same | old⟩
      · exact absurd same other
      · exact old
    · intro old
      refine ⟨?_, .inr old⟩
      rintro rfl
      rw [isCrossed, ExtTreeSet.contains_iff_mem.mpr old] at new
      cases new
  simp only [uncross, cross, erased, List.tail_cons]

/-- What holds of the trace of a walk from `start` that stands at `current`. -/
structure Kept (start current : Vertex) (t : Trace) : Prop where
  /-- No link is crossed twice. -/
  nodup : t.links.Nodup
  recorded : t.Recorded
  /-- There is one binding for every crossed link, of its target. -/
  bindings : t.bindings.map Binding.vertex = t.links.map Link.target
  /-- The walk has been led to where it can go back to. -/
  stack : ∀ v ∈ t.stack, v = start ∨ ∃ l ∈ t.links, l.target = v
  top : t.stack.head? = some current

instance (start current : Vertex) (t : Trace) : Decidable (t.Kept start current) :=
  decidable_of_iff
    (t.links.Nodup ∧ t.Recorded ∧
      t.bindings.map Binding.vertex = t.links.map Link.target ∧
      (∀ v ∈ t.stack, v = start ∨ ∃ l ∈ t.links, l.target = v) ∧ t.stack.head? = some current)
    ⟨fun ⟨nodup, recorded, bindings, stack, top⟩ => ⟨nodup, recorded, bindings, stack, top⟩,
      fun kept => ⟨kept.nodup, kept.recorded, kept.bindings, kept.stack, kept.top⟩⟩

theorem kept_start (v : Vertex) : (Trace.start v).Kept v v :=
  ⟨List.nodup_nil, recorded_start v, rfl, by simp [Trace.start], rfl⟩

namespace Kept

/-- The walk stands at the target of a link that it has crossed. -/
theorem cross (kept : t.Kept start current) (new : t.isCrossed l = false) (key : Key) :
    (t.cross key l).Kept start l.target := by
  refine ⟨List.nodup_cons.mpr ⟨fun old => ?_, kept.nodup⟩, kept.recorded.cross key l, ?_, ?_, rfl⟩
  · rw [(kept.recorded.isCrossed_iff l).mpr old] at new
    cases new
  · simp [Trace.cross, kept.bindings]
  · intro v mem
    rcases List.mem_cons.mp mem with rfl | old
    · exact .inr ⟨l, List.mem_cons_self, rfl⟩
    · rcases kept.stack v old with atStart | ⟨k, crossed, led⟩
      · exact .inl atStart
      · exact .inr ⟨k, List.mem_cons_of_mem _ crossed, led⟩

/-- The walk stands at the previous vertex when it has stepped back. -/
theorem back (kept : t.Kept start current) (shape : t.stack = current :: previous :: rest) :
    Trace.Kept start previous { t with stack := previous :: rest } :=
  ⟨kept.nodup, kept.recorded, kept.bindings,
    fun v mem => kept.stack v (shape ▸ List.mem_cons_of_mem _ mem), rfl⟩

end Kept

end Trace

end ScoredChaining
