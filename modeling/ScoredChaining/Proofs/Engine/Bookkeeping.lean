import ScoredChaining.Proofs.Engine.History
import ScoredChaining.Proofs.Pattern.Enumeration

/-!
The trace of a walk, checked at every call.

The visit of a tree calls itself for the children of the tree. `Trie.visitBy` is the same visit with
something done around each of these calls, and `Visit.checked` is what is done here: a call fails
unless the trace that it is given is in order (`Trace.Kept`) and the trace that it returns is the
one that it was given.

* `Balanced`: the checked visit and the plain one do the same and restore the trace. There is a lemma
  for each kind of step and one for a tree node.
* `Trie.visitBy_checked`: wherever all neighbours can be entered, the checks change nothing.
* `Engine.Reachable.matchEdge_checked`: this is so for every attempt of an engine to match.
-/

namespace ScoredChaining

variable {Custom : Type} [Decider Custom]

variable {γ φ : Type}

/-! ### The visit with something around each call -/

section Around

variable (around : Visit γ φ → Visit γ φ) (facts : FactBase) (g : Graph)

mutual

/-- The visit of the root of a tree. -/
def Trie.visitBy : Trie γ φ → Visit γ φ
  | .node actions branches =>
    around (visitNode facts g actions branches.isEmpty (Branches.visitBy? branches))

/-- The visit of the child under a key. -/
def Branches.visitBy? : Branches γ φ → Key → Option (Visit γ φ)
  | .nil, _ => none
  | .cons k child rest, key =>
    if key = k then some (Trie.visitBy child) else Branches.visitBy? rest key

end

end Around

section Plain

variable (facts : FactBase) (g : Graph)

mutual

/-- With nothing around the calls, this is the visit. -/
theorem Trie.visitBy_id (t : Trie γ φ) : t.visitBy id facts g = t.visit facts g := by
  match t with
  | .node actions branches =>
    rw [Trie.visitBy, Trie.visit, id, funext (Branches.visitBy?_id branches)]

theorem Branches.visitBy?_id (branches : Branches γ φ) (key : Key) :
    branches.visitBy? id facts g key = branches.visit? facts g key := by
  match branches with
  | .nil => rw [Branches.visitBy?, Branches.visit?]
  | .cons k child rest =>
    rw [Branches.visitBy?, Branches.visit?, Trie.visitBy_id child, Branches.visitBy?_id rest]

end

end Plain

/-- Matching with something around each call, which may depend on where the walk starts. -/
def Trie.matchEdgeBy (around : Vertex → Visit γ φ → Visit γ φ) (t : Trie γ φ) (facts : FactBase)
    (g : Graph) (id : EdgeId) : Except StoreError (List (Match γ φ) × WalkStats) :=
  match facts.edge? id with
  | none => .error (.unknownEdge id)
  | some edge =>
    let start := Vertex.node edge.head
    (t.visitBy (around start) facts g start ⟨.start start, ⟨0, 0, 0⟩, []⟩).map
      fun w => (w.found, w.stats)

theorem Trie.matchEdgeBy_id (t : Trie γ φ) (facts : FactBase) (g : Graph) (id : EdgeId) :
    t.matchEdgeBy (fun _ visit => visit) facts g id = t.matchEdge facts g id := by
  have same (t : Trie γ φ) : t.visitBy (fun visit => visit) facts g = t.visit facts g :=
    t.visitBy_id facts g
  cases committed : facts.edge? id <;>
    simp only [Trie.matchEdgeBy, Trie.matchEdge, committed, same]

/-! ### Checks around each call -/

/-- Fails unless the trace is in order when the visit begins, and the same when it ends. -/
def Visit.checked (fault : StoreError) (start : Vertex) (visit : Visit γ φ) : Visit γ φ :=
  fun current w =>
    if w.trace.Kept start current then
      match visit current w with
      | .error e => .error e
      | .ok w' => if w'.trace = w.trace then .ok w' else .error fault
    else .error fault

/-- Both runs return with the same walk, which stands where `w` does. -/
def Walk.Returns (w : Walk γ φ) (run run' : Except StoreError (Walk γ φ)) : Prop :=
  ∃ w', run = .ok w' ∧ run' = .ok w' ∧ w'.trace = w.trace

/-- Wherever the trace is in order, both visits do the same and restore it. -/
def Balanced (start : Vertex) (visit visit' : Visit γ φ) : Prop :=
  ∀ (current : Vertex) (w : Walk γ φ), w.trace.Kept start current →
    w.Returns (visit current w) (visit' current w)

variable {facts : FactBase} {g : Graph} {start current : Vertex} {w : Walk γ φ}
  {visit visit' : Visit γ φ} {visits visits' : Key → Option (Visit γ φ)}

theorem Walk.Returns.refl (w : Walk γ φ) : w.Returns (.ok w) (.ok w) :=
  ⟨w, rfl, rfl, rfl⟩

theorem Balanced.checked (balanced : Balanced start visit visit') (fault : StoreError) :
    Balanced start (Visit.checked fault start visit) visit' := by
  intro current w kept
  obtain ⟨w', run, run', same⟩ := balanced current w kept
  exact ⟨w', by simp [Visit.checked, kept, run, same], run', same⟩

/-- The vertex that is left out of the stack meanwhile is put back on what is then the same stack
as before. -/
theorem Balanced.stepBack (balanced : Balanced start visit visit')
    (kept : w.trace.Kept start current) : w.Returns (w.stepBack visit) (w.stepBack visit') := by
  obtain ⟨⟨stack, crossed, links, bindings⟩, stats, found⟩ := w
  match stack, kept with
  | [], _ | [_], _ => exact .refl _
  | top :: previous :: rest, kept =>
    have standing : top = current := Option.some.inj kept.top
    obtain ⟨w', run, run', same⟩ := balanced previous
      ⟨⟨previous :: rest, crossed, links, bindings⟩, stats, found⟩ (kept.back (standing ▸ rfl))
    refine ⟨{ w' with trace := { w'.trace with stack := top :: w'.trace.stack } }, ?_, ?_, ?_⟩
    · simp only [Walk.stepBack, run]
    · simp only [Walk.stepBack, run']
    · simp only [same]

theorem stepTo_returns (children : ∀ key, Option.Rel (Balanced start) (visits key) (visits' key))
    (kept : w.trace.Kept start current) {neighbor : Vertex × Position}
    (enterable : ∃ key, Enters facts g key neighbor.1 neighbor.2) :
    w.Returns (stepTo facts g visits current w neighbor)
      (stepTo facts g visits' current w neighbor) := by
  obtain ⟨target, p⟩ := neighbor
  obtain ⟨key, enters⟩ := enterable
  have known := stepKey_eq_ok_iff.mpr enters
  cases new : w.trace.isCrossed ⟨current, target, p⟩ with
  | true => exact ⟨w, by simp [stepTo, new], by simp [stepTo, new], rfl⟩
  | false =>
    obtain ⟨visited, visited'⟩ | ⟨visit, visit', visited, visited', balanced⟩ :=
      rel_cases (children key)
    · exact ⟨w, by simp [stepTo, new, known, visited], by simp [stepTo, new, known, visited'], rfl⟩
    · let next : Trace := w.trace.cross key ⟨current, target, p⟩
      obtain ⟨w', run, run', same⟩ := balanced target ⟨next,
        { w.stats with
          pushes := w.stats.pushes + 1
          maxCrossed := max w.stats.maxCrossed next.crossed.size }, w.found⟩ (kept.cross new key)
      refine ⟨{ w' with trace := w'.trace.uncross }, ?_, ?_, ?_⟩
      · simp [stepTo, new, known, visited, Walk.stepOver, Trace.cross?, next, run]
      · simp [stepTo, new, known, visited', Walk.stepOver, Trace.cross?, next, run']
      · simp only [same, next, Trace.uncross_cross new]

/-- Every step to a neighbour restores the trace, so the next one finds it in order. -/
theorem foldlM_stepTo_returns
    (children : ∀ key, Option.Rel (Balanced start) (visits key) (visits' key))
    (kept : w.trace.Kept start current) {neighbors : List (Vertex × Position)}
    (enterable : ∀ n ∈ neighbors, ∃ key, Enters facts g key n.1 n.2) :
    w.Returns (neighbors.foldlM (stepTo facts g visits current) w)
      (neighbors.foldlM (stepTo facts g visits' current) w) := by
  induction neighbors generalizing w with
  | nil => exact .refl w
  | cons n rest ih =>
    obtain ⟨first, others⟩ := List.forall_mem_cons.mp enterable
    obtain ⟨w₁, step, step', same₁⟩ := stepTo_returns children kept first
    obtain ⟨w₂, run, run', same₂⟩ := ih (same₁ ▸ kept) others
    refine ⟨w₂, ?_, ?_, same₂.trans same₁⟩
    · rw [List.foldlM_cons, step]
      exact run
    · rw [List.foldlM_cons, step']
      exact run'

theorem trace_enter (w : Walk γ φ) (actions : Option (Actions γ φ)) :
    (w.enter actions).trace = w.trace := by
  cases actions <;> rfl

theorem visitNode_balanced (enterable : Enterable facts g)
    (children : ∀ key, Option.Rel (Balanced start) (visits key) (visits' key))
    (actions : Option (Actions γ φ)) (isLeaf : Bool) :
    Balanced start (visitNode facts g actions isLeaf visits)
      (visitNode facts g actions isLeaf visits') := by
  intro current w kept
  have entered := trace_enter w actions
  generalize counted : w.enter actions = w₁ at entered
  have across {w₂ : Walk γ φ} (same : w₂.trace = w.trace) :=
    foldlM_stepTo_returns children (same ▸ kept) fun n mem => enterable current n.1 n.2 mem
  cases isLeaf with
  | true => exact ⟨w₁, by simp [visitNode, counted], by simp [visitNode, counted], entered⟩
  | false =>
    obtain ⟨visited, visited'⟩ | ⟨visit, visit', visited, visited', balanced⟩ :=
      rel_cases (children .parent)
    · obtain ⟨w₂, run, run', same⟩ := across entered
      exact ⟨w₂, by simp [visitNode, counted, visited, run],
        by simp [visitNode, counted, visited', run'], same.trans entered⟩
    · obtain ⟨w₂, back, back', same₂⟩ := balanced.stepBack (entered ▸ kept)
      obtain ⟨w₃, run, run', same₃⟩ := across (same₂.trans entered)
      exact ⟨w₃, by simp [visitNode, counted, visited, back, run],
        by simp [visitNode, counted, visited', back', run'], same₃.trans (same₂.trans entered)⟩

mutual

/-- The checks change nothing: the trace is in order whenever a visit begins, and the same again
when it ends. -/
theorem Trie.visitBy_checked (enterable : Enterable facts g) (fault : StoreError) (start : Vertex)
    (t : Trie γ φ) :
    Balanced start (t.visitBy (Visit.checked fault start) facts g) (t.visit facts g) := by
  match t with
  | .node actions branches =>
    rw [Trie.visitBy, Trie.visit]
    exact (visitNode_balanced enterable (Branches.visitBy?_checked enterable fault start branches)
      actions _).checked fault

theorem Branches.visitBy?_checked (enterable : Enterable facts g) (fault : StoreError)
    (start : Vertex) (branches : Branches γ φ) (key : Key) :
    Option.Rel (Balanced start) (branches.visitBy? (Visit.checked fault start) facts g key)
      (branches.visit? facts g key) := by
  match branches with
  | .nil =>
    rw [Branches.visitBy?, Branches.visit?]
    exact .none
  | .cons k child rest =>
    rw [Branches.visitBy?, Branches.visit?]
    split
    · exact .some (Trie.visitBy_checked enterable fault start child)
    · exact Branches.visitBy?_checked enterable fault start rest key

end

/-! ### The attempts of an engine -/

namespace Engine

variable {e : Engine Custom}

/-- No check that is made at a call of the walk fails, in any attempt of an engine to match: it
gives the same answer with the checks and without them. For a committed fact there is an answer. -/
theorem Reachable.matchEdge_checked (reachable : Reachable e) (t : Trie γ φ) (id : EdgeId)
    (fault : StoreError) :
    t.matchEdgeBy (Visit.checked fault) e.facts e.graph id = t.matchEdge e.facts e.graph id ∧
      ∀ edge, e.facts.edge? id = some edge →
        ∃ found, t.matchEdge e.facts e.graph id = .ok found := by
  cases committed : e.facts.edge? id with
  | none => exact ⟨by simp [Trie.matchEdgeBy, Trie.matchEdge, committed], by simp⟩
  | some edge =>
    have balanced := t.visitBy_checked reachable.coherent.enterable fault (.node edge.head)
    obtain ⟨w, checked, plain, -⟩ := balanced (.node edge.head)
      ⟨.start (.node edge.head), ⟨0, 0, 0⟩, []⟩ (Trace.kept_start _)
    have withChecks : t.matchEdgeBy (Visit.checked fault) e.facts e.graph id =
        .ok (w.found, w.stats) := by
      simp only [Trie.matchEdgeBy, committed, checked, Except.map]
    have without : t.matchEdge e.facts e.graph id = .ok (w.found, w.stats) := by
      simp only [Trie.matchEdge, committed, plain, Except.map]
    exact ⟨withChecks.trans without.symm, fun _ _ => ⟨_, without⟩⟩

/-- A link, the first of its points, back to the link, and the second of its points. -/
def forked : Trie Unit Unit :=
  Trie.empty.addGenerator
    [.relation ⟨0⟩ .head, .type ⟨0⟩ (.tail 0), .parent, .type ⟨0⟩ (.tail 1)] ()

/-- With the checks the walk makes five calls, one of them after a step back, and the pattern is
found once, when three links are crossed. -/
theorem matchEdge_checked_forked :
    ∃ found, forked.matchEdgeBy (Visit.checked (.unknownEdge ⟨.temporary, 1⟩)) chained.facts
        chained.graph ⟨.temporary, 0⟩ = .ok found ∧
      found.1.map (fun m => m.bindings.length) = [3] ∧ found.2 = ⟨5, 3, 3⟩ := by
  obtain ⟨same, answered⟩ :=
    reachable_chained.matchEdge_checked forked ⟨.temporary, 0⟩ (.unknownEdge ⟨.temporary, 1⟩)
  obtain ⟨found, isFound⟩ :=
    answered ⟨⟨0⟩, ⟨.temporary, 2⟩, [⟨.temporary, 0⟩, ⟨.temporary, 1⟩]⟩ (by decide +kernel)
  have counts : (forked.matchEdge chained.facts chained.graph ⟨.temporary, 0⟩).toOption.map
      (fun r => (r.1.map fun m => m.bindings.length, r.2)) = some ([3], ⟨5, 3, 3⟩) := by
    decide +kernel
  rw [isFound] at counts
  obtain ⟨lengths, stats⟩ := Prod.mk.inj (Option.some.inj counts)
  exact ⟨found, same.trans isFound, lengths, stats⟩

end Engine

end ScoredChaining
