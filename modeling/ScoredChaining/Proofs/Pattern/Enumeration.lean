import Mathlib.Data.List.Nodup
import ScoredChaining.Proofs.Pattern.LegalWalk
import ScoredChaining.Proofs.Pattern.Paths
import ScoredChaining.Proofs.Pattern.Trace

/-!
The enumeration of legal walks by a tree of patterns.

`Trie.walks` lists the walks through a tree in the order in which the visit of the tree meets them.
The visit keeps one trace, which it changes and restores; the list has no state.

* `Trie.matchEdge_eq`: matching reports exactly the listed walks, in order.
* `Trie.mem_walks_iff`: the listed walks are the legal walks along paths that carry actions.
* `Trie.nodup_walks`: no walk is listed twice.
-/

namespace ScoredChaining

variable {γ φ : Type}

/-- The walks through a tree from where the machine stands, each with the actions at its end. -/
abbrev Walks (γ φ : Type) := Stand → List (List Move × Actions γ φ)

/-- A walk with one more move in front. -/
def startWith (m : Move) (walk : List Move × Actions γ φ) : List Move × Actions γ φ :=
  (m :: walk.1, walk.2)

section Enumeration

variable (facts : FactBase) (g : Graph)

/-- The walks that go back first. -/
def walksBack (walks? : Option (Walks γ φ)) (s : Stand) : List (List Move × Actions γ φ) :=
  match walks?, s.stack with
  | some walks, _ :: previous :: rest =>
    (walks ⟨previous :: rest, s.crossed⟩).map (startWith .back)
  | _, _ => []

/-- The walks that cross the link to a neighbour of the present vertex first. -/
def walksOver (branch : Key → Option (Walks γ φ)) (current : Vertex) (s : Stand)
    (neighbor : Vertex × Position) : List (List Move × Actions γ φ) :=
  let l : Link := ⟨current, neighbor.1, neighbor.2⟩
  if l ∈ s.crossed then []
  else
    match stepKey facts g neighbor.2 neighbor.1 with
    | .error _ => []
    | .ok key =>
      match branch key with
      | none => []
      | some walks =>
        (walks ⟨neighbor.1 :: s.stack, l :: s.crossed⟩).map (startWith (.cross key l))

/-- The walks through a tree node: the one that ends there, those that go back, and those over each
neighbour in order. -/
def walksAt (actions : Option (Actions γ φ)) (branch : Key → Option (Walks γ φ)) : Walks γ φ :=
  fun s => (actions.toList.map fun a => ([], a)) ++ (walksBack (branch .parent) s ++
    (match s.stack with
    | [] => []
    | current :: _ => (facts.neighbors current).flatMap (walksOver facts g branch current s)))

mutual

/-- The walks through a tree. -/
def Trie.walks : Trie γ φ → Walks γ φ
  | .node actions branches => walksAt facts g actions (Branches.walks? branches)

/-- The walks through the child under a key. -/
def Branches.walks? : Branches γ φ → Key → Option (Walks γ φ)
  | .nil, _ => none
  | .cons k child rest, key => if key = k then some (Trie.walks child) else Branches.walks? rest key

end

end Enumeration

variable {facts : FactBase} {g : Graph}

theorem Branches.walks?_eq (branches : Branches γ φ) (key : Key) :
    Branches.walks? facts g branches key =
      (branches.child? key).map (Trie.walks facts g) := by
  induction branches using Branches.rec (motive_1 := fun _ => True) with
  | node _ _ _ => trivial
  | nil => simp [Branches.walks?, Branches.child?]
  | cons k child rest _ ih =>
    simp only [Branches.walks?, Branches.child?]
    split
    · rfl
    · exact ih

theorem Trie.walks_eq (t : Trie γ φ) : t.walks facts g =
    walksAt facts g t.actions fun key => (t.branches.child? key).map (Trie.walks facts g) := by
  cases t with
  | node actions branches =>
    funext s
    simp only [Trie.walks, Trie.actions, Trie.branches, funext (Branches.walks?_eq branches)]

/-! ### The listed walks are the legal ones -/

variable (facts g) in
theorem mem_walksBack {walks? : Option (Walks γ φ)} {s : Stand} {moves : List Move}
    {a : Actions γ φ} : (moves, a) ∈ walksBack walks? s ↔
      ∃ walks rest s', walks? = some walks ∧ moves = .back :: rest ∧ Legal facts g s .back s' ∧
        (rest, a) ∈ walks s' := by
  obtain ⟨stack, crossed⟩ := s
  constructor
  · intro h
    unfold walksBack at h
    split at h
    · rename_i walks _ _ _ shape
      simp only at shape
      subst shape
      obtain ⟨⟨rest, b⟩, listed, same⟩ := List.mem_map.mp h
      simp only [startWith, Prod.mk.injEq] at same
      obtain ⟨rfl, rfl⟩ := same
      exact ⟨walks, rest, _, rfl, rfl, .back, listed⟩
    · simp at h
  · rintro ⟨walks, rest, s', rfl, rfl, legal, listed⟩
    cases legal with
    | back => exact List.mem_map.mpr ⟨(rest, a), listed, rfl⟩

theorem mem_walksOver {branch : Key → Option (Walks γ φ)} {current : Vertex} {s : Stand}
    {neighbor : Vertex × Position} {moves : List Move} {a : Actions γ φ} :
    (moves, a) ∈ walksOver facts g branch current s neighbor ↔
      ∃ key walks rest, Enters facts g key neighbor.1 neighbor.2 ∧ branch key = some walks ∧
        moves = .cross key ⟨current, neighbor.1, neighbor.2⟩ :: rest ∧
        ⟨current, neighbor.1, neighbor.2⟩ ∉ s.crossed ∧
        (rest, a) ∈ walks ⟨neighbor.1 :: s.stack, ⟨current, neighbor.1, neighbor.2⟩ :: s.crossed⟩ := by
  constructor
  · intro h
    by_cases crossed : ⟨current, neighbor.1, neighbor.2⟩ ∈ s.crossed
    · simp [walksOver, crossed] at h
    · cases known : stepKey facts g neighbor.2 neighbor.1 with
      | error failure => simp [walksOver, crossed, known] at h
      | ok key =>
        cases found : branch key with
        | none => simp [walksOver, crossed, known, found] at h
        | some walks =>
          simp only [walksOver, if_neg crossed, known, found] at h
          obtain ⟨⟨rest, b⟩, listed, same⟩ := List.mem_map.mp h
          simp only [startWith, Prod.mk.injEq] at same
          obtain ⟨rfl, rfl⟩ := same
          exact ⟨key, walks, rest, stepKey_eq_ok_iff.mp known, found, rfl, crossed, listed⟩
  · rintro ⟨key, walks, rest, enters, found, rfl, fresh, listed⟩
    simp only [walksOver, if_neg fresh, stepKey_eq_ok_iff.mpr enters, found]
    exact List.mem_map.mpr ⟨(rest, a), listed, rfl⟩

/-- A listed walk ends at once, or its first move is legal and leads into a branch. -/
theorem mem_walksAt {actions : Option (Actions γ φ)} {branch : Key → Option (Walks γ φ)}
    {s : Stand} {moves : List Move} {a : Actions γ φ} :
    (moves, a) ∈ walksAt facts g actions branch s ↔
      (moves = [] ∧ actions = some a) ∨
      ∃ m walks rest s', moves = m :: rest ∧ Legal facts g s m s' ∧ branch m.key = some walks ∧
        (rest, a) ∈ walks s' := by
  simp only [walksAt, List.mem_append, List.mem_map, Option.mem_toList, Prod.mk.injEq]
  constructor
  · rintro (⟨b, found, rfl, rfl⟩ | back | across)
    · exact .inl ⟨rfl, found⟩
    · obtain ⟨walks, rest, s', found, rfl, legal, listed⟩ := (mem_walksBack facts g).mp back
      exact .inr ⟨.back, walks, rest, s', rfl, legal, found, listed⟩
    · split at across
      · simp at across
      · rename_i current earlier shape
        obtain ⟨stack, crossed⟩ := s
        simp only at shape
        subst shape
        obtain ⟨⟨target, p⟩, neighbor, across⟩ := List.mem_flatMap.mp across
        obtain ⟨key, walks, rest, enters, found, rfl, fresh, listed⟩ := mem_walksOver.mp across
        exact .inr ⟨_, walks, rest, _, rfl, .cross neighbor enters fresh, found, listed⟩
  · rintro (⟨rfl, found⟩ | ⟨m, walks, rest, s', rfl, legal, found, listed⟩)
    · exact .inl ⟨a, found, rfl, rfl⟩
    · cases legal with
      | back =>
        exact .inr (.inl ((mem_walksBack facts g).mpr
          ⟨walks, rest, _, found, rfl, .back, listed⟩))
      | cross neighbor enters fresh =>
        refine .inr (.inr (List.mem_flatMap.mpr ⟨_, neighbor, mem_walksOver.mpr ?_⟩))
        exact ⟨_, walks, rest, enters, found, rfl, fresh, listed⟩

/-- The listed walks are the legal walks along paths that carry actions. -/
theorem Trie.mem_walks_iff {t : Trie γ φ} {s : Stand} {moves : List Move} {a : Actions γ φ} :
    (moves, a) ∈ t.walks facts g s ↔
      (∃ s', LegalRun facts g s moves s') ∧ t.actionsAt? (pathOf moves) = some a := by
  induction moves generalizing t s with
  | nil =>
    rw [Trie.walks_eq, mem_walksAt]
    constructor
    · rintro (⟨-, found⟩ | ⟨_, _, _, _, impossible, _⟩)
      · exact ⟨⟨s, .nil⟩, found⟩
      · cases impossible
    · rintro ⟨-, found⟩
      exact .inl ⟨rfl, found⟩
  | cons m moves ih =>
    rw [Trie.walks_eq, mem_walksAt, pathOf_cons, Trie.actionsAt?_cons]
    constructor
    · rintro (⟨impossible, _⟩ | ⟨_, _, _, s', same, legal, found, listed⟩)
      · cases impossible
      · obtain ⟨rfl, rfl⟩ := List.cons.inj same
        obtain ⟨child, isChild, rfl⟩ := Option.map_eq_some_iff.mp found
        obtain ⟨⟨s'', run⟩, atEnd⟩ := ih.mp listed
        exact ⟨⟨s'', .cons legal run⟩, by rw [isChild, Option.bind_some, atEnd]⟩
    · rintro ⟨⟨s'', run⟩, atEnd⟩
      cases run with
      | cons legal run =>
        obtain ⟨child, isChild, atEnd⟩ := Option.bind_eq_some_iff.mp atEnd
        exact .inr ⟨m, _, moves, _, rfl, legal, by rw [isChild, Option.map_some],
          ih.mpr ⟨⟨s'', run⟩, atEnd⟩⟩

/-! ### No walk is listed twice -/

theorem startWith_injective (m : Move) : Function.Injective (startWith (γ := γ) (φ := φ) m) := by
  rintro ⟨moves, a⟩ ⟨others, b⟩ same
  simpa [startWith] using same

/-- Every walk over a neighbour begins with the link to that neighbour. -/
theorem head_of_mem_walksOver {branch : Key → Option (Walks γ φ)} {current : Vertex} {s : Stand}
    {neighbor : Vertex × Position} {walk : List Move × Actions γ φ}
    (listed : walk ∈ walksOver facts g branch current s neighbor) :
    ∃ key, walk.1.head? = some (.cross key ⟨current, neighbor.1, neighbor.2⟩) := by
  obtain ⟨key, _, _, _, _, shape, _⟩ := mem_walksOver.mp listed
  exact ⟨key, by rw [shape]; rfl⟩

theorem nodup_walksOver {branch : Key → Option (Walks γ φ)} {current : Vertex} {s : Stand}
    {neighbor : Vertex × Position}
    (branches : ∀ key walks, branch key = some walks → ∀ s, (walks s).Nodup) :
    (walksOver facts g branch current s neighbor).Nodup := by
  simp only [walksOver]
  split
  · exact List.nodup_nil
  · split
    · exact List.nodup_nil
    · split
      · exact List.nodup_nil
      · rename_i walks found
        exact (branches _ walks found _).map (startWith_injective _)

theorem nodup_walksBack {walks? : Option (Walks γ φ)} {s : Stand}
    (branch : ∀ walks, walks? = some walks → ∀ s, (walks s).Nodup) :
    (walksBack walks? s).Nodup := by
  unfold walksBack
  split
  · exact (branch _ rfl _).map (startWith_injective _)
  · exact List.nodup_nil

/-- The three parts of the list, and the walks over different neighbours, differ in the first
move. -/
theorem nodup_walksAt (neighbors : ∀ v, (facts.neighbors v).Nodup)
    {actions : Option (Actions γ φ)} {branch : Key → Option (Walks γ φ)}
    (branches : ∀ key walks, branch key = some walks → ∀ s, (walks s).Nodup) (s : Stand) :
    (walksAt facts g actions branch s).Nodup := by
  have ends : (actions.toList.map fun a => (([] : List Move), a)).Nodup := by
    cases actions <;> simp
  have across : ∀ current, ((facts.neighbors current).flatMap
      (walksOver facts g branch current s)).Nodup := by
    intro current
    refine List.nodup_flatMap.mpr ⟨fun _ _ => nodup_walksOver branches, ?_⟩
    refine (neighbors current).imp ?_
    intro x y differ walk inX inY
    obtain ⟨_, headX⟩ := head_of_mem_walksOver inX
    obtain ⟨_, headY⟩ := head_of_mem_walksOver inY
    rw [headX] at headY
    simp only [Option.some.injEq, Move.cross.injEq, Link.mk.injEq] at headY
    exact differ (Prod.ext headY.2.2.1 headY.2.2.2)
  unfold walksAt
  refine List.Nodup.append ends (List.Nodup.append (nodup_walksBack (branches _)) ?_ ?_) ?_
  · split
    · exact List.nodup_nil
    · exact across _
  · rintro ⟨moves, a⟩ back inOver
    obtain ⟨_, _, _, _, rfl, _⟩ := (mem_walksBack facts g).mp back
    split at inOver
    · simp at inOver
    · obtain ⟨_, _, inOver⟩ := List.mem_flatMap.mp inOver
      obtain ⟨_, impossible⟩ := head_of_mem_walksOver inOver
      simp at impossible
  · rintro ⟨moves, a⟩ atEnd inRest
    obtain ⟨_, _, same⟩ := List.mem_map.mp atEnd
    obtain ⟨rfl, rfl⟩ := Prod.mk.inj same
    rcases List.mem_append.mp inRest with back | inOver
    · obtain ⟨_, _, _, _, impossible, _⟩ := (mem_walksBack facts g).mp back
      cases impossible
    · split at inOver
      · simp at inOver
      · obtain ⟨_, _, inOver⟩ := List.mem_flatMap.mp inOver
        obtain ⟨_, impossible⟩ := head_of_mem_walksOver inOver
        simp at impossible

mutual

/-- No walk through a tree is listed twice. -/
theorem Trie.nodup_walks (neighbors : ∀ v, (facts.neighbors v).Nodup) (t : Trie γ φ) (s : Stand) :
    (t.walks facts g s).Nodup := by
  match t with
  | .node _ branches =>
    rw [Trie.walks]
    exact nodup_walksAt neighbors (Branches.nodup_walks neighbors branches) s

theorem Branches.nodup_walks (neighbors : ∀ v, (facts.neighbors v).Nodup) (branches : Branches γ φ)
    (key : Key) (walks : Walks γ φ) (found : branches.walks? facts g key = some walks) (s : Stand) :
    (walks s).Nodup := by
  match branches with
  | .nil => simp [Branches.walks?] at found
  | .cons k child rest =>
    rw [Branches.walks?] at found
    split at found
    · obtain rfl := Option.some.inj found
      exact Trie.nodup_walks neighbors child s
    · exact Branches.nodup_walks neighbors rest key walks found s

end

/-! ### The visit reports the listed walks -/

/-- Every neighbour that a vertex has can be entered under some key. -/
def Enterable (facts : FactBase) (g : Graph) : Prop :=
  ∀ v n p, (n, p) ∈ facts.neighbors v → ∃ key, Enters facts g key n p

/-- Where the machine stands when the trace of a visit does. -/
def Trace.stand (t : Trace) : Stand :=
  ⟨t.stack, t.links⟩

/-- What is reported of a walk that continues a trace. -/
def reported (t : Trace) (walk : List Move × Actions γ φ) : Match γ φ :=
  ⟨walk.2, t.bindings.reverse ++ bindingsOf walk.1⟩

/-- A visit succeeds, restores the trace, and reports exactly the walks, in order. -/
def Reports (visit : Visit γ φ) (walks : Walks γ φ) : Prop :=
  ∀ (current : Vertex) (w : Walk γ φ), w.trace.stack.head? = some current → w.trace.Recorded →
    ∃ stats, visit current w =
      .ok ⟨w.trace, stats, w.found ++ (walks w.trace.stand).map (reported w.trace)⟩

theorem reported_cross (t : Trace) (key : Key) (l : Link) (walks : List (List Move × Actions γ φ)) :
    (walks.map (startWith (.cross key l))).map (reported t) =
      walks.map (reported (t.cross key l)) := by
  simp [reported, startWith, Trace.cross]

theorem reported_back (t : Trace) (stack : List Vertex) (walks : List (List Move × Actions γ φ)) :
    (walks.map (startWith .back)).map (reported t) =
      walks.map (reported { t with stack }) := by
  simp [reported, startWith]

variable {visits : Key → Option (Visit γ φ)} {branch : Key → Option (Walks γ φ)}

/-- Either both parts are missing, or both are there and related. -/
theorem rel_cases {α β : Type} {R : α → β → Prop} {a : Option α} {b : Option β}
    (related : Option.Rel R a b) :
    (a = none ∧ b = none) ∨ ∃ x y, a = some x ∧ b = some y ∧ R x y := by
  cases related with
  | none => exact .inl ⟨rfl, rfl⟩
  | some related => exact .inr ⟨_, _, rfl, rfl, related⟩

theorem stepTo_reports (children : ∀ key, Option.Rel Reports (visits key) (branch key))
    {current : Vertex} {w : Walk γ φ} (recorded : w.trace.Recorded) {neighbor : Vertex × Position}
    (enterable : ∃ key, Enters facts g key neighbor.1 neighbor.2) :
    ∃ stats, stepTo facts g visits current w neighbor = .ok ⟨w.trace, stats,
      w.found ++ (walksOver facts g branch current w.trace.stand neighbor).map
        (reported w.trace)⟩ := by
  obtain ⟨target, p⟩ := neighbor
  obtain ⟨trace, stats, found⟩ := w
  obtain ⟨key, enters⟩ := enterable
  have known := stepKey_eq_ok_iff.mpr enters
  have isCrossed := recorded.isCrossed_iff ⟨current, target, p⟩
  by_cases crossed : ⟨current, target, p⟩ ∈ trace.links
  · exact ⟨stats, by simp [stepTo, isCrossed.mpr crossed, walksOver, Trace.stand, crossed]⟩
  · have new : trace.isCrossed ⟨current, target, p⟩ = false := by simpa [crossed] using isCrossed
    obtain ⟨visited, listed⟩ | ⟨visit, walks, visited, listed, reports⟩ := rel_cases (children key)
    · exact ⟨stats, by
        simp [stepTo, new, walksOver, Trace.stand, crossed, known, visited, listed]⟩
    · let l : Link := ⟨current, target, p⟩
      let next : Trace := trace.cross key l
      obtain ⟨stats', visitEq⟩ := reports target ⟨next,
        { stats with
          pushes := stats.pushes + 1
          maxCrossed := max stats.maxCrossed next.crossed.size }, found⟩ rfl (recorded.cross key l)
      refine ⟨stats', ?_⟩
      simp only [stepTo, new, Bool.false_eq_true, if_false, known, visited, Walk.stepOver,
        Trace.cross?, visitEq, l, next, Trace.uncross_cross new, walksOver, Trace.stand, crossed,
        listed, reported_cross]
      rfl

theorem foldlM_stepTo_reports (children : ∀ key, Option.Rel Reports (visits key) (branch key))
    (current : Vertex) {neighbors : List (Vertex × Position)}
    (enterable : ∀ n ∈ neighbors, ∃ key, Enters facts g key n.1 n.2) (w : Walk γ φ)
    (recorded : w.trace.Recorded) :
    ∃ stats, neighbors.foldlM (stepTo facts g visits current) w = .ok ⟨w.trace, stats,
      w.found ++ (neighbors.flatMap (walksOver facts g branch current w.trace.stand)).map
        (reported w.trace)⟩ := by
  induction neighbors generalizing w with
  | nil => exact ⟨w.stats, by simp [pure, Except.pure]⟩
  | cons n rest ih =>
    obtain ⟨stats, stepEq⟩ := stepTo_reports children recorded (enterable n List.mem_cons_self)
    obtain ⟨stats', restEq⟩ := ih (fun m mem => enterable m (List.mem_cons_of_mem _ mem))
      ⟨w.trace, stats, _⟩ recorded
    refine ⟨stats', ?_⟩
    rw [List.foldlM_cons, stepEq]
    simp only [bind, Except.bind]
    rw [restEq]
    simp

theorem stepBack_reports {visit : Visit γ φ} {walks : Walks γ φ} (reports : Reports visit walks)
    (w : Walk γ φ) (recorded : w.trace.Recorded) : ∃ stats, w.stepBack visit = .ok ⟨w.trace, stats,
      w.found ++ (walksBack (some walks) w.trace.stand).map (reported w.trace)⟩ := by
  obtain ⟨⟨stack, crossed, links, bindings⟩, stats, found⟩ := w
  match stack with
  | [] | [_] => exact ⟨stats, by simp [Walk.stepBack, walksBack, Trace.stand]⟩
  | top :: previous :: rest =>
    obtain ⟨stats', visitEq⟩ := reports previous
      ⟨⟨previous :: rest, crossed, links, bindings⟩, stats, found⟩ rfl recorded
    refine ⟨stats', ?_⟩
    simp only [Walk.stepBack, visitEq, walksBack, Trace.stand,
      reported_back _ (previous :: rest)]

theorem enter_reports (w : Walk γ φ) (actions : Option (Actions γ φ)) :
    ∃ stats, w.enter actions = ⟨w.trace, stats,
      w.found ++ (actions.toList.map fun a => (([] : List Move), a)).map (reported w.trace)⟩ := by
  cases actions <;> exact ⟨_, by simp [Walk.enter, reported]; rfl⟩

theorem walksOver_eq_nil (none : ∀ key, branch key = none) (current : Vertex) (s : Stand)
    (neighbor : Vertex × Position) : walksOver facts g branch current s neighbor = [] := by
  apply List.eq_nil_iff_forall_not_mem.mpr
  intro walk listed
  obtain ⟨key, _, _, _, found, _⟩ := mem_walksOver.mp listed
  rw [none key] at found
  cases found

theorem visitNode_reports (enterable : Enterable facts g)
    (children : ∀ key, Option.Rel Reports (visits key) (branch key))
    {actions : Option (Actions γ φ)} {isLeaf : Bool}
    (leaf : isLeaf = true → ∀ key, branch key = none) :
    Reports (visitNode facts g actions isLeaf visits) (walksAt facts g actions branch) := by
  rintro current ⟨trace, stats, found⟩ top recorded
  obtain ⟨earlier, shape⟩ := List.head?_eq_some_iff.mp top
  simp only at shape
  obtain ⟨stats₁, entered⟩ := enter_reports ⟨trace, stats, found⟩ actions
  simp only at entered
  generalize ended : found ++ (actions.toList.map fun a => (([] : List Move), a)).map
    (reported trace) = found₁ at entered
  cases isLeaf with
  | true =>
    refine ⟨stats₁, ?_⟩
    simp [← ended, shape, visitNode, entered, walksAt, walksBack, leaf rfl, Trace.stand,
      funext (walksOver_eq_nil (leaf rfl) current _)]
  | false =>
    -- What is found grows by the walk that ends here, those that go back, and those over neighbours.
    have across (w : Walk γ φ) := foldlM_stepTo_reports children current
      (fun n mem => enterable current n.1 n.2 mem) w
    simp only [visitNode, entered, Bool.false_eq_true, if_false]
    obtain ⟨visited, listed⟩ | ⟨visit, walks, visited, listed, reports⟩ :=
      rel_cases (children .parent)
    · obtain ⟨stats₂, overEq⟩ := across ⟨trace, stats₁, found₁⟩ recorded
      refine ⟨stats₂, ?_⟩
      simp only [visited, overEq]
      simp [← ended, walksAt, walksBack, listed, Trace.stand, shape]
    · obtain ⟨stats₂, backEq⟩ := stepBack_reports reports ⟨trace, stats₁, found₁⟩ recorded
      simp only at backEq
      generalize back : found₁ ++ _ = found₂ at backEq
      obtain ⟨stats₃, overEq⟩ := across ⟨trace, stats₂, found₂⟩ recorded
      refine ⟨stats₃, ?_⟩
      simp only [visited, backEq, overEq]
      simp [← back, ← ended, walksAt, listed, Trace.stand, shape]

mutual

theorem Trie.visit_reports (enterable : Enterable facts g) (t : Trie γ φ) :
    Reports (t.visit facts g) (t.walks facts g) := by
  match t with
  | .node actions branches =>
    rw [Trie.visit, Trie.walks]
    refine visitNode_reports enterable (Branches.visit_reports enterable branches) ?_
    intro leaf key
    cases branches with
    | nil => rw [Branches.walks?]
    | cons _ _ _ => simp [Branches.isEmpty] at leaf

theorem Branches.visit_reports (enterable : Enterable facts g) (branches : Branches γ φ)
    (key : Key) :
    Option.Rel Reports (branches.visit? facts g key) (branches.walks? facts g key) := by
  match branches with
  | .nil =>
    rw [Branches.visit?, Branches.walks?]
    exact .none
  | .cons k child rest =>
    rw [Branches.visit?, Branches.walks?]
    split
    · exact .some (Trie.visit_reports enterable child)
    · exact Branches.visit_reports enterable rest key

end

/-- Matching a committed fact succeeds and reports exactly the listed walks from its witness. -/
theorem Trie.matchEdge_eq (enterable : Enterable facts g) (t : Trie γ φ) {id : EdgeId}
    {edge : Edge} (committed : facts.edge? id = some edge) :
    ∃ stats, t.matchEdge facts g id = .ok ((t.walks facts g (.start (.node edge.head))).map
      fun walk => ⟨walk.2, bindingsOf walk.1⟩, stats) := by
  obtain ⟨stats, visitEq⟩ := t.visit_reports enterable (.node edge.head)
    ⟨.start (.node edge.head), ⟨0, 0, 0⟩, []⟩ rfl (Trace.recorded_start _)
  refine ⟨stats, ?_⟩
  simp only [Trie.matchEdge, committed, visitEq, Except.map]
  rfl

end ScoredChaining
