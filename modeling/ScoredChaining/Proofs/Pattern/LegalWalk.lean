import ScoredChaining.Pattern.Walk

/-!
Legal walks: what it means to follow a path of keys through the committed facts.

A walk is a list of moves of a stack machine (`Legal`). A move crosses a link from the vertex on top
of the stack, which no earlier move has crossed, and pushes the target; or it pops the stack, which
needs at least two entries. Crossed links stay crossed when the stack is popped.

* `LegalRun.nodup_links`: no link is crossed twice.
* `Follows.eq_of_boundFacts`: moves are determined by their path and the facts they bind.
* `Follows.legalRun`: moves that only mind the stack are legal if they cross no link twice.
-/

namespace ScoredChaining

/-- A move of a walk. -/
inductive Move where
  /-- Over a link, whose target is bound under the key. -/
  | cross (key : Key) (link : Link)
  /-- Back to the previous vertex. -/
  | back
  deriving DecidableEq

namespace Move

/-- The key that a move follows. -/
def key : Move → Key
  | .cross key _ => key
  | .back => .parent

/-- What a move binds. -/
def binding? : Move → Option Binding
  | .cross key link => some ⟨key, link.target⟩
  | .back => none

/-- The link that a move crosses. -/
def link? : Move → Option Link
  | .cross _ link => some link
  | .back => none

end Move

/-- The path that moves follow. -/
def pathOf (moves : List Move) : List Key :=
  moves.map Move.key

/-- What moves bind, in order. -/
def bindingsOf (moves : List Move) : List Binding :=
  moves.filterMap Move.binding?

/-- The links that moves cross, in order. -/
def linksOf (moves : List Move) : List Link :=
  moves.filterMap Move.link?

/-- The facts that moves bind, in order. -/
def boundFacts (moves : List Move) : List EdgeId :=
  moves.filterMap fun m => m.link?.bind fun l => l.target.edge?

@[simp] theorem pathOf_nil : pathOf [] = [] := rfl

@[simp] theorem pathOf_cons (m : Move) (moves : List Move) :
    pathOf (m :: moves) = m.key :: pathOf moves := rfl

@[simp] theorem pathOf_append (moves others : List Move) :
    pathOf (moves ++ others) = pathOf moves ++ pathOf others :=
  List.map_append

@[simp] theorem bindingsOf_nil : bindingsOf [] = [] := rfl

@[simp] theorem bindingsOf_cross (key : Key) (l : Link) (moves : List Move) :
    bindingsOf (.cross key l :: moves) = ⟨key, l.target⟩ :: bindingsOf moves := rfl

@[simp] theorem bindingsOf_back (moves : List Move) :
    bindingsOf (.back :: moves) = bindingsOf moves := rfl

@[simp] theorem linksOf_nil : linksOf [] = [] := rfl

@[simp] theorem linksOf_cross (key : Key) (l : Link) (moves : List Move) :
    linksOf (.cross key l :: moves) = l :: linksOf moves := rfl

@[simp] theorem linksOf_back (moves : List Move) : linksOf (.back :: moves) = linksOf moves := rfl

@[simp] theorem boundFacts_nil : boundFacts [] = [] := rfl

@[simp] theorem boundFacts_fact (key : Key) (v : Vertex) (e : EdgeId) (p : Position)
    (moves : List Move) :
    boundFacts (.cross key ⟨v, .edge e, p⟩ :: moves) = e :: boundFacts moves := rfl

@[simp] theorem boundFacts_node (key : Key) (v : Vertex) (n : NodeId) (p : Position)
    (moves : List Move) :
    boundFacts (.cross key ⟨v, .node n, p⟩ :: moves) = boundFacts moves := rfl

@[simp] theorem boundFacts_back (moves : List Move) :
    boundFacts (.back :: moves) = boundFacts moves := rfl

@[simp] theorem linksOf_append (moves others : List Move) :
    linksOf (moves ++ others) = linksOf moves ++ linksOf others :=
  List.filterMap_append

@[simp] theorem boundFacts_append (moves others : List Move) :
    boundFacts (moves ++ others) = boundFacts moves ++ boundFacts others :=
  List.filterMap_append

/-- Where the stack machine stands: the vertices from the present one back to the start, and the
links crossed so far, the latest first. -/
structure Stand where
  stack : List Vertex
  crossed : List Link
  deriving DecidableEq

/-- The machine at its start: nothing is crossed. -/
def Stand.start (v : Vertex) : Stand :=
  ⟨[v], []⟩

section Machine

variable (facts : FactBase) (g : Graph)

/-- A vertex can be entered over a position under a key: a committed fact under its relation, a live
node under its type. -/
inductive Enters : Key → Vertex → Position → Prop where
  | relation {e : EdgeId} {edge : Edge} {r : RelationId} {p : Position} :
      facts.edge? e = some edge → edge.relation = r → Enters (.relation r p) (.edge e) p
  | type {n : NodeId} {node : Node} {t : TypeId} {p : Position} :
      g.nodes.get? n = some node → node.type = t → Enters (.type t p) (.node n) p

/-- One move of the stack machine. -/
inductive Legal : Stand → Move → Stand → Prop where
  | cross {top target : Vertex} {rest : List Vertex} {crossed : List Link} {key : Key}
      {p : Position} : (target, p) ∈ facts.neighbors top → Enters facts g key target p →
      ⟨top, target, p⟩ ∉ crossed →
      Legal ⟨top :: rest, crossed⟩ (.cross key ⟨top, target, p⟩)
        ⟨target :: top :: rest, ⟨top, target, p⟩ :: crossed⟩
  | back {top previous : Vertex} {rest : List Vertex} {crossed : List Link} :
      Legal ⟨top :: previous :: rest, crossed⟩ .back ⟨previous :: rest, crossed⟩

/-- Moves of the stack machine, one after the other. -/
inductive LegalRun : Stand → List Move → Stand → Prop where
  | nil {s : Stand} : LegalRun s [] s
  | cons {s s' s'' : Stand} {m : Move} {moves : List Move} : Legal facts g s m s' →
      LegalRun s' moves s'' → LegalRun s (m :: moves) s''

/-- Moves that mind the stack, but not which links have been crossed. -/
inductive Follows : List Vertex → List Move → List Vertex → Prop where
  | nil {stack : List Vertex} : Follows stack [] stack
  | cross {top target : Vertex} {rest stack : List Vertex} {key : Key} {p : Position}
      {moves : List Move} : (target, p) ∈ facts.neighbors top → Enters facts g key target p →
      Follows (target :: top :: rest) moves stack →
      Follows (top :: rest) (.cross key ⟨top, target, p⟩ :: moves) stack
  | back {top previous : Vertex} {rest stack : List Vertex} {moves : List Move} :
      Follows (previous :: rest) moves stack →
      Follows (top :: previous :: rest) (.back :: moves) stack

/-- A legal walk from a vertex. -/
def LegalWalk (v : Vertex) (moves : List Move) : Prop :=
  ∃ s, LegalRun facts g (.start v) moves s

end Machine

variable {facts : FactBase} {g : Graph}

/-! ### The key of a step -/

theorem Graph.typeOf_eq_ok_iff {n : NodeId} {t : TypeId} :
    g.typeOf n = .ok t ↔ ∃ node, g.nodes.get? n = some node ∧ node.type = t := by
  unfold Graph.typeOf Graph.node
  cases g.nodes.get? n <;> simp [Except.map]

/-- The walk of a tree enters a neighbour under exactly the key that the machine allows. -/
theorem stepKey_eq_ok_iff {key : Key} {v : Vertex} {p : Position} :
    stepKey facts g p v = .ok key ↔ Enters facts g key v p := by
  constructor
  · intro h
    cases v with
    | edge e =>
      cases found : facts.edge? e with
      | none => simp [stepKey, found] at h
      | some edge =>
        simp only [stepKey, found, Except.ok.injEq] at h
        exact h ▸ .relation found rfl
    | node n =>
      cases typed : g.typeOf n with
      | error failure => simp [stepKey, typed, Except.map] at h
      | ok t =>
        simp only [stepKey, typed, Except.map, Except.ok.injEq] at h
        obtain ⟨node, live, rfl⟩ := Graph.typeOf_eq_ok_iff.mp typed
        exact h ▸ .type live rfl
  · intro h
    cases h with
    | relation found same => simp [stepKey, found, same]
    | type live same => simp [stepKey, Graph.typeOf_eq_ok_iff.mpr ⟨_, live, same⟩, Except.map]

/-! ### Runs -/

namespace LegalRun

/-- No link is crossed twice. -/
theorem nodup_links {s s' : Stand} {moves : List Move} (run : LegalRun facts g s moves s') :
    (linksOf moves).Nodup ∧ ∀ l ∈ linksOf moves, l ∉ s.crossed := by
  induction run with
  | nil => simp
  | cons legal _ ih =>
    cases legal with
    | cross _ _ fresh =>
      obtain ⟨nodup, new⟩ := ih
      simp only [linksOf_cross, List.nodup_cons, List.mem_cons] at new ⊢
      refine ⟨⟨fun again => new _ again (.inl rfl), nodup⟩, ?_⟩
      rintro l (rfl | later)
      · exact fresh
      · exact fun old => new l later (.inr old)
    | back => exact ih

end LegalRun

/-! ### What determines a walk -/

/-- From a fact a position leads to at most one node, and from a node never to a node. -/
theorem node_neighbor_unique {top : Vertex} {m n : NodeId} {p : Position}
    (first : (Vertex.node m, p) ∈ facts.neighbors top)
    (second : (Vertex.node n, p) ∈ facts.neighbors top) : m = n := by
  cases top with
  | node k => simp [FactBase.neighbors] at first
  | edge e =>
    cases found : facts.edge? e with
    | none => simp [FactBase.neighbors, found] at first
    | some edge =>
      have atM : edge.nodeAt? p = some m := by
        simpa [FactBase.neighbors, found, Edge.mem_endpoints] using first
      have atN : edge.nodeAt? p = some n := by
        simpa [FactBase.neighbors, found, Edge.mem_endpoints] using second
      exact Option.some.inj (atM.symm.trans atN)

namespace Follows

variable {stack stack' stack'' : List Vertex} {moves others : List Move}

theorem append (first : Follows facts g stack moves stack')
    (second : Follows facts g stack' others stack'') :
    Follows facts g stack (moves ++ others) stack'' := by
  induction first with
  | nil => exact second
  | cross neighbor enters _ ih => exact .cross neighbor enters (ih second)
  | back _ ih => exact .back (ih second)

theorem of_append (run : Follows facts g stack (moves ++ others) stack'') :
    ∃ stack', Follows facts g stack moves stack' ∧ Follows facts g stack' others stack'' := by
  induction moves generalizing stack with
  | nil => exact ⟨stack, .nil, run⟩
  | cons m moves ih =>
    cases run with
    | cross neighbor enters rest =>
      obtain ⟨stack', first, second⟩ := ih rest
      exact ⟨stack', .cross neighbor enters first, second⟩
    | back rest =>
      obtain ⟨stack', first, second⟩ := ih rest
      exact ⟨stack', .back first, second⟩

/-- Only steps back follow the key back. -/
theorem eq_back (run : Follows facts g stack moves stack') {m : Move} (mem : m ∈ moves)
    (parent : m.key = .parent) : m = .back := by
  induction run with
  | nil => cases mem
  | cross _ enters _ ih =>
    rcases List.mem_cons.mp mem with rfl | later
    · cases enters <;> cases parent
    · exact ih later
  | back _ ih =>
    rcases List.mem_cons.mp mem with rfl | later
    · rfl
    · exact ih later

/-- The moves are determined by their path and the facts that they bind. -/
theorem eq_of_boundFacts (first : Follows facts g stack moves stack')
    (second : Follows facts g stack others stack'') (path : pathOf moves = pathOf others)
    (bound : boundFacts moves = boundFacts others) : moves = others := by
  induction first generalizing others with
  | nil =>
    cases second with
    | nil => rfl
    | cross _ _ _ => simp at path
    | back _ => simp at path
  | @back _ _ _ _ rest _ ih =>
    cases second with
    | nil => simp at path
    | back second =>
      obtain ⟨_, samePath⟩ := List.cons.inj path
      rw [ih second samePath bound]
    | cross _ enters _ =>
      cases enters <;> simp [Move.key] at path
  | @cross top target _ _ key p rest neighbor enters _ ih =>
    cases second with
    | nil => simp at path
    | back _ => cases enters <;> simp [Move.key] at path
    | @cross _ target' _ _ key' p' rest' neighbor' enters' second =>
      obtain ⟨sameKey, samePath⟩ : key = key' ∧ pathOf rest = pathOf rest' := by
        simpa [Move.key] using path
      subst sameKey
      -- A step onto a fact is told by the fact, a step onto a node by the position.
      have same : target = target' ∧ p = p' ∧ boundFacts rest = boundFacts rest' := by
        cases enters with
        | relation _ _ =>
          cases enters' with
          | relation _ _ =>
            obtain ⟨sameFact, sameRest⟩ := by simpa using bound
            exact ⟨by rw [sameFact], rfl, sameRest⟩
        | type _ _ =>
          cases enters' with
          | type _ _ =>
            exact ⟨by rw [node_neighbor_unique neighbor neighbor'], rfl, by simpa using bound⟩
      obtain ⟨rfl, rfl, sameBound⟩ := same
      rw [ih second samePath sameBound]

/-- The moves are legal if they cross no link twice. -/
theorem legalRun (run : Follows facts g stack moves stack') {crossed : List Link}
    (fresh : ((linksOf moves).reverse ++ crossed).Nodup) :
    LegalRun facts g ⟨stack, crossed⟩ moves ⟨stack', (linksOf moves).reverse ++ crossed⟩ := by
  induction run generalizing crossed with
  | nil => exact .nil
  | cross neighbor enters _ ih =>
    simp only [linksOf_cross, List.reverse_cons, List.append_assoc, List.singleton_append]
      at fresh ⊢
    have new := (List.nodup_cons.mp (List.nodup_append.mp fresh).2.1).1
    exact .cons (.cross neighbor enters new) (ih fresh)
  | back _ ih => exact .cons .back (ih fresh)

end Follows

theorem LegalRun.follows {s s' : Stand} {moves : List Move} (run : LegalRun facts g s moves s') :
    Follows facts g s.stack moves s'.stack := by
  induction run with
  | nil => exact .nil
  | cons legal _ ih =>
    cases legal with
    | cross neighbor enters _ => exact .cross neighbor enters ih
    | back => exact .back ih

end ScoredChaining
