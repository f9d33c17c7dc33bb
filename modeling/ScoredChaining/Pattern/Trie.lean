import ScoredChaining.Pattern.Key

/-!
Patterns that share their beginnings, as a tree of keys. A node of the tree may carry actions:
what to do when a walk has followed the path to it.

The branches of a node are kept in the order of their keys, so the paths are listed in
lexicographic order.
-/

namespace ScoredChaining

/-- What a completed pattern triggers: generators of new candidates, and factors that change the
pending ones. -/
structure Actions (γ φ : Type) where
  generators : List γ
  factors : List φ

namespace Actions

variable {γ φ : Type}

/-- Nothing to do. -/
def none : Actions γ φ :=
  ⟨[], []⟩

/-- There is nothing to do. -/
def isEmpty (a : Actions γ φ) : Bool :=
  a.generators.isEmpty && a.factors.isEmpty

/-- One more generator, after the others. -/
def addGenerator (a : Actions γ φ) (generator : γ) : Actions γ φ :=
  { a with generators := a.generators ++ [generator] }

/-- One more factor, after the others. -/
def addFactor (a : Actions γ φ) (factor : φ) : Actions γ φ :=
  { a with factors := a.factors ++ [factor] }

end Actions

mutual

/-- A tree of patterns. -/
inductive Trie (γ φ : Type) where
  | node (actions : Option (Actions γ φ)) (branches : Branches γ φ)

/-- The branches of a node, each with its key. -/
inductive Branches (γ φ : Type) where
  | nil
  | cons (key : Key) (child : Trie γ φ) (rest : Branches γ φ)

end

variable {γ φ : Type}

/-- No patterns. -/
def Trie.empty : Trie γ φ :=
  .node none .nil

instance : Inhabited (Trie γ φ) := ⟨.empty⟩

/-- There is no branch. -/
def Branches.isEmpty : Branches γ φ → Bool
  | .nil => true
  | .cons _ _ _ => false

/-- The child under a key. -/
def Branches.child? (key : Key) : Branches γ φ → Option (Trie γ φ)
  | .nil => none
  | .cons k child rest => if key = k then some child else rest.child? key

/-- Changes the child under a key, which is created if there is none. -/
def Branches.update (key : Key) (change : Trie γ φ → Trie γ φ) : Branches γ φ → Branches γ φ
  | .nil => .cons key (change .empty) .nil
  | .cons k child rest =>
    match compare key k with
    | .lt => .cons key (change .empty) (.cons k child rest)
    | .eq => .cons k (change child) rest
    | .gt => .cons k child (rest.update key change)

namespace Trie

/-- The actions of the root. -/
def actions : Trie γ φ → Option (Actions γ φ)
  | .node actions _ => actions

/-- The branches of the root. -/
def branches : Trie γ φ → Branches γ φ
  | .node _ branches => branches

/-- The subtree at the end of a path, if the path exists. -/
def descend? : List Key → Trie γ φ → Option (Trie γ φ)
  | [], t => some t
  | key :: path, t => (t.branches.child? key).bind (descend? path)

/-- Changes the actions at the end of a path, which is created as far as it is missing. -/
def updateAt (change : Option (Actions γ φ) → Option (Actions γ φ)) :
    List Key → Trie γ φ → Trie γ φ
  | [], t => .node (change t.actions) t.branches
  | key :: path, t => .node t.actions (t.branches.update key (updateAt change path))

/-- Creates a path. -/
def insertPath (t : Trie γ φ) (path : List Key) : Trie γ φ :=
  t.updateAt id path

/-- Attaches a generator to the end of a path. -/
def addGenerator (t : Trie γ φ) (path : List Key) (generator : γ) : Trie γ φ :=
  t.updateAt (fun actions => some ((actions.getD .none).addGenerator generator)) path

/-- Attaches a factor to the end of a path. -/
def addFactor (t : Trie γ φ) (path : List Key) (factor : φ) : Trie γ φ :=
  t.updateAt (fun actions => some ((actions.getD .none).addFactor factor)) path

end Trie

mutual

/-- The number of nodes, the root included. -/
def Trie.size : Trie γ φ → Nat
  | .node _ branches => 1 + branches.size

/-- The number of nodes in the branches. -/
def Branches.size : Branches γ φ → Nat
  | .nil => 0
  | .cons _ child rest => child.size + rest.size

end

mutual

/-- The paths that carry actions, with their actions. A path comes before the longer ones that
begin with it. -/
def Trie.paths : Trie γ φ → List (List Key × Actions γ φ)
  | .node actions branches =>
    match actions with
    | some a => ([], a) :: branches.paths
    | none => branches.paths

/-- The paths of the branches that carry actions, with their actions. -/
def Branches.paths : Branches γ φ → List (List Key × Actions γ φ)
  | .nil => []
  | .cons key child rest =>
    (child.paths.map fun (path, a) => (key :: path, a)) ++ rest.paths

end

end ScoredChaining
