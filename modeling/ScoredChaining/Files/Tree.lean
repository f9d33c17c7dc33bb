import ScoredChaining.Files

/-!
Files held in memory, and how a system answers that is asked for them by their paths.

A path is followed name by name, each name being looked up in the directory that the names before
it lead to. The first name that cannot be followed decides the failure: the name stands behind a
file, it is too long, or there is nothing under it.
-/

namespace ScoredChaining

/-- Where something lies: the names on the way from the root, the last one first. -/
abbrev FileTree.Place := List String

/-- What can lie at a place. -/
inductive FileTree.Entry where
  /-- A directory. A closed one has the names that it has. -/
  | directory (isClosed : Bool)
  | file (text : String)

/-- Directories and files. -/
structure FileTree where
  /-- Where the paths start that do not start at the root. -/
  working : FileTree.Place
  /-- What lies where, the latest change first. What is on the way to a place is a directory and
  need not be listed. -/
  entries : List (FileTree.Place × FileTree.Entry)

/-- The most bytes of a name. -/
def FileTree.longestName : Nat := 255

/-- The most bytes of a path. -/
def FileTree.longestPath : Nat := 4095

namespace FileTree

/-! ### Following paths -/

/-- What lies at a place. -/
def entry? (t : FileTree) (place : Place) : Option Entry :=
  match t.entries.lookup place with
  | some e => some e
  | none =>
    if (t.working :: t.entries.map Prod.fst).any place.isSuffixOf then some (.directory false)
    else none

/-- A directory lies at the place. -/
def isDirectory (t : FileTree) (place : Place) : Bool :=
  match t.entry? place with
  | some (.directory _) => true
  | _ => false

/-- Follows names from a place. -/
def walk (t : FileTree) (place : Place) : List String → Except SystemError Place
  | [] => .ok place
  | name :: rest =>
    if !t.isDirectory place then .error .notDirectory
    else if Path.isSelf name then t.walk place rest
    else if name = ".." then t.walk place.tail rest
    else if longestName < name.utf8ByteSize then .error .nameTooLong
    else if (t.entry? (name :: place)).isNone then .error .missing
    else t.walk (name :: place) rest

/-- The place where following a path starts. A path is refused whole when it holds a null
character, is empty or is too long. -/
def start (t : FileTree) (path : String) : Except SystemError Place :=
  if path.toList.contains '\x00' then .error .nullCharacter
  else if path = "" then .error .missing
  else if longestPath < path.utf8ByteSize then .error .nameTooLong
  else .ok (if Path.isAbsolute path then [] else t.working)

/-- The place that a path leads to. -/
def follow (t : FileTree) (path : String) : Except SystemError Place := do
  t.walk (← t.start path) (Path.names path)

/-- The text of the file that a path leads to. -/
def read (t : FileTree) : FileReader := fun path => do
  match t.entry? (← t.follow path) with
  | some (.file text) => .ok text
  | some (.directory _) => .error .isDirectory
  | none => .error .missing

/-! ### Changes

A change that fails leaves the tree as it is. -/

/-- The directory that a path leads to without its last name, and that name. There is none for the
root, and none where the last name stands for a directory that is there already. -/
def site (t : FileTree) (path : String) : Except SystemError (Place × Option String) := do
  let place ← t.start path
  match (Path.names path).reverse.dropWhile (· = "") with
  | [] => return (place, none)
  | name :: before =>
    let place ← t.walk place before.reverse
    if !t.isDirectory place then throw .notDirectory
    return (place, if name = "." || name = ".." then none else some name)

/-- Puts something under a name in a directory. -/
def put (t : FileTree) (place : Place) (name : String) (e : Entry) :
    Except SystemError FileTree :=
  if longestName < name.utf8ByteSize then .error .nameTooLong
  else
    match t.entry? (name :: place), t.entry? place with
    | none, some (.directory true) => .error .missing
    | _, _ => .ok { t with entries := (name :: place, e) :: t.entries }

/-- Writes a text to the file at a path. -/
def write (t : FileTree) (path text : String) : Except SystemError FileTree := do
  match ← t.site path with
  | (_, none) => throw .isDirectory
  | (place, some name) =>
    if (Path.names path).getLast? = some "" || t.isDirectory (name :: place) then
      throw .isDirectory
    t.put place name (.file text)

/-- Creates a directory where nothing is. -/
def makeDirectory (t : FileTree) (path : String) : Except SystemError FileTree := do
  match ← t.site path with
  | (_, none) => throw .alreadyThere
  | (place, some name) =>
    if (t.entry? (name :: place)).isSome then throw .alreadyThere
    t.put place name (.directory false)

/-- Creates a directory unless there is one. -/
def ensureDirectory (t : FileTree) (path : String) : Except SystemError FileTree :=
  match t.makeDirectory path with
  | .ok t => .ok t
  | .error cause =>
    match t.follow path with
    | .ok place => if t.isDirectory place then .ok t else .error cause
    | .error _ => .error cause

/-- Creates a directory and those that it lies in, as far as they are missing: at most `fuel` of
them. -/
def ensureDirectories (t : FileTree) : Nat → String → Except SystemError FileTree
  | 0, _ => .error .missing
  | fuel + 1, path =>
    if path = "" then .ok t
    else
      match t.ensureDirectory path with
      | .ok t => .ok t
      | .error cause => do
        if cause ≠ .missing then throw cause
        match Path.parent? path with
        | none => throw cause
        | some parent => (← t.ensureDirectories fuel parent).ensureDirectory path

/-- Makes a change. -/
def attempt (change : FileTree → Except SystemError FileTree) :
    StateM FileTree (Except SystemError Unit) := do
  match change (← get) with
  | .ok t =>
    set t
    return .ok ()
  | .error cause => return .error cause

/-- Writing to the tree. -/
def writer : FileWriter (StateM FileTree) where
  createDirectories path := attempt fun t => t.ensureDirectories (path.length + 1) path
  write path text := attempt fun t => t.write path text

end FileTree

end ScoredChaining
