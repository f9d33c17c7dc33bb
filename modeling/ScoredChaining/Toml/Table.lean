import ScoredChaining.Toml.Basic

/-!
Building the tables of a document from its sections.

A key is given once. A table has one header, which may come after those of the tables within it; an
array of tables has a header for each table. Dotted keys reach only into tables that dotted keys
have made, and nothing reaches into a value.
-/

namespace ScoredChaining.Toml

/-- A key, which is a path if it is dotted, and its value. -/
structure Entry where
  path : List String
  item : Toml

/-- Where the entries of a section belong. -/
inductive Header where
  | table (path : List String)
  /-- A further table of an array. -/
  | row (path : List String)

/-- A header and the entries below it. -/
structure Section where
  header : Header
  entries : List Entry

/-- Changes the table at the end of a path. Tables that are missing on the way are made, as dotted
ones on the path of a dotted key and as implied ones on the path of a header; of an array of tables
the latest is meant. -/
def changeAt (dotted : Bool) (change : TableKind → Members → Option Members) :
    (path : List String) → TableKind → Members → Option Members
  | [], kind, members => change kind members
  | key :: path, _, members =>
    match members.lookup key with
    | none =>
      let kind := if dotted then TableKind.dotted else .implied
      (changeAt dotted change path kind []).map fun inner =>
        members ++ [(key, .table kind inner)]
    | some (.table kind inner) =>
      if kind = .braced || dotted && kind = .headed then none
      else
        (changeAt dotted change path kind inner).map fun inner =>
          replace key (.table kind inner) members
    | some (.rows (row :: others)) =>
      (changeAt dotted change path .headed row).map fun row =>
        replace key (.rows (row :: others)) members
    | some _ => none

/-- Gives a key of a table a value. A dotted key ends in a dotted table, another one does not. -/
def give (isPath : Bool) (key : String) (item : Toml) (kind : TableKind) (members : Members) :
    Option Members :=
  if isPath ≠ (kind = .dotted) then none
  else
    match members.lookup key with
    | some _ => none
    | none => some (members ++ [(key, item)])

/-- Adds an entry to a table. -/
def addEntry (kind : TableKind) (members : Members) (entry : Entry) : Option Members :=
  let way := entry.path.dropLast
  match entry.path.getLast? with
  | none => none
  | some key => changeAt true (give (!way.isEmpty) key entry.item) way kind members

/-- Adds entries to a table in order. -/
def addEntries (kind : TableKind) (entries : List Entry) (members : Members) : Option Members :=
  entries.foldlM (addEntry kind) members

/-- Gives a table its header and entries. It may have been implied before. -/
def addTable (key : String) (entries : List Entry) (members : Members) : Option Members :=
  match members.lookup key with
  | none =>
    (addEntries .headed entries []).map fun inner => members ++ [(key, .table .headed inner)]
  | some (.table .implied inner) =>
    (addEntries .headed entries inner).map fun inner =>
      replace key (.table .headed inner) members
  | some _ => none

/-- Adds a table to an array of tables. -/
def addRow (key : String) (entries : List Entry) (members : Members) : Option Members :=
  match members.lookup key with
  | none => (addEntries .headed entries []).map fun row => members ++ [(key, .rows [row])]
  | some (.rows others) =>
    (addEntries .headed entries []).map fun row => replace key (.rows (row :: others)) members
  | some _ => none

/-- Adds a section to the table of the whole document. -/
def Section.addTo (s : Section) (root : Members) : Option Members :=
  let (path, add) :=
    match s.header with
    | .table path => (path, addTable)
    | .row path => (path, addRow)
  match path.getLast? with
  | none => none
  | some key => changeAt false (fun _ => add key s.entries) path.dropLast .headed root

end ScoredChaining.Toml
