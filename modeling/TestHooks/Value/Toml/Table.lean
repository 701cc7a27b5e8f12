import TestHooks.Value

/-!
# Tables of TOML

Keys with dots put values into tables inside tables. A value is never replaced, and what was written inline is
never added to.
-/

namespace TestHooks.Toml

/-- The entries of a table. -/
abbrev Entries := List (String × Value)

/-- The way to a table, from the outermost on. -/
abbrev Path := List String

def hasKey (key : String) (es : Entries) : Bool :=
  es.any (·.1 == key)

/-- Changes the table at the end of a path. Tables that are not there are made. A list on the way stands for its
last table, unless `strict`. -/
def modifyAt (strict : Bool) (f : Entries → Option Entries) : Path → Entries → Option Entries
  | [], es => f es
  | key :: path, es =>
    match Value.lookup key es with
    | none => (modifyAt strict f path []).map fun inner => es ++ [(key, .table inner)]
    | some (.table inner) => (modifyAt strict f path inner).map fun inner' => Value.insert key (.table inner') es
    | some (.list items) =>
      match strict, items.getLast? with
      | false, some (.table inner) =>
        (modifyAt strict f path inner).map fun inner' =>
          Value.insert key (.list (items.dropLast ++ [.table inner'])) es
      | _, _ => none
    | some _ => none

/-- Adds an entry whose key must be new. -/
def addEntry (key : String) (v : Value) (es : Entries) : Option Entries :=
  if hasKey key es then none else some (es ++ [(key, v)])

/-- Adds an empty table to the list under a key. -/
def addTable (key : String) (es : Entries) : Option Entries :=
  match Value.lookup key es with
  | none => some (es ++ [(key, .list [.table []])])
  | some (.list items) => some (Value.insert key (.list (items ++ [.table []])) es)
  | some _ => none

def isContainer : Value → Bool
  | .list _ | .table _ => true
  | _ => false

/-- True if one of the paths leads to `path` or to a table around it. -/
def coveredBy (paths : List Path) (path : Path) : Bool :=
  paths.any (·.isPrefixOf path)

/-- The path without its last key, and the last key. -/
def splitLast (path : Path) : Path × String :=
  (path.dropLast, path.getLast?.getD "")

/-! ### Inline tables -/

/-- Adds the pairs of an inline table. The values under the `frozen` paths are not to be added to. -/
def addPairs (frozen : List Path) (es : Entries) : List (Path × Value) → Option Entries
  | [] => some es
  | (path, v) :: pairs =>
    let (around, key) := splitLast path
    if coveredBy frozen path then none
    else
      match modifyAt true (addEntry key v) around es with
      | some es' => addPairs (if isContainer v then path :: frozen else frozen) es' pairs
      | none => none

/-- The inline table of pairs. -/
def inlineTable? (pairs : List (Path × Value)) : Option Value :=
  (addPairs [] [] pairs).map .table

/-! ### Documents -/

/-- A line of a document that says something. -/
inductive Statement
  | pair (path : Path) (value : Value)
  | header (path : Path)
  | listHeader (path : Path)

/-- A document that has been read up to some line. -/
structure Draft where
  entries : Entries
  /-- The table that pairs go to. -/
  current : Path
  /-- Tables that no header may open. -/
  declared : List Path
  /-- Tables made by dotted keys under the current header. They are declared when it ends. -/
  pending : List Path
  /-- Values written inline. -/
  frozen : List Path

namespace Draft

def empty : Draft := ⟨[], [], [], [], []⟩

/-- The draft when a header ends. -/
def settle (d : Draft) : Draft :=
  { d with declared := d.pending ++ d.declared, pending := [] }

/-- The tables on the way to the last key of a dotted key. -/
def around (current path : Path) : List Path :=
  (List.range (path.length - 1)).map fun i => current ++ path.take (i + 1)

def addPair (d : Draft) (path : Path) (v : Value) : Option Draft :=
  let (outer, key) := splitLast path
  let tables := around d.current path
  if tables.any d.declared.contains then none
  else if coveredBy d.frozen (d.current ++ outer) then none
  else
    match modifyAt false (addEntry key v) (d.current ++ outer) d.entries with
    | some entries =>
      some { d with
        entries
        pending := tables ++ d.pending
        frozen := if isContainer v then (d.current ++ path) :: d.frozen else d.frozen }
    | none => none

def openTable (d : Draft) (path : Path) : Option Draft :=
  if d.declared.contains path || coveredBy d.frozen path then none
  else
    match modifyAt false some path d.entries with
    | some entries => some { d with entries, current := path, declared := path :: d.declared }
    | none => none

def openListTable (d : Draft) (path : Path) : Option Draft :=
  let (outer, key) := splitLast path
  let free (paths : List Path) : List Path := paths.filter fun p => !path.isPrefixOf p
  if coveredBy d.frozen path then none
  else
    match modifyAt false (addTable key) outer d.entries with
    | some entries =>
      some { d with entries, current := path, declared := path :: free d.declared, frozen := free d.frozen }
    | none => none

def add (d : Draft) : Statement → Option Draft
  | .pair path v => d.addPair path v
  | .header path => d.settle.openTable path
  | .listHeader path => d.settle.openListTable path

/-- The draft after all statements. -/
def addAll (d : Draft) : List Statement → Option Draft
  | [] => some d
  | s :: rest =>
    match d.add s with
    | some d' => d'.addAll rest
    | none => none

end Draft

end TestHooks.Toml
