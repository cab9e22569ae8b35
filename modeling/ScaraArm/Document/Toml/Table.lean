import ScaraArm.Document.Value

/-!
# TOML tables

A TOML document builds its tables piece by piece, and how a table came about decides who
may add to it. A table under a header is complete with its section. A table that a header
only passed through may still get a header of its own. A table made by a dotted key grows
by dotted keys only. Values in brackets or braces are closed at once.
-/

namespace ScaraArm.Document.Toml

/-- How a table came about. -/
inductive Origin where
  /-- It has a header of its own, or is the document itself. -/
  | header
  /-- The header of a table inside it named it. -/
  | passage
  /-- A dotted key named it. -/
  | dotted
deriving Repr, DecidableEq

/-- What a key holds while the document is being built. -/
inductive Node where
  /-- A value that nothing is added to. -/
  | leaf (v : Value)
  /-- A table. -/
  | table (origin : Origin) (entries : List (String × Node))
  /-- A list of tables under headers: those that are complete, and the last. -/
  | rows (done : List Value) (last : List (String × Node))

/-- The entries of a table while the document is being built. -/
abbrev Entries := List (String × Node)

namespace Node

mutual

/-- The finished document of a node. -/
def close : Node → Value
  | .leaf v => v
  | .table _ entries => .table (closeEntries entries)
  | .rows done last => .list (done ++ [.table (closeEntries last)])

/-- The finished entries of a table. -/
def closeEntries : List (String × Node) → List (Key × Value)
  | [] => []
  | entry :: rest => closeEntry entry :: closeEntries rest

/-- A finished entry. -/
def closeEntry : String × Node → Key × Value
  | (key, node) => (some key, node.close)

end

end Node

namespace Entries

/-- Whether a key is taken. -/
def has (key : String) (entries : Entries) : Bool := entries.any (·.1 == key)

/-- Puts a node in the place of another one. -/
def replace (key : String) (node : Node) (entries : Entries) : Entries :=
  entries.map fun entry => if entry.1 == key then (key, node) else entry

/-- Applies a change at the end of a path of keys. Tables that are missing on the way are
made. A dotted path does not lead through a table that has a header, and no path leads
through a closed value; through a list of tables it leads into the last one. -/
def descend (dotted : Bool) (change : Origin → Entries → Option Entries) :
    List String → Origin → Entries → Option Entries
  | [], origin, entries => change origin entries
  | key :: path, _, entries =>
    match entries.lookup key with
    | none => do
      let origin := if dotted then Origin.dotted else Origin.passage
      let inner ← descend dotted change path origin []
      some (entries ++ [(key, .table origin inner)])
    | some (.table origin inner) => do
      if dotted && origin == .header then none
      let inner ← descend dotted change path origin inner
      some (entries.replace key (.table origin inner))
    | some (.rows done last) => do
      let last ← descend dotted change path .header last
      some (entries.replace key (.rows done last))
    | some (.leaf _) => none

/-- Adds a value under a path of keys. Past a dot the value goes into a table that dotted
keys made, and a key is given one value only. -/
def addPair (entries : Entries) (pair : List String × String × Value) : Option Entries :=
  let (path, key, v) := pair
  descend true
    (fun origin entries =>
      if (origin == .dotted) == path.isEmpty || entries.has key then none
      else some (entries ++ [(key, .leaf v)]))
    path .header entries

/-- Adds values under their paths, one after the other. -/
def addPairs (entries : Entries) (pairs : List (List String × String × Value)) : Option Entries :=
  pairs.foldlM addPair entries

/-- Adds a table under a header with what its section says. Only a table that other headers
passed through may be there already. -/
def addTable (path : List String) (key : String) (pairs : List (List String × String × Value))
    (entries : Entries) : Option Entries :=
  descend false
    (fun _ entries =>
      match entries.lookup key with
      | none => do
        let inner ← addPairs [] pairs
        some (entries ++ [(key, .table .header inner)])
      | some (.table .passage inner) => do
        let inner ← addPairs inner pairs
        some (entries.replace key (.table .header inner))
      | some _ => none)
    path .header entries

/-- Adds a table to the end of a list of tables under headers. -/
def addRow (path : List String) (key : String) (pairs : List (List String × String × Value))
    (entries : Entries) : Option Entries :=
  descend false
    (fun _ entries => do
      let inner ← addPairs [] pairs
      match entries.lookup key with
      | none => some (entries ++ [(key, .rows [] inner)])
      | some (.rows done last) =>
        some (entries.replace key (.rows (done ++ [.table (Node.closeEntries last)]) inner))
      | some _ => none)
    path .header entries

end Entries

end ScaraArm.Document.Toml
