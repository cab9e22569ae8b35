import ScaraArm.Document.Toml.Scalar
import ScaraArm.Document.Toml.Table

/-!
# Reading TOML

A TOML document is a sequence of statements, each on lines of its own: headers, which open
a section, and keys with their values. The statements are read first and the tables are
built from them afterwards, section by section.
-/

namespace ScaraArm.Document.Toml

/-- Passes over blanks, line ends and comments. -/
def skipFiller (inComment : Bool) : List Char → Option (List Char)
  | [] => some []
  | '\n' :: rest => skipFiller false rest
  | '\r' :: '\n' :: rest => skipFiller false rest
  | c :: rest =>
    if inComment then if isPlain c then skipFiller true rest else none
    else if isBlank c then skipFiller false rest
    else if c == '#' then skipFiller true rest
    else some (c :: rest)

/-- Passes over blanks inside a line. -/
def skipBlanks (cs : List Char) : List Char := cs.dropWhile isBlank

/-- Passes over the rest of a line that has said all it says. -/
def skipLineEnd (cs : List Char) : Option (List Char) :=
  match skipBlanks cs with
  | [] => some []
  | '\n' :: rest => some rest
  | '\r' :: '\n' :: rest => some rest
  | '#' :: rest => skipFiller true rest
  | _ => none

/-- How deep lists and tables in brackets may lie in one another, and how many keys may
have dots between them. -/
def maxDepth : Nat := 80

/-- The characters of keys without quotes. -/
def isBareChar (c : Char) : Bool := c.isAlphanum || c == '_' || c == '-'

/-- One key. -/
def scanKey (cs : List Char) : Option (String × List Char) :=
  match cs with
  | '"' :: _ | '\'' :: _ => scanText cs
  | cs =>
    let key := cs.takeWhile isBareChar
    if key.isEmpty then none else some (String.ofList key, cs.dropWhile isBareChar)

/-- Keys with dots between them, at most so many: those in front, and the last one. -/
def scanPath : Nat → List Char → Option ((List String × String) × List Char)
  | 0, _ => none
  | fuel + 1, cs => do
    let (key, rest) ← scanKey cs
    match skipBlanks rest with
    | '.' :: rest =>
      let ((path, last), rest) ← scanPath fuel (skipBlanks rest)
      some ((key :: path, last), rest)
    | rest => some (([], key), rest)

mutual

/-- A value. -/
def scanValue : Nat → Nat → List Char → Option (Value × List Char)
  | 0, _, _ => none
  | fuel + 1, depth, cs =>
    match cs with
    | '"' :: _ | '\'' :: _ => (scanAnyText cs).map fun (s, rest) => (.text s, rest)
    | '[' :: rest => do
      if depth = 0 then none
      let rest ← skipFiller false rest
      let (items, rest) ← scanItems fuel (depth - 1) rest
      some (.list items, rest)
    | '{' :: rest => do
      if depth = 0 then none
      let rest ← skipFiller false rest
      let (pairs, rest) ← scanPairs fuel (depth - 1) rest
      let entries ← Entries.addPairs [] pairs
      some (.table (Node.closeEntries entries), rest)
    | cs => scanScalar cs

/-- The items of a list, to behind its closing bracket. -/
def scanItems : Nat → Nat → List Char → Option (List Value × List Char)
  | 0, _, _ => none
  | fuel + 1, depth, cs =>
    match cs with
    | ']' :: rest => some ([], rest)
    | cs => do
      let (v, rest) ← scanValue fuel depth cs
      let rest ← skipFiller false rest
      match rest with
      | ',' :: rest =>
        let rest ← skipFiller false rest
        let (items, rest) ← scanItems fuel depth rest
        some (v :: items, rest)
      | ']' :: rest => some ([v], rest)
      | _ => none

/-- The entries of a table in braces, to behind its closing brace. Line ends and comments may
stand around keys and values, but not inside a key. -/
def scanPairs : Nat → Nat → List Char →
    Option (List (List String × String × Value) × List Char)
  | 0, _, _ => none
  | fuel + 1, depth, cs =>
    match cs with
    | '}' :: rest => some ([], rest)
    | cs => do
      let ((path, key), rest) ← scanPath maxDepth cs
      let rest ← skipFiller false rest
      match rest with
      | '=' :: rest =>
        let rest ← skipFiller false rest
        let (v, rest) ← scanValue fuel depth rest
        let rest ← skipFiller false rest
        match rest with
        | ',' :: rest =>
          let rest ← skipFiller false rest
          let (pairs, rest) ← scanPairs fuel depth rest
          some ((path, key, v) :: pairs, rest)
        | '}' :: rest => some ([(path, key, v)], rest)
        | _ => none
      | _ => none

end

/-- A statement of a document. -/
inductive Statement where
  /-- The header of a table. -/
  | table (path : List String) (key : String)
  /-- The header of one more table in a list of tables. -/
  | row (path : List String) (key : String)
  /-- A key and its value. -/
  | pair (path : List String) (key : String) (v : Value)

/-- A statement at the head of a line. -/
def scanStatement (cs : List Char) : Option (Statement × List Char) :=
  match cs with
  | '[' :: '[' :: rest => do
    let ((path, key), rest) ← scanPath maxDepth (skipBlanks rest)
    match rest with
    | ']' :: ']' :: rest => some (.row path key, rest)
    | _ => none
  | '[' :: rest => do
    let ((path, key), rest) ← scanPath maxDepth (skipBlanks rest)
    match rest with
    | ']' :: rest => some (.table path key, rest)
    | _ => none
  | cs => do
    let ((path, key), rest) ← scanPath maxDepth cs
    match rest with
    | '=' :: rest =>
      let (v, rest) ← scanValue cs.length maxDepth (skipBlanks rest)
      some (.pair path key v, rest)
    | _ => none

/-- The statements of a document. -/
def scanStatements : Nat → List Char → Option (List Statement)
  | 0, _ => none
  | fuel + 1, cs => do
    let cs ← skipFiller false cs
    if cs.isEmpty then some []
    else
      let (statement, rest) ← scanStatement cs
      let rest ← skipLineEnd rest
      let statements ← scanStatements fuel rest
      some (statement :: statements)

/-- A header and the keys and values under it. -/
structure Section where
  /-- Whether the header adds to a list of tables. -/
  isRow : Bool
  path : List String
  key : String
  pairs : List (List String × String × Value)

/-- Groups statements into the keys and values in front of the first header, and sections. -/
def sections (statements : List Statement) :
    List (List String × String × Value) × List Section :=
  statements.foldr
    (fun statement (pairs, sections) =>
      match statement with
      | .pair path key v => ((path, key, v) :: pairs, sections)
      | .table path key => ([], ⟨false, path, key, pairs⟩ :: sections)
      | .row path key => ([], ⟨true, path, key, pairs⟩ :: sections))
    ([], [])

/-- Adds a section to a document. -/
def addSection (entries : Entries) (s : Section) : Option Entries :=
  if s.isRow then entries.addRow s.path s.key s.pairs else entries.addTable s.path s.key s.pairs

/-- Builds the tables that the statements describe. -/
def build? (statements : List Statement) : Option Value := do
  let (pairs, rest) := sections statements
  let entries ← Entries.addPairs [] pairs
  let entries ← rest.foldlM addSection entries
  some (.table (Node.closeEntries entries))

/-- Reads a document. A byte order mark in front of it does not count. -/
def read? (cs : List Char) : Option Value :=
  let cs := match cs with
    | '\uFEFF' :: rest => rest
    | cs => cs
  scanStatements (cs.length + 1) cs >>= build?

/-- Reads a TOML text. -/
def parse? (s : String) : Option Value := read? s.toList

end ScaraArm.Document.Toml
