import ScaraArm.Decimal.Shortest
import ScaraArm.Document.Value

/-!
# Writing JSON

Documents are written as JSON without blanks. A double gets the shortest digits that name
it, always with a point or a power so that it reads back as a double; a double that is no
number is written as `null`.
-/

namespace ScaraArm.Document.Value

/-- Doubles in JSON: of two equally short decimals the even one; a power of ten below
`0.00001` and from `1e16` on; a point even after a whole number. -/
def jsonStyle : Decimal.Style :=
  ⟨.even, fun power => decide (-5 ≤ power ∧ power < 16), true⟩

/-- The four digits of an escaped character. -/
def hexEscape (n : Nat) : List Char :=
  ['\\', 'u', (n / 4096 % 16).digitChar, (n / 256 % 16).digitChar, (n / 16 % 16).digitChar,
    (n % 16).digitChar]

/-- One character inside quotes. -/
def quoteChar (c : Char) : List Char :=
  match c with
  | '"' => ['\\', '"']
  | '\\' => ['\\', '\\']
  | '\n' => ['\\', 'n']
  | '\r' => ['\\', 'r']
  | '\t' => ['\\', 't']
  | '\x08' => ['\\', 'b']
  | '\x0c' => ['\\', 'f']
  | c => if c.toNat < 0x20 then hexEscape c.toNat else [c]

/-- A text in quotes. -/
def quote (s : String) : List Char := '"' :: (s.toList.flatMap quoteChar ++ ['"'])

/-- A key in quotes. A key that spells no text is written as an escape that does not
either. -/
def quoteKey : Key → List Char
  | some s => quote s
  | none => '"' :: (hexEscape 0xD800 ++ ['"'])

/-- An integer. -/
def writeInt (n : Int) : List Char :=
  (if n < 0 then ['-'] else []) ++ Nat.toDigits 10 n.natAbs

/-- A double. -/
def writeFloat (x : Float) : List Char :=
  match jsonStyle.numeral? x with
  | some n => n.render
  | none => ['n', 'u', 'l', 'l']

mutual

/-- The characters of a document. -/
def write : Value → List Char
  | .null | .instant | .foreign | .unreadable => ['n', 'u', 'l', 'l']
  | .boolean true => ['t', 'r', 'u', 'e']
  | .boolean false => ['f', 'a', 'l', 's', 'e']
  | .integer n => writeInt n
  | .real x => writeFloat x
  | .text s => quote s
  | .list items => '[' :: (writeItems items ++ [']'])
  | .table entries => '{' :: (writeEntries entries ++ ['}'])

/-- The items of a list, with commas between them. -/
def writeItems : List Value → List Char
  | [] => []
  | [v] => v.write
  | v :: rest => v.write ++ ',' :: writeItems rest

/-- The entries of a table, with commas between them. -/
def writeEntries : List (Key × Value) → List Char
  | [] => []
  | [entry] => writeEntry entry
  | entry :: rest => writeEntry entry ++ ',' :: writeEntries rest

/-- A key and its value. -/
def writeEntry : Key × Value → List Char
  | (key, v) => quoteKey key ++ ':' :: v.write

end

/-- A document as JSON text. -/
def toJson (v : Value) : String := String.ofList v.write

end ScaraArm.Document.Value
