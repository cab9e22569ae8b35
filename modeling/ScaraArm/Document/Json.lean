import ScaraArm.Decimal.Stepwise
import ScaraArm.Document.Value

/-!
# Reading JSON

JSON is read strictly: no comments, no comma behind the last item, no number in another
look than the standard's. Every step takes a list of characters and gives back what it
read and the characters it left. The steps for values call one another on what is left;
the fuel that bounds them is drawn from the length of the text, which they can never use
up.
-/

namespace ScaraArm.Document.Json

/-- The blanks between tokens. -/
def isBlank (c : Char) : Bool := c == ' ' || c == '\n' || c == '\t' || c == '\r'

/-- Passes over blanks. -/
def skipBlanks (cs : List Char) : List Char := cs.dropWhile isBlank

/-- The value of a hexadecimal digit. -/
def hexDigit? (c : Char) : Option Nat :=
  if c.isDigit then some (c.toNat - 48)
  else if 'a' ≤ c ∧ c ≤ 'f' then some (c.toNat - 87)
  else if 'A' ≤ c ∧ c ≤ 'F' then some (c.toNat - 55)
  else none

/-- The value of a run of hexadecimal digits. -/
def hexValue? (digits : List Char) : Option Nat :=
  digits.foldlM (fun n c => (hexDigit? c).map (16 * n + ·)) 0

/-- One element of a quoted text. -/
inductive Piece where
  /-- A character, plain or escaped by a letter. -/
  | char (c : Char)
  /-- A unit of sixteen bits, escaped by its number. -/
  | unit (n : Nat)
deriving Repr, DecidableEq

/-- The character that a letter behind a backslash stands for. -/
def letterEscape? : Char → Option Char
  | '"' => some '"'
  | '\\' => some '\\'
  | '/' => some '/'
  | 'b' => some '\x08'
  | 'f' => some '\x0c'
  | 'n' => some '\n'
  | 'r' => some '\r'
  | 't' => some '\t'
  | _ => none

/-- The elements of a quoted text, from behind the opening quote to behind the closing one. -/
def scanPieces : List Char → Option (List Piece × List Char)
  | [] => none
  | '"' :: rest => some ([], rest)
  | '\\' :: 'u' :: a :: b :: c :: d :: rest => do
    let n ← hexValue? [a, b, c, d]
    let (pieces, rest) ← scanPieces rest
    some (.unit n :: pieces, rest)
  | '\\' :: c :: rest => do
    let c ← letterEscape? c
    let (pieces, rest) ← scanPieces rest
    some (.char c :: pieces, rest)
  | c :: rest => do
    if c.toNat < 0x20 then none
    else
      let (pieces, rest) ← scanPieces rest
      some (.char c :: pieces, rest)

/-- The text that the elements spell. A pair of surrogate units is one character; a
surrogate on its own is none. -/
def spell? : List Piece → Option (List Char)
  | [] => some []
  | .char c :: rest => (spell? rest).map (c :: ·)
  | .unit a :: .unit b :: rest =>
    if 0xD800 ≤ a ∧ a < 0xDC00 then
      if 0xDC00 ≤ b ∧ b < 0xE000 then
        (spell? rest).map (Char.ofNat (0x10000 + (a - 0xD800) * 0x400 + (b - 0xDC00)) :: ·)
      else none
    else if 0xDC00 ≤ a ∧ a < 0xE000 then none
    else (spell? (.unit b :: rest)).map (Char.ofNat a :: ·)
  | .unit a :: rest =>
    if 0xD800 ≤ a ∧ a < 0xE000 then none else (spell? rest).map (Char.ofNat a :: ·)

/-- A quoted text, from behind its opening quote. -/
def scanQuoted (cs : List Char) : Option (Key × List Char) := do
  let (pieces, rest) ← scanPieces cs
  some ((spell? pieces).map String.ofList, rest)

/-- Whether a numeral has the look of a JSON number. -/
def isNumber (n : Numeral) : Bool :=
  n.sign != some '+' && n.wholeIsTidy && n.fractionIsTidy && n.powerIsTidy

section

-- how a numeral is turned into a double, if it is in their range
variable (number : Numeral → Option Float)

/-- The document that a numeral stands for. Without a point and a power it is an integer if
sixty-four bits hold it; minus zero is no integer. Anything else is turned into a double. -/
def ofNumeral (n : Numeral) : Value :=
  let whole := n.wholeValue
  if n.isWhole && Value.fitsWord whole && !(n.isNegative && whole == 0) then .integer whole
  else
    match number n with
    | some x => .real x
    | none => .foreign

/-- A number at the head of the text. -/
def scanNumber (cs : List Char) : Option (Value × List Char) :=
  let (n, rest) := Numeral.scan cs
  if isNumber n then some (ofNumeral number n, rest) else none

mutual

/-- A value at the head of the text. -/
def scanValue : Nat → List Char → Option (Value × List Char)
  | 0, _ => none
  | fuel + 1, cs =>
    match cs with
    | 'n' :: 'u' :: 'l' :: 'l' :: rest => some (.null, rest)
    | 't' :: 'r' :: 'u' :: 'e' :: rest => some (.boolean true, rest)
    | 'f' :: 'a' :: 'l' :: 's' :: 'e' :: rest => some (.boolean false, rest)
    | '"' :: rest => (scanQuoted rest).map fun (key, rest) =>
      (match key with
        | some s => .text s
        | none => .foreign, rest)
    | '[' :: rest =>
      match skipBlanks rest with
      | ']' :: rest => some (.list [], rest)
      | rest => (scanItems fuel rest).map fun (items, rest) => (.list items, rest)
    | '{' :: rest =>
      match skipBlanks rest with
      | '}' :: rest => some (.table [], rest)
      | rest => (scanEntries fuel rest).map fun (entries, rest) => (.table entries, rest)
    | cs => scanNumber number cs

/-- The items of a list, to behind its closing bracket. -/
def scanItems : Nat → List Char → Option (List Value × List Char)
  | 0, _ => none
  | fuel + 1, cs => do
    let (v, rest) ← scanValue fuel cs
    match skipBlanks rest with
    | ']' :: rest => some ([v], rest)
    | ',' :: rest =>
      let (items, rest) ← scanItems fuel (skipBlanks rest)
      some (v :: items, rest)
    | _ => none

/-- The entries of a table, to behind its closing brace. -/
def scanEntries : Nat → List Char → Option (List (Key × Value) × List Char)
  | 0, _ => none
  | fuel + 1, cs =>
    match cs with
    | '"' :: rest => do
      let (key, rest) ← scanQuoted rest
      match skipBlanks rest with
      | ':' :: rest =>
        let (v, rest) ← scanValue fuel (skipBlanks rest)
        match skipBlanks rest with
        | '}' :: rest => some ([(key, v)], rest)
        | ',' :: rest =>
          let (entries, rest) ← scanEntries fuel (skipBlanks rest)
          some ((key, v) :: entries, rest)
        | _ => none
      | _ => none
    | _ => none

end

/-- A text that is one document and nothing but blanks around it. -/
def read? (cs : List Char) : Option Value := do
  let (v, rest) ← scanValue number (cs.length + 1) (skipBlanks cs)
  if (skipBlanks rest).isEmpty then some v else none

/-- Reads a JSON text with the given way to turn numerals into doubles. -/
def parseWith? (s : String) : Option Value := read? number s.toList

end

/-- Reads a JSON text. Numerals are turned into doubles in steps. -/
def parse? (s : String) : Option Value := parseWith? Numeral.stepwise? s

end ScaraArm.Document.Json
