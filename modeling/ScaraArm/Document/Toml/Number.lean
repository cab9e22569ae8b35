import ScaraArm.Decimal.Numeral
import ScaraArm.Document.Json

/-!
# TOML numbers

A number is judged twice. Its look decides whether there is a document at all: a sign,
underscores and digits in their places. Whether those digits make a number that somebody
can hold is found out when it is read, so a number in a place that nobody reads may be too
large, have no digits, or have letters behind an underscore.
-/

namespace ScaraArm.Document.Toml.Number

open Json (hexDigit?)

/-- The digits of a base. -/
def isDigitOf (base : Nat) (c : Char) : Bool := (hexDigit? c).any (· < base)

/-- Every underscore stands between two digits. -/
def underscoresFit (isDigit : Char → Bool) : List Char → Bool
  | [] => true
  | '_' :: _ => false
  | c :: '_' :: d :: rest => isDigit c && isDigit d && underscoresFit isDigit (d :: rest)
  | _ :: rest => underscoresFit isDigit rest

/-- A run without its underscores. -/
def bare (run : List Char) : List Char := run.filter (· != '_')

/-- The document of a whole number. Whoever reads one holds a hundred and twenty-eight bits,
with or without a sign. -/
def ofInt (n : Int) : Value :=
  let half : Nat := 1 <<< 127
  if Value.fitsWord n then .integer n
  else if -half ≤ n ∧ n < 2 * half then .foreign
  else .unreadable

/-- A whole number in some other base than ten, from behind the letter of the base. -/
def radix? (base : Nat) (digits : List Char) : Option Value :=
  if (bare digits).all (isDigitOf base) && underscoresFit (isDigitOf base) digits then
    some (match bare digits with
      | [] => .unreadable
      | digits => ofInt (digits.foldl (fun n c => base * n + (hexDigit? c).getD 0) 0 : Nat))
  else none

/-- A whole number in base ten, `digits` being the run behind its sign. As far as its look goes,
the letters of base sixteen pass for digits around an underscore, and nothing is asked of what
follows; a number they do not make. -/
def whole? (run digits : List Char) : Option Value :=
  if (digits == ['0'] || digits.head? != some '0') && !digits.isEmpty
      && underscoresFit (isDigitOf 16) digits then
    some (match Numeral.scan (bare run) with
      | (n, []) => ofInt n.wholeValue
      | _ => .unreadable)
  else none

/-- A number with a point or a power: the double nearest to it. Doubles that are too large are
found out when they are read. -/
def real? (run digits : List Char) : Option Value :=
  match Numeral.scan (bare run) with
  | (n, []) =>
    if n.wholeIsTidy && n.fractionIsTidy && n.powerIsTidy
        && underscoresFit Char.isDigit digits then
      let x := n.toDecimal.toFloat
      some (if x.isFinite then .real x else .unreadable)
    else none
  | _ => none

/-- A number in base ten. -/
def decimal? (run : List Char) : Option Value :=
  let digits := (Numeral.scanSign run).2
  let rest := digits.dropWhile Char.isDigit
  if rest.any fun c => c == '.' || c == 'e' || c == 'E' then real? run digits
  else if rest.contains ' ' then none
  else if rest.isEmpty || rest.head? == some '_' then whole? run digits
  else none

/-- The doubles that no digits name. -/
def word? (run : List Char) : Option Value :=
  let (sign, word) := Numeral.scanSign run
  let signed (x : Float) : Value := .real (if sign = some '-' then -x else x)
  match word with
  | ['i', 'n', 'f'] => some (signed (Float.ofBits 0x7FF0000000000000))
  | ['n', 'a', 'n'] => some (signed (Float.ofBits 0x7FF8000000000000))
  | _ => none

/-- The document of a run that is a number. -/
def ofRun? (run : List Char) : Option Value :=
  match run with
  | '0' :: 'x' :: digits => radix? 16 digits
  | '0' :: 'o' :: digits => radix? 8 digits
  | '0' :: 'b' :: digits => radix? 2 digits
  | run =>
    match word? run with
    | some v => some v
    | none => decimal? run

end ScaraArm.Document.Toml.Number
