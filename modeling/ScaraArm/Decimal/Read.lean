import ScaraArm.Decimal.Numeral

/-!
# Numbers on the command line

A number is typed as digits with an optional sign, point and power, or as one of the
words for infinity and for an undefined number, in capitals or not.
-/

namespace ScaraArm.Decimal

/-- The words for doubles that no digits name. -/
def wordValue? (word : List Char) : Option Float :=
  match word.map Char.toLower with
  | ['i', 'n', 'f'] | ['i', 'n', 'f', 'i', 'n', 'i', 't', 'y'] =>
    some (Float.ofBits 0x7FF0000000000000)
  | ['n', 'a', 'n'] => some (Float.ofBits 0x7FF8000000000000)
  | _ => none

/-- Reads a whole text as a double. A numeral needs a digit on one side of its point. -/
def readFloat? (s : String) : Option Float :=
  let cs := s.toList
  let (sign, word) := Numeral.scanSign cs
  match wordValue? word with
  | some x => some (if sign = some '-' then -x else x)
  | none =>
    match Numeral.scan cs with
    | (n, []) =>
      if (n.whole ++ n.fraction.getD []).isEmpty || !n.powerIsTidy then none
      else some n.toDecimal.toFloat
    | _ => none

/-- Reads a whole text as an integer: digits behind an optional sign. -/
def readInt? (s : String) : Option Int :=
  match Numeral.scan s.toList with
  | (n, []) => if n.isWhole && !n.whole.isEmpty then some n.wholeValue else none
  | _ => none

/-- Reads a whole text as a count: digits, perhaps behind a plus sign. -/
def readNat? (s : String) : Option Nat :=
  match Numeral.scan s.toList with
  | (n, []) =>
    if n.isWhole && !n.whole.isEmpty && !n.isNegative then some n.wholeValue.toNat else none
  | _ => none

end ScaraArm.Decimal
