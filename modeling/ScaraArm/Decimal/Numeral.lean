import ScaraArm.Decimal.Basic

/-!
# Numerals

A numeral is the written form of a number: a sign, digits, perhaps a point with more
digits, perhaps a power of ten. `scan` takes the longest piece of text that looks like
one; which of the looks a format admits is that format's own rule.
-/

namespace ScaraArm

/-- A number as it is written. -/
structure Numeral where
  /-- The leading `+` or `-`, if there is one. -/
  sign : Option Char
  /-- The digits in front of the point. -/
  whole : List Char
  /-- The digits after the point, if there is a point. -/
  fraction : Option (List Char)
  /-- The sign and the digits after the `e`, if there is an `e`. -/
  power : Option (Option Char × List Char)
deriving Repr, DecidableEq

namespace Numeral

/-- Splits off a leading sign. -/
def scanSign : List Char → Option Char × List Char
  | '+' :: rest => (some '+', rest)
  | '-' :: rest => (some '-', rest)
  | rest => (none, rest)

/-- Splits off the leading digits. -/
def scanDigits (cs : List Char) : List Char × List Char :=
  (cs.takeWhile Char.isDigit, cs.dropWhile Char.isDigit)

/-- Splits off a point and the digits after it. -/
def scanFraction : List Char → Option (List Char) × List Char
  | '.' :: rest =>
    let (digits, rest) := scanDigits rest
    (some digits, rest)
  | rest => (none, rest)

/-- The sign and the digits of a power, after the letter that announces it. -/
def scanPowerBody (cs : List Char) : Option (Option Char × List Char) × List Char :=
  let (sign, rest) := scanSign cs
  let (digits, rest) := scanDigits rest
  (some (sign, digits), rest)

/-- Splits off a power of ten. -/
def scanPower : List Char → Option (Option Char × List Char) × List Char
  | 'e' :: rest => scanPowerBody rest
  | 'E' :: rest => scanPowerBody rest
  | rest => (none, rest)

/-- Splits off the longest numeral, parts of which may be empty. -/
def scan (cs : List Char) : Numeral × List Char :=
  let (sign, rest) := scanSign cs
  let (whole, rest) := scanDigits rest
  let (fraction, rest) := scanFraction rest
  let (power, rest) := scanPower rest
  (⟨sign, whole, fraction, power⟩, rest)

/-- Whether the digits in front of the point are there and have no idle zero before them. -/
def wholeIsTidy (n : Numeral) : Bool :=
  match n.whole with
  | [] => false
  | ['0'] => true
  | c :: _ => c != '0'

/-- A point, where there is one, has a digit after it. -/
def fractionIsTidy (n : Numeral) : Bool := n.fraction != some []

/-- A power, where there is one, has a digit in it. -/
def powerIsTidy (n : Numeral) : Bool :=
  match n.power with
  | some (_, []) => false
  | _ => true

/-- Whether the numeral is written with neither a point nor a power. -/
def isWhole (n : Numeral) : Bool := n.fraction.isNone && n.power.isNone

/-- Whether the numeral is written with a minus sign. -/
def isNegative (n : Numeral) : Bool := n.sign == some '-'

/-- The power of ten that is written out. -/
def powerValue (n : Numeral) : Int :=
  match n.power with
  | none => 0
  | some (sign, digits) =>
    let k : Int := Nat.ofDigitChars 10 digits 0
    if sign == some '-' then -k else k

/-- The number that is written. -/
def toDecimal (n : Numeral) : Decimal :=
  let fraction := n.fraction.getD []
  ⟨n.isNegative, Nat.ofDigitChars 10 (n.whole ++ fraction) 0, n.powerValue - fraction.length⟩

/-- The number that is written, without its point and power. -/
def wholeValue (n : Numeral) : Int :=
  let k : Int := Nat.ofDigitChars 10 n.whole 0
  if n.isNegative then -k else k

/-- The characters of a numeral. -/
def render (n : Numeral) : List Char :=
  n.sign.toList ++ n.whole
    ++ (match n.fraction with
      | none => []
      | some digits => '.' :: digits)
    ++ (match n.power with
      | none => []
      | some (sign, digits) => 'e' :: (sign.toList ++ digits))

/-- The sign in front of a written number: only a minus is written. -/
def signOf (negative : Bool) : Option Char := if negative then some '-' else none

/-- Writes a decimal without a power of ten. -/
def positional (d : Decimal) : Numeral :=
  let digits := Nat.toDigits 10 d.coefficient
  if 0 ≤ d.exponent then
    ⟨signOf d.negative, digits ++ List.replicate d.exponent.toNat '0', none, none⟩
  else
    let places := (-d.exponent).toNat
    if places < digits.length then
      let point := digits.length - places
      ⟨signOf d.negative, digits.take point, some (digits.drop point), none⟩
    else
      let zeros := List.replicate (places - digits.length) '0'
      ⟨signOf d.negative, ['0'], some (zeros ++ digits), none⟩

/-- The power of ten that a decimal's first digit is counted in. -/
def leadingPower (d : Decimal) : Int :=
  (Nat.toDigits 10 d.coefficient).length - 1 + d.exponent

/-- Writes a decimal with one digit in front of the point and a signed power of ten. -/
def scientific (d : Decimal) : Numeral :=
  let digits := Nat.toDigits 10 d.coefficient
  let power := leadingPower d
  let fraction := digits.drop 1
  ⟨signOf d.negative, digits.take 1, if fraction.isEmpty then none else some fraction,
    some (some (if power < 0 then '-' else '+'), Nat.toDigits 10 power.natAbs)⟩

end Numeral

end ScaraArm
