import ScaraArm.Decimal.Numeral

/-!
# Numerals in steps

A numeral can be turned into a double in steps that round one after the other. Its leading
digits, as far as one word of sixty-four bits holds them, become a double; the power of ten
that remains becomes a double; and the one is multiplied or divided by the other. Up to
fifteen digits and a power of at most twenty-two are doubles already, so that only the last
step rounds and the result is the double nearest to the numeral. A longer numeral may end
up beside it.
-/

namespace ScaraArm.Numeral

/-- Appends digits to a number while one word holds it, and gives the digits that are left. -/
def fillWord (word : Nat) : List Char → Nat × List Char
  | [] => (word, [])
  | c :: rest =>
    let next := 10 * word + (c.toNat - '0'.toNat)
    if next < UInt64.size then fillWord next rest else (word, c :: rest)

/-- The leading digits that one word holds, and the power of ten they are counted in. What
is left of the digits in front of the point counts as zeros. Those behind the point still
go in if they fit, and count for nothing if they do not. -/
def leading (n : Numeral) : Nat × Int :=
  let fraction := n.fraction.getD []
  let (word, zeros) := fillWord 0 n.whole
  let (word, unread) := fillWord word fraction
  (word, n.powerValue + zeros.length - (fraction.length - unread.length : Nat))

/-- The largest power of ten among the doubles. -/
def maxPower : Nat := 308

/-- The double nearest to a power of ten. -/
def powerOfTen (n : Nat) : Float := Binary64.ofInt (Nat.pow 10 n)

/-- A double times a power of ten, if the doubles reach that far. Division by a power beyond
them takes two steps; whatever a word holds is zero by then. -/
def scale? (x : Float) (power : Int) : Option Float :=
  if power < -maxPower then
    some (x / powerOfTen maxPower / powerOfTen (min maxPower (-power - maxPower).toNat))
  else if power < 0 then some (x / powerOfTen (-power).toNat)
  else if power ≤ maxPower then
    let y := x * powerOfTen power.toNat
    if y.isFinite then some y else none
  else if x == 0 then some x
  else none

/-- The double that the steps lead to; none if the numeral is beyond the doubles. -/
def stepwise? (n : Numeral) : Option Float :=
  let (word, power) := n.leading
  (scale? (Binary64.ofInt word) power).map fun x => if n.isNegative then -x else x

end ScaraArm.Numeral
