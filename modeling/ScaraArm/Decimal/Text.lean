import ScaraArm.Decimal.Shortest

/-!
# Numbers in messages

Messages show a length with as few digits as name it and a coordinate with four
digits after the point. Neither is ever written with a power of ten.
-/

namespace ScaraArm.Decimal

open Binary64

/-- The quotient rounded to the nearest whole number, a half going to the even one. -/
def roundDiv (num den : Nat) : Nat :=
  let q := num / den
  match compare (2 * (num % den)) den with
  | .lt => q
  | .gt => q + 1
  | .eq => if q % 2 = 0 then q else q + 1

/-- The nearest decimal with the given number of digits after the point, taken from the
exact value; a half goes to the even neighbour. -/
def ofFixed (places : Nat) (negative : Bool) (m : Nat) (e : Int) : Decimal :=
  let r := (Ratio.ofBinary m e).scaleDown (-(places : Int))
  ⟨negative, roundDiv r.num r.den, -(places : Int)⟩

/-- The words for doubles that are no numbers. -/
def nonNumber : Parts → Option String
  | .notANumber => some "NaN"
  | .infinity .positive => some "inf"
  | .infinity .negative => some "-inf"
  | _ => none

/-- A double with a fixed number of digits after the point. A number that rounds to zero
keeps its minus sign. -/
def fixed (places : Nat) (x : Float) : String :=
  match parts x with
  | .finite _ m e _ =>
    String.ofList (Numeral.positional (ofFixed places (isNegative x) m e)).render
  | .zero _ => String.ofList (Numeral.positional ⟨isNegative x, 0, -(places : Int)⟩).render
  | p => (nonNumber p).getD ""

/-- Lengths in messages: the shortest digits, never a power of ten, no point after a
whole number; of two equally short decimals the one further from zero. -/
def messageStyle : Style := ⟨.up, fun _ => true, false⟩

/-- A double as messages show it. -/
def text (x : Float) : String :=
  match messageStyle.numeral? x with
  | some n => String.ofList n.render
  | none => (nonNumber (parts x)).getD ""

end ScaraArm.Decimal
