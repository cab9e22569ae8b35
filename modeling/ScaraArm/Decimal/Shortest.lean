import ScaraArm.Decimal.Numeral

/-!
# The shortest decimal of a double

Every double is the nearest one to a whole interval of numbers. The shortest decimal of
a double is the one with the fewest digits inside its interval and, of those, the
nearest to it. For each count of digits only two decimals can qualify, the double's two
neighbours on the grid of that many digits, so the search looks at those and stops at
the first count that hits. Seventeen digits are enough for every double.
-/

namespace ScaraArm.Decimal

open Binary64

/-- Which of two equally near and equally short decimals is taken. -/
inductive Tie where
  /-- The one further from zero. -/
  | up
  /-- The one whose last digit is even. -/
  | even
deriving Repr, DecidableEq

/-- A positive fraction of two whole numbers. -/
structure Ratio where
  /-- The number above the bar. -/
  num : Nat
  /-- The number below the bar. -/
  den : Nat
deriving Repr, DecidableEq

namespace Ratio

/-- The number `m · 2^e`. -/
def ofBinary (m : Nat) (e : Int) : Ratio :=
  if 0 ≤ e then ⟨m <<< e.toNat, 1⟩ else ⟨m, 1 <<< (-e).toNat⟩

/-- The number divided by `10^q`. -/
def scaleDown (r : Ratio) (q : Int) : Ratio :=
  if 0 ≤ q then ⟨r.num, r.den * Nat.pow 10 q.toNat⟩
  else ⟨r.num * Nat.pow 10 (-q).toNat, r.den⟩

/-- The whole part. -/
def floor (r : Ratio) : Nat := r.num / r.den

end Ratio

/-- The interval of numbers that a double is nearest to, in quarters of its last binary
place. The lower half is only half as wide below a power of two, where the doubles on
the other side lie twice as close. The ends belong to it if the mantissa is even. -/
structure Interval where
  /-- Lower end, in units of `2^exponent`. -/
  low : Nat
  /-- Upper end, in units of `2^exponent`. -/
  high : Nat
  /-- Whether the ends themselves belong to the interval. -/
  closed : Bool
  /-- The power of two that the ends are counted in. -/
  exponent : Int
deriving Repr

/-- The interval of the finite double `m · 2^e`. -/
def Interval.of (m : Nat) (e : Int) : Interval :=
  let narrow := m = 1 <<< 52 ∧ -1074 < e
  { low := 4 * m - (if narrow then 1 else 2)
    high := 4 * m + 2
    closed := m % 2 = 0
    exponent := e - 2 }

/-- Whether `c · 10^q` lies in the interval. -/
def Interval.contains (i : Interval) (c : Nat) (q : Int) : Bool :=
  let unit := (Ratio.ofBinary 1 i.exponent).scaleDown q
  let point := c * unit.den
  let low := i.low * unit.num
  let high := i.high * unit.num
  if i.closed then low ≤ point && point ≤ high else low < point && point < high

/-- The number of digits in front of the point of `m · 2^e`, zero or less for a number
below one: the `k` with `10^(k-1) ≤ m · 2^e < 10^k`. The logarithm to base two gives it up
to one place. -/
def magnitude (m : Nat) (e : Int) : Int :=
  let r := Ratio.ofBinary m e
  let k : Int := (m.log2 + e) * 30103 / 100000 + 1
  if (r.scaleDown k).floor ≥ 1 then k + 1
  else if (r.scaleDown (k - 1)).floor = 0 then k - 1
  else k

/-- The nearest decimal on the grid `10^q` that lies in the interval, if one does. -/
def onGrid? (tie : Tie) (m : Nat) (e : Int) (q : Int) : Option Nat :=
  let r := (Ratio.ofBinary m e).scaleDown q
  let c := r.floor
  let i := Interval.of m e
  match i.contains c q, i.contains (c + 1) q with
  | false, false => none
  | true, false => some c
  | false, true => some (c + 1)
  | true, true =>
    match compare (2 * (r.num % r.den)) r.den with
    | .lt => some c
    | .gt => some (c + 1)
    | .eq => if tie = .even ∧ c % 2 = 0 then some c else some (c + 1)

/-- Moves zeros at the end of the coefficient into the exponent. -/
def stripZeros : Nat → Decimal → Decimal
  | 0, d => d
  | fuel + 1, d =>
    if d.coefficient ≠ 0 ∧ d.coefficient % 10 = 0 then
      stripZeros fuel ⟨d.negative, d.coefficient / 10, d.exponent + 1⟩
    else d

/-- The search over one to seventeen digits. -/
def search? (tie : Tie) (negative : Bool) (m : Nat) (e : Int) : Option Decimal :=
  let k := magnitude m e
  (List.range 17).findSome? fun (n : Nat) =>
    let q := k - (n + 1)
    (onGrid? tie m e q).map fun c => stripZeros 17 ⟨negative, c, q⟩

/-- The shortest decimal of a double; infinities and undefined numbers have none. -/
def shortest? (tie : Tie) (x : Float) : Option Decimal :=
  match parts x with
  | .notANumber | .infinity _ => none
  | .zero _ => some ⟨isNegative x, 0, 0⟩
  | .finite _ m e _ => search? tie (isNegative x) m e

/-- How shortest decimals are written out. -/
structure Style where
  /-- Which of two equally good decimals is taken. -/
  tie : Tie
  /-- Whether a number whose first digit is counted in this power of ten is written
  without a power. -/
  plain : Int → Bool
  /-- Whether a whole number still gets a point and a zero. -/
  pointAlways : Bool

/-- The numeral of a finite double in a given style. -/
def Style.numeral? (style : Style) (x : Float) : Option Numeral :=
  (shortest? style.tie x).map fun d =>
    if style.plain (Numeral.leadingPower d) then
      let n := Numeral.positional d
      if style.pointAlways && n.fraction.isNone then { n with fraction := some ['0'] } else n
    else Numeral.scientific d

end ScaraArm.Decimal
