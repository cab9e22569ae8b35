import ScaraArm.Binary64.Scalar
import ScaraArm.Decimal.Text
import ScaraArm.Scalar

/-!
# The arm

Two links of positive finite length, turning in one plane. A point within reach is in
general reached by two poses, one on either side of the line to it; the elbow says which
of them the arm takes. The angle of the upper link is measured either in the world or from
the lower link.
-/

namespace ScaraArm

/-- Which of the two poses that reach a point the arm takes. -/
inductive Elbow where
  | up
  | down
deriving Repr, DecidableEq

/-- How the angle of the upper link is measured. -/
inductive AngleConvention where
  /-- From the first axis of the world. -/
  | absolute
  /-- From the lower link. -/
  | relative
deriving Repr, DecidableEq

/-- Folds the capitals of the English alphabet. The names read here consist of its small
letters only, and no other character folds into any of those. -/
def foldCase (s : String) : List Char := s.toList.map Char.toLower

/-- A name that stands for nothing. -/
inductive UnknownName where
  /-- It was to name an elbow. -/
  | elbow (name : String)
  /-- It was to name a convention. -/
  | convention (name : String)
deriving Repr, DecidableEq

/-- What is wrong with the name, in words. -/
def UnknownName.message : UnknownName → String
  | .elbow name => s!"unknown elbow configuration `{name}`"
  | .convention name => s!"unknown joint angle convention `{name}`"

namespace Elbow

/-- The name of the elbow. -/
def name : Elbow → String
  | .up => "up"
  | .down => "down"

/-- The elbow of a name, in capitals or not. -/
def parse? (s : String) : Option Elbow :=
  match foldCase s with
  | ['u', 'p'] => some .up
  | ['d', 'o', 'w', 'n'] => some .down
  | _ => none

/-- Reads an elbow, or says what is wrong with the name. -/
def parse (s : String) : Except UnknownName Elbow :=
  match parse? s with
  | some e => .ok e
  | none => .error (.elbow s)

end Elbow

namespace AngleConvention

/-- The name of the convention. -/
def name : AngleConvention → String
  | .absolute => "absolute"
  | .relative => "relative"

/-- The convention of a name or of its first three letters, in capitals or not. -/
def parse? (s : String) : Option AngleConvention :=
  match foldCase s with
  | ['a', 'b', 's'] | ['a', 'b', 's', 'o', 'l', 'u', 't', 'e'] => some .absolute
  | ['r', 'e', 'l'] | ['r', 'e', 'l', 'a', 't', 'i', 'v', 'e'] => some .relative
  | _ => none

/-- Reads a convention, or says what is wrong with the name. -/
def parse (s : String) : Except UnknownName AngleConvention :=
  match parse? s with
  | some c => .ok c
  | none => .error (.convention s)

end AngleConvention

/-- The links, counted from the base. -/
inductive Link where
  | lower
  | upper
deriving Repr, DecidableEq

/-- The number of a link. -/
def Link.number : Link → Nat
  | .lower => 1
  | .upper => 2

/-- A link was given a length that no link can have. -/
structure InvalidLink (α : Type) where
  /-- The link in question. -/
  link : Link
  /-- The length it was given. -/
  value : α
deriving Repr, DecidableEq

/-- What went wrong, in words. -/
def InvalidLink.message (e : InvalidLink Float) : String :=
  s!"link {e.link.number} length must be a positive finite number, got {Decimal.text e.value}"

/-- Two links and the branch of the solution. -/
structure Geometry (α : Type) [Scalar α] where
  /-- Length of the link at the base. -/
  lower : α
  /-- Length of the link that carries the tip. -/
  upper : α
  /-- Which of two poses is taken. -/
  elbow : Elbow
  /-- How the upper link's angle is measured. -/
  convention : AngleConvention
  /-- The lower link has a usable length. -/
  lower_pos : Scalar.isPositive lower = true
  /-- The upper link has a usable length. -/
  upper_pos : Scalar.isPositive upper = true

namespace Geometry

variable {α : Type} [Scalar α]

/-- Builds an arm; the first link without a usable length is the one reported. -/
def build (lower upper : α) (elbow : Elbow) (convention : AngleConvention) :
    Except (InvalidLink α) (Geometry α) :=
  if hl : Scalar.isPositive lower = true then
    if hu : Scalar.isPositive upper = true then
      .ok ⟨lower, upper, elbow, convention, hl, hu⟩
    else .error ⟨.upper, upper⟩
  else .error ⟨.lower, lower⟩

/-- Distance from the base to the tip of the stretched arm. -/
def reach (g : Geometry α) : α := g.lower + g.upper

end Geometry

end ScaraArm
