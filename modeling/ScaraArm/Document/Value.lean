import ScaraArm.Decimal.Basic

/-!
# Documents

A configuration file and a line of output are trees of numbers, texts, lists and tables,
whichever notation they are written in. `Value` is that tree. Some things a notation can
say are of no use to a reader of documents; they are kept as `foreign` so that a reader
that passes over them does not mind. Numbers that turn out to be none are `unreadable`, and
a reader minds even those that it passes over, unless it stops in front of them.
-/

namespace ScaraArm.Document

/-- The key of a table entry; `none` is a key whose escapes spell no text. -/
abbrev Key := Option String

/-- A document. -/
inductive Value where
  /-- The absence of a value. -/
  | null
  | boolean (b : Bool)
  /-- A number written without a point and without a power. -/
  | integer (n : Int)
  | real (x : Float)
  | text (s : String)
  /-- A date, a time of day, or both. -/
  | instant
  /-- A number beyond the format's range, or escapes that spell no text. -/
  | foreign
  /-- A number that has the look of one but no value. -/
  | unreadable
  | list (items : List Value)
  /-- Entries in the order in which they are written. -/
  | table (entries : List (Key × Value))

namespace Value

/-- A table of text keys. -/
def record (entries : List (String × Value)) : Value :=
  .table (entries.map fun (key, v) => (some key, v))

/-- Whether sixty-four bits hold an integer, with or without a sign. -/
def fitsWord (n : Int) : Bool := decide (Int64.minValue.toInt ≤ n ∧ n < UInt64.size)

/-- The number of a document, as a double. An integer must fit sixty-four bits. -/
def float? : Value → Option Float
  | .integer n => if fitsWord n then some (Binary64.ofInt n) else none
  | .real x => some x
  | _ => none

/-- The number of a document, as a byte. -/
def byte? : Value → Option UInt8
  | .integer n => if 0 ≤ n ∧ n < 256 then some (UInt8.ofNat n.toNat) else none
  | _ => none

/-- The truth value of a document. -/
def bool? : Value → Option Bool
  | .boolean b => some b
  | _ => none

mutual

/-- Whether a reader can pass over a document: no part of it is unreadable. -/
def isReadable : Value → Bool
  | .unreadable => false
  | .list items => areReadable items
  | .table entries => entriesAreReadable entries
  | _ => true

/-- Whether a reader can pass over all items of a list. -/
def areReadable : List Value → Bool
  | [] => true
  | v :: rest => v.isReadable && areReadable rest

/-- Whether a reader can pass over all entries of a table. -/
def entriesAreReadable : List (Key × Value) → Bool
  | [] => true
  | entry :: rest => entryIsReadable entry && entriesAreReadable rest

/-- Whether a reader can pass over an entry. -/
def entryIsReadable : Key × Value → Bool
  | (_, v) => v.isReadable

end

/-- The items of a list. -/
def items? : Value → Option (List Value)
  | .list items => some items
  | _ => none

end Value

end ScaraArm.Document
