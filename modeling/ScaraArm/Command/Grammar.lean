/-!
# Command lines

A command line is options, each with its values, then the name of a command and the
options and values of that command. An option takes its values from the arguments behind
it or, after an equals sign, from the same argument. An option that takes a list takes as
many arguments as it may, and each of them may hold several values with commas between.

Arguments that start with a dash are options, except behind a lone `--` and except for
negative numbers where numbers are expected.
-/

namespace ScaraArm.Command

/-- How many arguments a parameter takes. -/
inductive Arity where
  /-- None: the parameter is a switch. -/
  | switch
  /-- Exactly one. -/
  | one
  /-- At least one and at most so many, with commas between the values of one argument. -/
  | list (most : Nat)
deriving Repr, DecidableEq

/-- The most arguments that a parameter takes. -/
def Arity.most : Arity → Nat
  | .switch => 0
  | .one => 1
  | .list n => n

/-- Whether so many arguments are a right number. -/
def Arity.admits : Arity → Nat → Bool
  | .switch, n => n == 0
  | .one, n => n == 1
  | .list most, n => decide (1 ≤ n ∧ n ≤ most)

/-- What an option or a place on the command line takes. -/
structure Parameter where
  name : String
  arity : Arity
  /-- Whether it may be given more than once; the values then add up. -/
  repeatable : Bool
  /-- Whether an argument that looks like a negative number is one of its values. -/
  negatives : Bool
  /-- Whether a value is a right one. -/
  accepts : String → Bool

/-- What may follow a command's name, or stand in front of it. -/
structure Level where
  options : List Parameter
  /-- What arguments that belong to no option are values of. -/
  positional : Option Parameter

/-- Why a command line is not carried out. -/
inductive Stop where
  /-- It is not a right command line. -/
  | usage
  /-- It asks for help, with a command or with all of them. -/
  | help (topic : Option String)
deriving Repr, DecidableEq

/-- The arguments that a parameter has taken so far. -/
structure Pending where
  parameter : Parameter
  arguments : List String

/-- Where the next argument may go. -/
inductive Mode where
  /-- It opens something new. -/
  | free
  /-- The pending option may take it. -/
  | option
  /-- The pending place may take it. -/
  | positional
deriving Repr, DecidableEq

/-- A command line as far as it has been read. -/
structure Reading where
  level : Level
  /-- The topic on which help is given here. -/
  topic : Option String
  mode : Mode
  pending : Option Pending
  /-- Whether a lone `--` has ended the options. -/
  trailing : Bool
  /-- The parameters found, with the values of each time they were given. -/
  found : List (String × List String)

namespace Reading

/-- Nothing read yet. -/
def start (level : Level) (topic : Option String) : Reading :=
  ⟨level, topic, .free, none, false, []⟩

/-- The values inside the arguments of a parameter. -/
def valuesOf (p : Parameter) (arguments : List String) : List String :=
  match p.arity with
  | .list _ => arguments.flatMap fun s => (s.toList.splitOn ',').map String.ofList
  | _ => arguments

/-- Notes a parameter with all its arguments. -/
def record (r : Reading) (p : Parameter) (arguments : List String) : Except Stop Reading :=
  let values := valuesOf p arguments
  if !p.arity.admits arguments.length then .error .usage
  else if !values.all p.accepts then .error .usage
  else if !p.repeatable && r.found.any (·.1 == p.name) then .error .usage
  else .ok { r with found := r.found ++ [(p.name, values)] }

/-- Closes the pending parameter. -/
def resolve (r : Reading) : Except Stop Reading :=
  match r.pending with
  | none => .ok r
  | some p => { r with pending := none }.record p.parameter p.arguments

/-- Whether what follows a dash makes it a negative number: digits with at most one point
behind the first of them, and perhaps a power without a sign. -/
def isNegativeNumber (body : List Char) : Bool :=
  let mantissa := body.takeWhile fun c => c != 'e' && c != 'E'
  let power := body.drop mantissa.length
  mantissa.all (fun c => c.isDigit || c == '.')
    && (mantissa.filter (· == '.')).length ≤ 1 && mantissa.head? != some '.'
    && (power.isEmpty
      || (!mantissa.isEmpty && 2 ≤ power.length && (power.drop 1).all Char.isDigit))

/-- Whether an argument that looks like a negative number is a value here. -/
def takesNegatives (r : Reading) : Bool :=
  (r.mode != .free && r.pending.any (·.parameter.negatives))
    || r.level.positional.any (·.negatives)

/-- Reads a long option, given without its dashes. -/
def readLong (r : Reading) (body : List Char) : Except Stop Reading :=
  let name := String.ofList (body.takeWhile (· != '='))
  let attached := (body.dropWhile (· != '=')).tail?.map String.ofList
  if name == "help" then do
    let r ← r.resolve
    throw (if attached.isSome then .usage else .help r.topic)
  else
    match r.level.options.find? (·.name == name) with
    | none => .error .usage
    | some p => do
      let r ← r.resolve
      match p.arity, attached with
      | .switch, none | .one, some _ | .list _, some _ =>
        let r ← r.record p attached.toList
        return { r with mode := .free }
      | .switch, some _ => throw .usage
      | .one, none | .list _, none => return { r with mode := .option, pending := some ⟨p, []⟩ }

/-- Reads short options, given without their dash. The only one asks for help. -/
def readShort (r : Reading) (body : List Char) : Except Stop Reading := do
  match body with
  | 'h' :: _ =>
    let r ← r.resolve
    throw (.help r.topic)
  | _ => throw .usage

/-- Gives an argument to the place for arguments that belong to no option. -/
def readPositional (r : Reading) (arg : String) : Except Stop Reading :=
  match r.level.positional with
  | none => .error .usage
  | some p =>
    match r.pending with
    | some pending =>
      if pending.parameter.name = p.name then
        .ok { r with mode := .positional, pending := some ⟨p, pending.arguments ++ [arg]⟩ }
      else do
        let r ← r.resolve
        return { r with mode := .positional, pending := some ⟨p, [arg]⟩ }
    | none => .ok { r with mode := .positional, pending := some ⟨p, [arg]⟩ }

/-- Gives an argument to the option that is taking values, or else to the place for
arguments that belong to no option. -/
def readValue (r : Reading) (arg : String) : Except Stop Reading :=
  match r.mode, r.pending with
  | .option, some pending =>
    let arguments := pending.arguments ++ [arg]
    let mode := if arguments.length < pending.parameter.arity.most then Mode.option else Mode.free
    .ok { r with mode, pending := some { pending with arguments } }
  | _, _ => r.readPositional arg

/-- Reads an argument. -/
def read (r : Reading) (arg : String) : Except Stop Reading :=
  if r.trailing then r.readPositional arg
  else
    match arg.toList with
    | ['-', '-'] => .ok { r with trailing := true }
    | '-' :: '-' :: body => r.readLong body
    | '-' :: c :: body =>
      if isNegativeNumber (c :: body) && r.takesNegatives then r.readValue arg
      else r.readShort (c :: body)
    | _ => r.readValue arg

/-- Reads arguments up to the name of a command, and gives that and the arguments behind it. -/
def readUntil (commands : List String) :
    Reading → List String → Except Stop (Reading × Option (String × List String))
  | r, [] => .ok (r, none)
  | r, arg :: rest =>
    if r.mode == .free && !r.trailing && commands.contains arg then .ok (r, some (arg, rest))
    else
      match r.read arg with
      | .ok r => readUntil commands r rest
      | .error stop => .error stop

/-- Reads all arguments; there is no command among them. -/
def readAll (r : Reading) (args : List String) : Except Stop Reading := do
  let (r, _) ← readUntil [] r args
  r.resolve

/-- Whether a parameter was given. -/
def isGiven (r : Reading) (name : String) : Bool := r.found.any (·.1 == name)

/-- The values of a parameter, those of the first time it was given first. -/
def values (r : Reading) (name : String) : List String :=
  (r.found.filter (·.1 == name)).flatMap (·.2)

end Reading

end ScaraArm.Command
