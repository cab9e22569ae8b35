import ScaraArm.Config.Load
import ScaraArm.Machine

/-!
# Failures

A failure of a command is told as a message and, where another failure caused it, the
message of that one.
-/

namespace ScaraArm

/-- A message and the message of its cause. -/
structure Failure where
  message : String
  cause : Option String
deriving Repr, DecidableEq

namespace Failure

/-- Both messages in one line. -/
def oneLine (f : Failure) : String :=
  match f.cause with
  | none => f.message
  | some cause => f.message ++ ": " ++ cause

/-- The messages as they are shown to a user. -/
def report (f : Failure) : String :=
  match f.cause with
  | none => "Error: " ++ f.message
  | some cause => "Error: " ++ f.message ++ "\n\nCaused by:\n    " ++ cause

end Failure

/-- A list does not have as many values as a table has places. -/
def sizeMismatch : String := "could not convert slice to array"

/-- The failure of a machine without the right number of axes. -/
def Config.WrongAxisCount.failure (e : WrongAxisCount) : Failure :=
  ⟨e.message, some sizeMismatch⟩

/-- The failure of a configuration that could not be loaded. What the readers of the formats
would say about it is left out. -/
def Config.LoadError.failure (e : LoadError) : Failure := ⟨e.message, none⟩

/-- The failure of a configuration with a fault. -/
def Config.Fault.failure (e : Fault) : Failure := ⟨e.message, none⟩

/-- The failure of a configuration that makes no machine. -/
def Machine.BuildError.failure : BuildError → Failure
  | .geometry e => ⟨"invalid robot geometry", some e.message⟩
  | .axes e => e.failure

end ScaraArm
