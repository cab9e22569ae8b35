import ScaraArm.Command.Task

/-!
# Help

What the command tells about itself.
-/

namespace ScaraArm.Command.Help

/-- What each command is for. -/
def purposes : List (String × String) :=
  [("forward", "Convert joint angles to a cartesian position"),
    ("inverse", "Convert a cartesian position to joint angles"),
    ("segment", "Split a line into joint-space waypoints"),
    ("status", "Print the kinematics status fields"),
    ("home", "Apply homing bookkeeping to a step record"),
    ("help", "Print this message or the help of the given subcommand(s)")]

/-- How an option is written. -/
def option (p : Parameter) : String :=
  let value := p.name.map fun c => if c = '-' then '_' else c.toUpper
  match p.arity with
  | .switch => s!"--{p.name}"
  | .one => s!"--{p.name} <{value}>"
  | .list _ => s!"--{p.name} <{value}>..."

/-- The options of a command. -/
def options (level : Level) : String :=
  String.intercalate "\n" ((level.options.map fun p => "  " ++ option p) ++ ["  -h, --help"])

/-- The help on all commands. -/
def overview : String :=
  let commands := purposes.map fun (name, purpose) =>
    "  " ++ name ++ String.ofList (List.replicate (9 - name.length) ' ') ++ purpose
  "Kinematics tooling for two-link SCARA arms\n\nUsage: scara [OPTIONS] <COMMAND>\n\nCommands:\n"
    ++ String.intercalate "\n" commands ++ "\n\nOptions:\n" ++ options ⟨commonOptions, none⟩

/-- The help on one command. -/
def command (name : String) (level : Level) : String :=
  let places := match level.positional with
    | none => ""
    | some p =>
      let value := p.name.map Char.toUpper
      s!" [{value}]..."
  (purposes.lookup name).getD "" ++ s!"\n\nUsage: scara {name} [OPTIONS]{places}\n\nOptions:\n"
    ++ options level

/-- The help on a topic. -/
def text (topic : Option String) : String :=
  match topic.bind fun name => (commands.lookup name).map (command name) with
  | some s => s
  | none => overview

/-- What is told about a command line that cannot be read. -/
def usage : String :=
  "error: invalid command line\n\nUsage: scara [OPTIONS] <COMMAND>\n\n"
    ++ "For more information, try '--help'."

end ScaraArm.Command.Help
