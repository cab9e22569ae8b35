import ScaraArm.Config.Decode

/-!
# Loading configurations

The name of a file tells its format by its extension. A file whose extension tells nothing
is read as TOML if it is that, and as JSON otherwise.
-/

namespace ScaraArm.Config

/-- Why a file could not be loaded. -/
inductive LoadError where
  /-- There is no such file, or it is not text. -/
  | unreadable (path : String)
  /-- The text is no configuration in this format. -/
  | malformed (format : Format)
deriving Repr, DecidableEq

/-- What went wrong, in words. -/
def LoadError.message : LoadError → String
  | .unreadable path => s!"failed to read config file {path}"
  | .malformed .toml => "failed to parse config as TOML"
  | .malformed .json => "failed to parse config as JSON"

/-- The parts of a path between its slashes; empty parts and parts that stand for the same
place are left out. -/
def pathParts (path : String) : List (List Char) :=
  (path.toList.splitOn '/').filter fun part => !part.isEmpty && part != ['.']

/-- What follows the last point of a name. A point at the very front starts a hidden name
and no extension. -/
def extensionOfName? (name : List Char) : Option (List Char) :=
  let ending := name.reverse.takeWhile (· != '.')
  let stem := name.take (name.length - ending.length - 1)
  if name = ['.', '.'] ∨ stem.isEmpty then none else some ending.reverse

/-- The extension of the file that a path names. -/
def extension? (path : String) : Option (List Char) :=
  (pathParts path).getLast? >>= extensionOfName?

/-- The format that a path announces. -/
def formatOfPath? (path : String) : Option Format :=
  match extension? path with
  | some ['t', 'o', 'm', 'l'] => some .toml
  | some ['j', 's', 'o', 'n'] => some .json
  | _ => none

/-- Reads a text in a format. -/
def parse (format : Format) (s : String) : Except LoadError Config :=
  let config := match format with
    | .toml => ofToml? s
    | .json => ofJson? s
  match config with
  | some c => .ok c
  | none => .error (.malformed format)

/-- Reads the text of a file. Without a known extension both formats are tried. -/
def parseFile (path s : String) : Except LoadError Config :=
  match formatOfPath? path with
  | some format => parse format s
  | none =>
    match parse .toml s with
    | .ok c => .ok c
    | .error _ => parse .json s

/-- Loads the configuration in a file, given the bytes of files by their paths. -/
def load (files : String → Option ByteArray) (path : String) : Except LoadError Config :=
  match files path >>= String.fromUTF8? with
  | some s => parseFile path s
  | none => .error (.unreadable path)

end ScaraArm.Config
