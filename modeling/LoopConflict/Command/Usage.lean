import LoopConflict.Command.Flags
import LoopConflict.Text.Decimal

/-!
The usage text of the command.
-/
namespace LoopConflict.Command

namespace Flag

/-- What the value of a flag is called; switches have none. -/
def argumentName : Flag → Option String
  | .budget => some "nodes"
  | .config | .output | .cpuProfile | .memoryProfile => some "file"
  | .jobs => some "n"
  | .objective => some "Label"
  | .tags => some "build tags"
  | .tests | .trace | .version | .wide | .verboseVersion => none

def description : Flag → String
  | .budget => "Search nodes spent on each access pair"
  | .config => "Read configuration from file instead of looking up loopdep.conf"
  | .jobs => "Analyze up to n functions in parallel (0 means GOMAXPROCS)"
  | .output => "Write models to file"
  | .objective => "Label of every model's objective"
  | .tags => "List of build tags"
  | .tests => "Include tests"
  | .trace => "Print the analysis of every loop to stderr"
  | .version => "Print version and exit"
  | .wide => "Follow every operand of an access, not only its address"
  | .cpuProfile => "Write CPU profile to file"
  | .memoryProfile => "Write memory profile to file"
  | .verboseVersion => "Print detailed version information about this program"

/-- The value of a flag that is not given, where it is not empty. -/
def default? : Flag → Option String
  | .budget => some "65536"
  | .objective => some "obj"
  | _ => none

/-- The lines that describe a flag. -/
def usage (f : Flag) : String :=
  "  -" ++ f.name ++
    (match f.argumentName with
      | some a => " " ++ a
      | none => "") ++
    "\n    \t" ++ f.description ++
    (match f.default? with
      | some d => " (default " ++ Text.quoted d ++ ")"
      | none => "") ++ "\n"

end Flag

/-- How the command `name` is used. -/
def usage (name : String) : String :=
  "Usage: " ++ name ++ " [flags] [packages]\n\nFlags:\n" ++
    Text.concat ((Flag.all.filter (!·.isDebug)).map Flag.usage) ++
    "\nFlags override the settings of loopdep.conf.\n" ++
    "For help about specifying packages, see 'go help packages'\n"

/-- What the command `name` prints when it refuses its arguments. -/
def FlagError.report (name : String) : FlagError → String
  | .help => usage name
  | e => e.message ++ "\n" ++ usage name

end LoopConflict.Command
