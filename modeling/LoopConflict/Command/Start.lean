import LoopConflict.BuildInfo
import LoopConflict.Command.Run
import LoopConflict.Command.Usage

/-!
The start of the command, up to the point where it looks at programs: it prints its version or usage,
refuses its arguments or settings, or is ready to run.
-/
namespace LoopConflict.Command

/-- The name of the command. -/
def commandName : String := "loopdep"

/-- How the command starts. -/
inductive Start where
  /-- It ends at once. -/
  | finished (exit : Nat) (output errors : String)
  /-- It goes on to the named packages. -/
  | ready (settings : Settings) (packages : List String)
deriving DecidableEq, Repr

/-- The last name on the path of a program. -/
def programName (path : String) : String :=
  if path = "" then "."
  else
    let named := path.toList.reverse.dropWhile (· = '/')
    if named.isEmpty then "/" else String.ofList (named.takeWhile (· ≠ '/')).reverse

/-- What a program without a version says of its build. -/
def developmentBuild (path : String) : BuildInfo :=
  { name := programName path, version := BuildInfo.development }

/-- Ends with an error. -/
def fatal (message : String) : Start :=
  .finished 1 "" (commandName ++ ": " ++ message ++ "\n")

/-- Starts with settings: models need a file to go to, and without packages the one in the working
    directory is meant. -/
def startWith (s : Settings) (packages : List String) : Start :=
  if s.output = "" then fatal "no output file; use -o or set output in loopdep.conf"
  else .ready s (if packages.isEmpty then ["."] else packages)

/-- Starts the command. `root` is the text before the first name of a path that was looked up. -/
def start (build : BuildInfo) (files : Settings.Files) (root : String) (cwd : Directory)
    (args : List String) : Start :=
  match parseFlags {} args with
  | .error .help => .finished 0 "" (usage commandName)
  | .error e => .finished 2 "" (e.report commandName)
  | .ok (flags, packages) =>
    if flags.verboseVersion == some true then .finished 0 build.text ""
    else if flags.version == some true then .finished 0 (build.line ++ "\n") ""
    else match settings flags files cwd with
      | .error e => fatal (e.message root)
      | .ok s => startWith s packages

end LoopConflict.Command
