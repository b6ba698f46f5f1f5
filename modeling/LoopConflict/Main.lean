import LoopConflict.Command.Start

/-!
The command line. Settings files are read before the command starts; what it prints and how it ends is
decided by `Command.start`.
-/
namespace LoopConflict.Command

/-- Why a file was not read. -/
def readErrorOf : IO.Error → ReadError
  | .noFileOrDirectory .. => .missing
  | .inappropriateType .. => .isDirectory
  | .invalidArgument .. => .nameTooLong
  | _ => .notDirectory

/-- Reads a settings file. -/
def readSettings (file : SettingsFile) : IO (Except ReadError String) := do
  try
    return .ok (← IO.FS.readFile (file.path "/"))
  catch e =>
    return .error (readErrorOf e)

/-- The settings files that a start of the command may look at. -/
def candidates (cwd : Directory) (args : List String) : List SettingsFile :=
  let named := match parseFlags {} args with
    | .ok (flags, _) => flags.settingsFile?.toList.map SettingsFile.named
    | .error _ => []
  named ++ cwd.ancestors.map SettingsFile.within

/-- What was read, as a function of the file. -/
def filesOf (read : List (SettingsFile × Except ReadError String)) : Settings.Files := fun file =>
  (read.lookup file).getD (.error .missing)

end LoopConflict.Command

open LoopConflict in
/-- Runs the command. It stops where packages would have to be loaded, since functions are taken in their
    analyzed form only. -/
def main (args : List String) : IO UInt32 := do
  let cwd : Directory := ((← IO.currentDir).toString.splitOn "/").filter (· ≠ "") |>.reverse
  let read ← (Command.candidates cwd args).mapM fun file => return (file, ← Command.readSettings file)
  match Command.start (Command.developmentBuild Command.commandName) (Command.filesOf read) "/" cwd args with
  | .finished code output errors =>
    IO.print output
    IO.eprint errors
    return code.toUInt32
  | .ready _ packages =>
    IO.eprintln (Command.commandName ++ ": cannot load packages: " ++ Text.joined " " packages)
    return 1
