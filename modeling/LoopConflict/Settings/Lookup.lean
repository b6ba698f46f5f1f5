import LoopConflict.Glob
import LoopConflict.Settings.Layer
import LoopConflict.Text.Decimal

/-!
Where settings come from: one named file, or the settings files of a directory and of all directories
above it, where the nearest file wins.
-/
namespace LoopConflict

/-- A directory by its name and the names of the directories above it, up to the root. -/
abbrev Directory := List String

/-- A directory and all those above it, the nearest first. -/
def Directory.ancestors : Directory → List Directory
  | [] => [[]]
  | name :: up => (name :: up) :: ancestors up

/-- The name of settings files. -/
def settingsName : String := "loopdep.conf"

/-- A file that settings are read from. -/
inductive SettingsFile where
  | named (name : String)
  | within (dir : Directory)
deriving DecidableEq, Repr

/-- The path of a file; `root` is the text before the first name below the root. -/
def SettingsFile.path (root : String) : SettingsFile → String
  | .named name => name
  | .within dir => root ++ Text.joined "/" (dir.reverse ++ [settingsName])

/-- Why a file cannot be read. -/
inductive ReadError where
  | missing
  | notDirectory
  | nameTooLong
  | isDirectory
deriving DecidableEq, Repr

def ReadError.message (path : String) : ReadError → String
  | .missing => "open " ++ path ++ ": no such file or directory"
  | .notDirectory => "open " ++ path ++ ": not a directory"
  | .nameTooLong => "open " ++ path ++ ": file name too long"
  | .isDirectory => "read " ++ path ++ ": is a directory"

/-- Why there are no settings. -/
inductive SettingsError where
  /-- A file of a directory can be neither opened nor passed over. -/
  | unopened (file : SettingsFile) (cause : ReadError)
  /-- A file cannot be read. -/
  | unreadable (file : SettingsFile) (cause : ReadError)
  /-- A file is malformed, or a value has a wrong type. -/
  | malformed (file : SettingsFile)
  /-- A list refers to one below it that does not exist. -/
  | unresolved
deriving DecidableEq, Repr

def SettingsError.message (root : String) : SettingsError → String
  | .unopened file cause => cause.message (file.path root)
  | .unreadable file cause => file.path root ++ ": " ++ cause.message (file.path root)
  | .malformed file => file.path root ++ ": toml: not a settings file"
  | .unresolved => unresolvedMessage

namespace Settings

/-- What reading a file gives. -/
abbrev Files := SettingsFile → Except ReadError String

/-- Reads the text of a file as a layer; nothing if it is malformed. -/
abbrev Decoder := String → Option SettingsLayer

/-- The layer of a text that was read from a file. -/
def layerOf (decode : Decoder) (file : SettingsFile) (text : String) : Except SettingsError SettingsLayer :=
  match decode text with
  | some l => .ok l
  | none => .error (.malformed file)

/-- The layer of a directory's own settings file, if it has one. -/
def layerWithin (decode : Decoder) (files : Files) (dir : Directory) : Except SettingsError (Option SettingsLayer) :=
  let file := SettingsFile.within dir
  match files file with
  | .ok text => (layerOf decode file text).map some
  | .error .missing => .ok none
  | .error .isDirectory => .error (.unreadable file .isDirectory)
  | .error cause => .error (.unopened file cause)

/-- The layers of the directories' settings files, in the order of the directories. -/
def layersWithin (decode : Decoder) (files : Files) : List Directory → Except SettingsError (List SettingsLayer)
  | [] => .ok []
  | dir :: dirs => do
    let here ← layerWithin decode files dir
    let above ← layersWithin decode files dirs
    return here.toList ++ above

/-- The merged settings of some sources, with the list of patterns in its final form. -/
def finish (sources : List SettingsSource) (nonempty : sources ≠ []) : Except SettingsError Settings :=
  let s := SettingsSource.merged sources nonempty
  match resolved? s.exclude with
  | some names => .ok { s with exclude := names }
  | none => .error .unresolved

/-- The settings for a directory. -/
def load (files : Files) (dir : Directory) (decode : Decoder := SettingsLayer.ofText?) :
    Except SettingsError Settings := do
  let layers ← layersWithin decode files dir.ancestors
  finish (SettingsSource.ofLayers layers) (SettingsSource.ofLayers_ne_nil layers)

/-- The settings of one named file. -/
def loadFile (files : Files) (name : String) (decode : Decoder := SettingsLayer.ofText?) :
    Except SettingsError Settings :=
  let file := SettingsFile.named name
  match files file with
  | .ok text => do
    let layer ← layerOf decode file text
    finish [.defaults, .ofLayer layer] (by simp)
  | .error cause => .error (.unreadable file cause)

/-- A function is left out. -/
def isExcluded (s : Settings) (name : String) : Bool :=
  s.exclude.any fun pattern => Glob.isMatch pattern name

end Settings

end LoopConflict
