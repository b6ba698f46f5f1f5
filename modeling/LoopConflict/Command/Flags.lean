import LoopConflict.Text.Literal
import LoopConflict.Text.Quoted

/-!
The flags of the command line. A flag starts with one or two dashes. Its value stands after an equals
sign or in the next argument; a switch takes a value only after an equals sign. The first argument that
is no flag ends them.
-/
namespace LoopConflict.Command

inductive Flag where
  | budget
  | config
  | jobs
  | output
  | objective
  | tags
  | tests
  | trace
  | version
  | wide
  | cpuProfile
  | memoryProfile
  | verboseVersion
deriving DecidableEq, Repr

/-- What a flag takes. -/
inductive FlagKind where
  | switch
  | number
  | text
deriving DecidableEq, Repr

namespace Flag

/-- All flags, in the order of their names. -/
def all : List Flag :=
  [.budget, .config, .cpuProfile, .memoryProfile, .verboseVersion, .jobs, .output, .objective, .tags, .tests,
    .trace, .version, .wide]

def name : Flag → String
  | .budget => "budget"
  | .config => "config"
  | .jobs => "j"
  | .output => "o"
  | .objective => "objective"
  | .tags => "tags"
  | .tests => "tests"
  | .trace => "trace"
  | .version => "version"
  | .wide => "wide"
  | .cpuProfile => "debug.cpuprofile"
  | .memoryProfile => "debug.memprofile"
  | .verboseVersion => "debug.version"

def kind : Flag → FlagKind
  | .budget | .jobs => .number
  | .tests | .trace | .version | .wide | .verboseVersion => .switch
  | .config | .output | .objective | .tags | .cpuProfile | .memoryProfile => .text

/-- The flag with a name. -/
def ofName? (s : String) : Option Flag :=
  all.find? (·.name = s)

/-- The flag helps to examine the program itself, and the usage does not list it. -/
def isDebug : Flag → Bool
  | .cpuProfile | .memoryProfile | .verboseVersion => true
  | _ => false

end Flag

/-- Why the command line is refused; `help` asks for the usage. -/
inductive FlagError where
  | help
  | badForm (argument : String)
  | undefined (name : String)
  | needsArgument (flag : Flag)
  | invalidSwitch (value : String) (flag : Flag) (cause : Text.LiteralError)
  | invalidValue (value : String) (flag : Flag) (cause : Text.LiteralError)
deriving DecidableEq, Repr

def FlagError.message : FlagError → String
  | .help => "flag: help requested"
  | .badForm argument => "bad flag syntax: " ++ argument
  | .undefined name => "flag provided but not defined: -" ++ name
  | .needsArgument flag => "flag needs an argument: -" ++ flag.name
  | .invalidSwitch value flag cause =>
    "invalid boolean value " ++ Text.quoted value ++ " for -" ++ flag.name ++ ": " ++ cause.message
  | .invalidValue value flag cause =>
    "invalid value " ++ Text.quoted value ++ " for flag -" ++ flag.name ++ ": " ++ cause.message

/-- The flags that were given, each with its last value. -/
structure Flags where
  budget : Option Int64 := none
  config : Option String := none
  jobs : Option Int64 := none
  output : Option String := none
  objective : Option String := none
  tags : Option String := none
  tests : Option Bool := none
  trace : Option Bool := none
  version : Option Bool := none
  wide : Option Bool := none
  cpuProfile : Option String := none
  memoryProfile : Option String := none
  verboseVersion : Option Bool := none
deriving DecidableEq, Repr

/-- Gives a flag a value. -/
def Flags.set (flags : Flags) (flag : Flag) (value : String) : Except Text.LiteralError Flags :=
  match flag with
  | .budget => (Text.readInteger value).map fun n => { flags with budget := some n }
  | .jobs => (Text.readInteger value).map fun n => { flags with jobs := some n }
  | .config => .ok { flags with config := some value }
  | .output => .ok { flags with output := some value }
  | .objective => .ok { flags with objective := some value }
  | .tags => .ok { flags with tags := some value }
  | .cpuProfile => .ok { flags with cpuProfile := some value }
  | .memoryProfile => .ok { flags with memoryProfile := some value }
  | .tests => (Text.readBoolean value).map fun b => { flags with tests := some b }
  | .trace => (Text.readBoolean value).map fun b => { flags with trace := some b }
  | .version => (Text.readBoolean value).map fun b => { flags with version := some b }
  | .wide => (Text.readBoolean value).map fun b => { flags with wide := some b }
  | .verboseVersion => (Text.readBoolean value).map fun b => { flags with verboseVersion := some b }

/-- An argument on the command line. -/
inductive Argument where
  /-- It is no flag, and neither is what follows. -/
  | plain
  /-- What follows is no flag. -/
  | endOfFlags
  | malformed
  | flag (name : String) (value : Option String)
deriving DecidableEq, Repr

/-- Splits what follows the dashes at its first equals sign. -/
def splitFlag (cs : List Char) : Argument :=
  let name := cs.takeWhile (· ≠ '=')
  match cs.drop name.length with
  | [] => .flag (String.ofList name) none
  | _ :: value => .flag (String.ofList name) (some (String.ofList value))

def Argument.ofText (s : String) : Argument :=
  match s.toList with
  | ['-', '-'] => .endOfFlags
  | '-' :: '-' :: c :: rest => if c = '-' || c = '=' then .malformed else splitFlag (c :: rest)
  | '-' :: c :: rest => if c = '=' then .malformed else splitFlag (c :: rest)
  | _ => .plain

/-- The value of a switch that is given without one. -/
def switchedOn : String := "true"

/-- Reads flags up to the first argument that is none; gives them and the other arguments. -/
def parseFlags (flags : Flags) : List String → Except FlagError (Flags × List String)
  | [] => .ok (flags, [])
  | arg :: rest =>
    match Argument.ofText arg with
    | .plain => .ok (flags, arg :: rest)
    | .endOfFlags => .ok (flags, rest)
    | .malformed => .error (.badForm arg)
    | .flag name value =>
      match Flag.ofName? name with
      | none => .error (if name = "help" || name = "h" then .help else .undefined name)
      | some flag =>
        match flag.kind, value with
        | .switch, value =>
          let value := value.getD switchedOn
          match flags.set flag value with
          | .ok flags => parseFlags flags rest
          | .error cause => .error (.invalidSwitch value flag cause)
        | _, some value =>
          match flags.set flag value with
          | .ok flags => parseFlags flags rest
          | .error cause => .error (.invalidValue value flag cause)
        | _, none =>
          match rest with
          | [] => .error (.needsArgument flag)
          | value :: rest =>
            match flags.set flag value with
            | .ok flags => parseFlags flags rest
            | .error cause => .error (.invalidValue value flag cause)

end LoopConflict.Command
