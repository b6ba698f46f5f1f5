import LoopConflict.Toml.Reader

/-!
Settings and the layers they are made of. A layer sets some of them; what it does not set comes from the
layer below, and the defaults are the lowest layer. A list may take up the one below it by the entry
`inherit`.
-/
namespace LoopConflict

/-- What the analysis is asked to do. -/
structure Settings where
  /-- The file that the models go to. -/
  output : String
  /-- The label of the objective of every model. -/
  objective : String
  /-- Accesses depend on address computations reached through any operand. -/
  wide : Bool
  /-- The search nodes for each pair of accesses. -/
  budget : Int64
  trace : Bool
  /-- Patterns of functions that are left out. -/
  exclude : List String
deriving DecidableEq, Repr

/-- The settings where nothing is set. -/
def Settings.defaults : Settings :=
  { output := "", objective := "obj", wide := false, budget := 65536, trace := false, exclude := [] }

/-- The settings that one file or the command line sets. -/
structure SettingsLayer where
  output : Option String := none
  objective : Option String := none
  wide : Option Bool := none
  budget : Option Int64 := none
  trace : Option Bool := none
  exclude : Option (List String) := none
deriving DecidableEq, Repr

/-- The entry of a list that stands for the list below. -/
def inheritMark : String := "inherit"

/-- A list with the one below it put in for every mark. -/
def splice (below list : List String) : List String :=
  list.flatMap fun x => if x = inheritMark then below else [x]

/-- The names in increasing order; one that is repeated stays so. -/
def inOrder (names : List String) : List String :=
  names.mergeSort fun x y => !decide (y < x)

/-- The first name, and each other one that is not the same as the name before it. -/
def withoutRepeats (names : List String) : List String :=
  names.take 1 ++ (names.drop 1).zipIdx.filterMap fun p => if names[p.2]? = some p.1 then none else some p.1

/-- A list put in order and without repeats. -/
def normalized (list : List String) : List String :=
  if 1 < list.length then withoutRepeats (inOrder list) else list

/-- The names of a list in increasing order, each once; nothing if a mark is left in it. -/
def resolved? (list : List String) : Option (List String) :=
  let names := normalized list
  if inheritMark ∈ names then none else some names

/-- What is wrong with a list in which a mark is left. -/
def unresolvedMessage : String := "unresolved \"inherit\""

/-- Puts a name into its place in a list in increasing order, unless it is there. -/
def insertName (x : String) : List String → List String
  | [] => [x]
  | y :: ys =>
    if x < y then x :: y :: ys
    else if x = y then y :: ys
    else y :: insertName x ys

/-- The names in increasing order, each once. -/
def sortedNames (names : List String) : List String :=
  names.foldr insertName []

/-- The settings with a layer laid over them. -/
def Settings.override (s : Settings) (l : SettingsLayer) : Settings :=
  { output := l.output.getD s.output
    objective := l.objective.getD s.objective
    wide := l.wide.getD s.wide
    budget := l.budget.getD s.budget
    trace := l.trace.getD s.trace
    exclude := match l.exclude with
      | some list => splice s.exclude list
      | none => s.exclude }

/-- The settings of layers, the uppermost first. -/
def Settings.ofLayers (layers : List SettingsLayer) : Settings :=
  layers.foldr (fun l s => s.override l) Settings.defaults

/-- What a layer sets, and nothing else. -/
def SettingsLayer.settings (l : SettingsLayer) : Settings :=
  { output := l.output.getD ""
    objective := l.objective.getD ""
    wide := l.wide.getD false
    budget := l.budget.getD 0
    trace := l.trace.getD false
    exclude := l.exclude.getD [] }

/-- Where settings come from: the settings there, and those of them that count for what is below. -/
structure SettingsSource where
  settings : Settings
  layer : SettingsLayer
deriving DecidableEq, Repr

namespace SettingsSource

/-- The source of the defaults; it is below all others. -/
def defaults : SettingsSource := ⟨.defaults, {}⟩

def ofLayer (l : SettingsLayer) : SettingsSource := ⟨l.settings, l⟩

/-- A source with the one above it merged into it. -/
def merge (below above : SettingsSource) : SettingsSource :=
  { below with settings := below.settings.override above.layer }

/-- Exchanges the first `k` sources with the last ones, from outside to inside. -/
def swapOuter (k : Nat) (sources : Array SettingsSource) : Array SettingsSource :=
  (List.range k).foldl (fun a i => a.swapIfInBounds i (a.size - 1 - i)) sources

/-- The sources turned around. -/
def swapEnds (sources : Array SettingsSource) : Array SettingsSource :=
  swapOuter (sources.size / 2) sources

/-- The sources of layers and the defaults, the lowest first; the layers are found the uppermost first. -/
def ofLayers (layers : List SettingsLayer) : List SettingsSource :=
  (swapEnds (layers.map ofLayer ++ [defaults]).toArray).toList

/-- All sources merged into the lowest one, which is the first. -/
def merged : (sources : List SettingsSource) → sources ≠ [] → Settings
  | first :: rest, _ => (rest.foldl merge first).settings

theorem swapOuter_succ (k : Nat) (sources : Array SettingsSource) :
    swapOuter (k + 1) sources = (swapOuter k sources).swapIfInBounds k ((swapOuter k sources).size - 1 - k) := by
  rw [swapOuter, List.range_succ, List.foldl_append]
  rfl

theorem size_swapOuter (k : Nat) (sources : Array SettingsSource) : (swapOuter k sources).size = sources.size := by
  induction k with
  | zero => rfl
  | succ k ih => rw [swapOuter_succ, Array.size_swapIfInBounds, ih]

theorem ofLayers_ne_nil (layers : List SettingsLayer) : ofLayers layers ≠ [] := by
  rw [← List.length_pos_iff, ofLayers, Array.length_toList, swapEnds, size_swapOuter]
  simp

end SettingsSource

namespace SettingsLayer

open Toml (Value Table)

/-- The letter that a character is equal to when case is ignored. -/
def foldChar (c : Char) : Char :=
  if c.toNat = 0x17F then 's' else if c.toNat = 0x212A then 'k' else c.toLower

/-- A key without regard to case. -/
def foldKey (key : String) : String :=
  String.ofList (key.toList.map foldChar)

/-- The texts of an array that holds nothing else. -/
def textsOf : List Value → Option (List String)
  | [] => some []
  | .text s :: rest => (textsOf rest).map (s :: ·)
  | _ :: _ => none

/-- The value has the type that the setting asks for; a key that is no setting takes any value. -/
def fits (key : String) (v : Value) : Bool :=
  match foldKey key, v with
  | "output", .text _ => true
  | "output", _ => false
  | "objective", .text _ => true
  | "objective", _ => false
  | "wide_operands", .boolean _ => true
  | "wide_operands", _ => false
  | "solve_budget", .integer _ => true
  | "solve_budget", _ => false
  | "trace", .boolean _ => true
  | "trace", _ => false
  | "exclude", .array items => (textsOf items).isSome
  | "exclude", _ => false
  | _, _ => true

def textAt (t : Table) (key : String) : Option String :=
  match t.lookup key with
  | some (.text s) => some s
  | _ => none

def booleanAt (t : Table) (key : String) : Option Bool :=
  match t.lookup key with
  | some (.boolean b) => some b
  | _ => none

def integerAt (t : Table) (key : String) : Option Int64 :=
  match t.lookup key with
  | some (.integer n) => some n
  | _ => none

def textsAt (t : Table) (key : String) : Option (List String) :=
  match t.lookup key with
  | some (.array items) => textsOf items
  | _ => none

/-- The layer of a document's top table. Every key is checked without regard to case, but only a key in
    lower case sets something. -/
def ofTable? (t : Table) : Option SettingsLayer :=
  if t.all fun (key, v) => fits key v then
    some
      { output := textAt t "output"
        objective := textAt t "objective"
        wide := booleanAt t "wide_operands"
        budget := integerAt t "solve_budget"
        trace := booleanAt t "trace"
        exclude := textsAt t "exclude" }
  else none

/-- The layer of a settings file; nothing if it is malformed. -/
def ofText? (text : String) : Option SettingsLayer :=
  (Toml.parse text).bind ofTable?

end SettingsLayer

end LoopConflict
