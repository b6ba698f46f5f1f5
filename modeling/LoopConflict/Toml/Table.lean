/-!
The values of a TOML document and its tables, and the rules on defining a key twice. A table that was
only implied by the name of another one may be defined once more; an array may be replaced.
-/
namespace LoopConflict.Toml

inductive Value where
  | text (s : String)
  | integer (n : Int64)
  | boolean (b : Bool)
  | float
  | datetime
  | array (items : List Value)
  | table (entries : List (String × Value))
  /-- The tables that were appended under one name. -/
  | tables (items : List (List (String × Value)))
deriving Repr, Inhabited

/-- A table: its keys with their values. -/
abbrev Table := List (String × Value)

/-- The names from the top of the document down to a value. -/
abbrev Path := List String

/-- Sets a key of a table; a new key goes to the end. -/
def Table.set (key : String) (v : Value) : Table → Table
  | [] => [(key, v)]
  | (k, w) :: rest => if k = key then (k, v) :: rest else (k, w) :: Table.set key v rest

/-- What has been read of a document. -/
structure Document where
  root : Table := []
  /-- The tables that are only implied by longer names. -/
  implied : List Path := []
  /-- The keys whose value is an array. -/
  arrays : List Path := []
  /-- The table that keys are read into. -/
  context : Path := []
deriving Repr

/-- Changes the table at a path; of appended tables it is the last one. -/
def modifyAt (change : Table → Option Table) : Path → Table → Option Table
  | [], t => change t
  | key :: path, t =>
    match t.lookup key with
    | some (.table u) => do
      let u ← modifyAt change path u
      return t.set key (.table u)
    | some (.tables us) =>
      match us.reverse with
      | [] => none
      | u :: before => do
        let u ← modifyAt change path u
        return t.set key (.tables (before.reverse ++ [u]))
    | _ => none

/-- The table at a path; of appended tables it is the last one. -/
def tableAt? : Path → Table → Option Table
  | [], t => some t
  | key :: path, t =>
    match t.lookup key with
    | some (.table u) => tableAt? path u
    | some (.tables us) => us.getLast?.bind (tableAt? path)
    | _ => none

namespace Document

/-- The current table has a key. -/
def hasKey (d : Document) (key : String) : Bool :=
  (tableAt? d.context d.root).any fun t => (t.lookup key).isSome

/-- Changes the current table. -/
def modifyCurrent (change : Table → Option Table) (d : Document) : Option Document :=
  (modifyAt change d.context d.root).map fun root => { d with root := root }

def isImplied (d : Document) (p : Path) : Bool :=
  d.implied.contains p

def imply (p : Path) (d : Document) : Document :=
  if d.isImplied p then d else { d with implied := p :: d.implied }

def define (p : Path) (d : Document) : Document :=
  { d with implied := d.implied.filter (· ≠ p) }

def isArray (d : Document) (p : Path) : Bool :=
  d.arrays.contains p

/-- Notes whether the value of a key in the current table is an array. The empty key stands for the
    table itself. -/
def note (key : String) (array : Bool) (d : Document) : Document :=
  let named := if key = "" then d.context else d.context ++ [key]
  let p := if named.isEmpty then [""] else named
  let others := d.arrays.filter (· ≠ p)
  { d with arrays := if array then p :: others else others }

/-- Sets a key of the current table. A key that exists is left as it is if it was only implied, and
    replaced if its value is an array. -/
def set (key : String) (v : Value) (d : Document) : Option Document :=
  let p := d.context ++ [key]
  if !d.hasKey key || d.isArray p then
    (d.modifyCurrent fun t => some (t.set key v)).map fun new => if d.hasKey key then new.define p else new
  else if d.isImplied p then some (d.define p)
  else none

/-- Goes down to a table, step by step, implying those that do not exist. -/
def descend : Path → Document → Option Document
  | [], d => some d
  | key :: path, d => do
    let p := d.context ++ [key]
    let new ← d.modifyCurrent fun t =>
      match t.lookup key with
      | none => some (t.set key (.table []))
      | some (.table _) => some t
      | some (.tables _) => some t
      | some _ => none
    let new := if d.hasKey key then new else new.imply p
    descend path { new with context := p }

/-- Appends a table under a key of the current one. -/
def append (key : String) (d : Document) : Option Document :=
  d.modifyCurrent fun t =>
    match t.lookup key with
    | none => some (t.set key (.tables [[]]))
    | some (.tables us) => some (t.set key (.tables (us ++ [[]])))
    | some _ => none

/-- Opens the table at a path and makes it the current one; with `appended`, it is a new one among the
    tables there. -/
def openTable (p : Path) (appended : Bool) (d : Document) : Option Document :=
  match p.reverse with
  | [] => none
  | key :: before => do
    let d ← descend before.reverse { d with context := [] }
    let d ← if appended then d.append key else d.set key (.table [])
    return { d with context := p }

/-- Goes into the tables that the front parts of a dotted key imply. -/
def enter : Path → Document → Option Document
  | [], d => some d
  | key :: path, d => do
    let p := d.context ++ [key]
    let d ← (d.imply p).openTable p false
    enter path d

end Document

end LoopConflict.Toml
