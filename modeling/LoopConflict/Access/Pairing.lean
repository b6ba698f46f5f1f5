import LoopConflict.Access.Address

/-!
The accesses of a loop, grouped by the base that their addresses are computed from, and the pairs of a
group that can conflict: two accesses of which at least one is a store.
-/
namespace LoopConflict.Access

open Program (Function Place Operation)
open Evolution (Expr Context)

/-- A load or store with the affine index of each of its address computations. -/
structure MemoryAccess where
  place : Place
  isStore : Bool
  steps : List Place
  /-- What the address is computed from; none if no step has a base outside of the steps. -/
  base : Option Expr
  equations : List Affine
deriving DecidableEq, Repr

namespace MemoryAccess

def kind (a : MemoryAccess) : String :=
  if a.isStore then "store" else "load"

def text (f : Function) (a : MemoryAccess) : String :=
  a.kind ++ " " ++ f.instructionText a.place

/-- The source position of the access; a load without one takes that of its address. -/
def pos (f : Function) (a : MemoryAccess) : Int :=
  match f.instruction? a.place with
  | none => 0
  | some i =>
    if i.pos ≠ 0 then i.pos
    else match i.operation with
      | .load x => f.posOf x
      | _ => 0

end MemoryAccess

/-- Accesses with the same base. -/
structure Group where
  base : Option Expr
  members : List MemoryAccess
deriving DecidableEq, Repr

/-- Adds an access to the group of its base; without one a new group goes to the end. -/
def addToGroup (a : MemoryAccess) : List Group → List Group
  | [] => [⟨a.base, [a]⟩]
  | g :: rest =>
    if g.base = a.base then { g with members := g.members ++ [a] } :: rest else g :: addToGroup a rest

/-- The groups of accesses, in the order of their first members. -/
def groupByBase (accesses : List MemoryAccess) : List Group :=
  accesses.foldl (fun groups a => addToGroup a groups) []

/-- The pairs of a list, each member before a later one. -/
def orderedPairs {α : Type} : List α → List (α × α)
  | [] => []
  | a :: rest => rest.map (fun b => (a, b)) ++ orderedPairs rest

/-- The pairs of accesses of which at least one is a store. -/
def conflicting (accesses : List MemoryAccess) : List (MemoryAccess × MemoryAccess) :=
  (orderedPairs accesses).filter fun p => p.1.isStore || p.2.isStore

/-- Two accesses of one base with different numbers of indices. -/
structure ArityMismatch where
  a : MemoryAccess
  b : MemoryAccess
deriving DecidableEq, Repr

def ArityMismatch.message (f : Function) (e : ArityMismatch) : String :=
  "accesses of the same base differ in index arity: " ++
    e.a.text f ++ " has " ++ Text.nat e.a.equations.length ++ ", " ++
    e.b.text f ++ " has " ++ Text.nat e.b.equations.length

/-- The pairs of a group that can conflict; all must have the same number of indices on both sides. -/
def Group.pairs (g : Group) : Except ArityMismatch (List (MemoryAccess × MemoryAccess)) :=
  let pairs := conflicting g.members
  match pairs.find? fun p => p.1.equations.length ≠ p.2.equations.length with
  | some (a, b) => .error ⟨a, b⟩
  | none => .ok pairs

/-- The name of a base in messages. -/
def baseName (c : Context) : Option Expr → String
  | none => "memory"
  | some e => e.text c

end LoopConflict.Access
