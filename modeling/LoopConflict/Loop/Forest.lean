import LoopConflict.Program.Dominance
import LoopConflict.Program.Text

/-!
The natural loops of a function and how they nest. An edge to a block that dominates its source is a
back edge; all back edges to one header make one loop, whose body holds the blocks from which a latch
is reached without passing through the header. A loop is named by its position in pre-order: every
loop comes before the loops inside of it.
-/
namespace LoopConflict.Loop

open Program (Function Block Place Value Operation)

/-- A loop, by its position in pre-order. -/
abbrev LoopId := Nat

structure NaturalLoop where
  header : Nat
  /-- The sources of the back edges, ascending; a block that lists the header twice occurs twice. -/
  latches : List Nat
  /-- The blocks of the body, ascending. -/
  blocks : List Nat
  parent : Option LoopId
  children : List LoopId
  /-- The number of loops around it, itself included. -/
  depth : Nat
deriving DecidableEq, Repr, Inhabited

/-- The loops of a function in pre-order. -/
structure Forest where
  function : Function
  loops : List NaturalLoop
deriving Repr, Inhabited

/-- A loop whose place in the nest is not known yet. -/
structure Natural where
  header : Nat
  latches : List Nat
  blocks : List Nat
deriving DecidableEq, Repr, Inhabited

/-- The edges to a block that dominates their source, by source. An edge to the block that control
    resumes at after a failure does not count. -/
def backEdges (f : Function) : List (Nat × Nat) :=
  f.blockIds.flatMap fun b =>
    ((f.succs b).filter fun h => some h ≠ f.recover && f.dominates h b).map fun h => (b, h)

/-- The header and the blocks that lead to a latch without passing through the header. -/
def body (f : Function) (header : Nat) (latches : List Nat) : List Nat :=
  let found := Graph.explore f.preds (f.blockIds.erase header) latches
  f.blockIds.filter fun b => b = header || b ∈ found

/-- The loop with a given header. -/
def naturalLoop (f : Function) (edges : List (Nat × Nat)) (header : Nat) : Natural :=
  let latches := (edges.filter (·.2 == header)).map (·.1)
  ⟨header, latches, body f header latches⟩

/-- All loops, by ascending header. -/
def naturalLoops (f : Function) : List Natural :=
  let edges := backEdges f
  (f.blockIds.filter fun h => edges.any (·.2 == h)).map (naturalLoop f edges)

/-- The first smallest one of two candidates. -/
def smaller (loops : List Natural) (best : Option Nat) (i : Nat) : Option Nat :=
  let size (j : Nat) := ((loops[j]?).map (·.blocks.length)).getD 0
  match best with
  | none => some i
  | some j => if size i < size j then some i else some j

/-- The smallest other loop around the header of the loop at `i`. -/
def parentOf (loops : List Natural) (i : Nat) : Option Nat :=
  match loops[i]? with
  | none => none
  | some child =>
    ((List.range loops.length).filter fun j =>
      j ≠ i && ((loops[j]?).map fun l => decide (child.header ∈ l.blocks)).getD false).foldl
        (smaller loops) none

/-- A loop and the loops inside of it, each with its depth, to at most `fuel` levels. -/
def preorder (children : Nat → List Nat) : (fuel depth : Nat) → Nat → List (Nat × Nat)
  | 0, _, _ => []
  | fuel + 1, depth, i => (i, depth) :: (children i).flatMap (preorder children fuel (depth + 1))

/-- Finds the loops of a function. -/
def Forest.ofFunction (f : Function) : Forest :=
  let loops := naturalLoops f
  let ids := List.range loops.length
  let children (i : Nat) := ids.filter fun j => parentOf loops j == some i
  let order := (ids.filter fun i => (parentOf loops i).isNone).flatMap (preorder children loops.length 1)
  let position (i : Nat) := order.findIdx? (·.1 == i)
  { function := f
    loops := order.map fun (i, depth) =>
      let l := (loops[i]?).getD default
      { header := l.header
        latches := l.latches
        blocks := l.blocks
        parent := (parentOf loops i).bind position
        children := (children i).filterMap position
        depth := depth } }

/-- The block belongs to the loop. -/
def NaturalLoop.contains (l : NaturalLoop) (b : Nat) : Bool :=
  b ∈ l.blocks

/-- The value is computed by an instruction inside of the loop. -/
def NaturalLoop.defines (l : NaturalLoop) (v : Value) : Bool :=
  match v with
  | .result p => l.contains p.block
  | _ => false

/-- The source of the only back edge. -/
def NaturalLoop.latch? (l : NaturalLoop) : Option Nat :=
  match l.latches with
  | [b] => some b
  | _ => none

/-- The only predecessor of the header outside of the loop. -/
def NaturalLoop.entry? (l : NaturalLoop) (f : Function) : Option Nat :=
  match (f.preds l.header).filter fun b => !l.contains b with
  | [] => none
  | b :: rest => if rest.all (· == b) then some b else none

/-- The phis at the start of the header. -/
def NaturalLoop.phis (l : NaturalLoop) (f : Function) : List Place :=
  (f.placesOf l.header).takeWhile fun p =>
    match f.operation? p with
    | some (.phi _ _) => true
    | _ => false

/-- The blocks with a successor outside of the loop. -/
def NaturalLoop.exiting (l : NaturalLoop) (f : Function) : List Nat :=
  f.blockIds.filter fun b => l.contains b && (f.succs b).any fun s => !l.contains s

namespace Forest

variable (F : Forest)

def loop? (l : LoopId) : Option NaturalLoop :=
  F.loops[l]?

def ids : List LoopId :=
  List.range F.loops.length

/-- The loops that are not inside of another one. -/
def top : List LoopId :=
  F.ids.filter fun l => ((F.loop? l).map fun x => x.parent.isNone).getD false

def depth (l : LoopId) : Nat :=
  ((F.loop? l).map (·.depth)).getD 0

/-- A loop is named by the comment and the position of its header. -/
def name (l : LoopId) : String :=
  match F.loop? l with
  | none => ""
  | some x => ((F.function.blocks[x.header]?).map (·.comment)).getD "" ++ "." ++ Text.nat x.header

/-- The block belongs to the loop. -/
def contains (l : LoopId) (b : Nat) : Bool :=
  ((F.loop? l).map fun x => x.contains b).getD false

/-- The value is computed inside of the loop. -/
def defines (l : LoopId) (v : Value) : Bool :=
  ((F.loop? l).map fun x => x.defines v).getD false

/-- The loop and at most `fuel` loops around it, from the inside out. -/
def ancestorsWithin : Nat → LoopId → List LoopId
  | 0, l => [l]
  | fuel + 1, l =>
    l :: match (F.loop? l).bind (·.parent) with
      | some p => ancestorsWithin fuel p
      | none => []

/-- The loop and the loops around it, from the inside out. -/
def ancestors (l : LoopId) : List LoopId :=
  F.ancestorsWithin F.loops.length l

/-- `inner` is `outer` or a loop inside of it. -/
def containsLoop (outer inner : LoopId) : Bool :=
  outer ∈ F.ancestors inner

/-- The innermost loop around a block: the last one that contains it. -/
def innermost? (b : Nat) : Option LoopId :=
  (F.ids.filter fun l => F.contains l b).getLast?

/-- The loop whose header a block is. -/
def headedBy? (b : Nat) : Option LoopId :=
  (F.innermost? b).filter fun l => ((F.loop? l).map fun x => x.header == b).getD false

/-- The blocks whose innermost loop is the given one. -/
def direct (l : LoopId) : List Nat :=
  F.function.blockIds.filter fun b => F.innermost? b == some l

end Forest

end LoopConflict.Loop
