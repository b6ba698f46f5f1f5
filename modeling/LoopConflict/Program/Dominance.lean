import LoopConflict.Graph.Explore
import LoopConflict.Program.Function

/-!
Dominance in the control flow graph of a function. Control starts at block 0, or at the block that it
resumes at after a failure.
-/
namespace LoopConflict.Program

namespace Function

variable (f : Function)

/-- The positions of all blocks. -/
def blockIds : List Nat :=
  List.range f.blocks.length

/-- Where control starts. -/
def roots : List Nat :=
  0 :: f.recover.toList

/-- The blocks that control can get to without passing through `a`. -/
def reachableAvoiding (a : Nat) : List Nat :=
  Graph.explore f.succs (f.blockIds.erase a) f.roots

/-- Every path from a root to `b` passes through `a`. -/
def dominates (a b : Nat) : Bool :=
  a == b || b ∉ f.reachableAvoiding a

end Function

end LoopConflict.Program
