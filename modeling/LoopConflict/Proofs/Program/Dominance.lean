import LoopConflict.Program.Dominance
import LoopConflict.Proofs.Graph.Explore

/-!
Dominance as an order on blocks. A block dominates another one if control cannot get there around it
(`dominates_iff`). Dominance passes from a block to its predecessors (`dominates_pred`) and is transitive;
among blocks that control can get to it is antisymmetric, and the blocks that dominate such a block
dominate one another (`dominates_total`).
-/
namespace LoopConflict.Program.Function

open LoopConflict.Graph (Reach)

variable {f : Function} {a b c : Nat}

/-- Control can get to the block. -/
def Reachable (f : Function) (b : Nat) : Prop :=
  Reach f.succs (· ∈ f.blockIds) f.roots b

/-- Control can get to the block around another one. -/
def ReachableAround (f : Function) (a b : Nat) : Prop :=
  Reach f.succs (fun c => c ∈ f.blockIds ∧ c ≠ a) f.roots b

theorem mem_blockIds : b ∈ f.blockIds ↔ b < f.blocks.length :=
  List.mem_range

theorem nodup_blockIds (f : Function) : f.blockIds.Nodup :=
  List.nodup_range

theorem dominates_iff : f.dominates a b = true ↔ a = b ∨ ¬ f.ReachableAround a b := by
  have around : b ∈ f.reachableAvoiding a ↔ f.ReachableAround a b := by
    rw [reachableAvoiding, Graph.mem_explore_iff, ReachableAround]
    have same : ∀ c, c ∈ f.blockIds.erase a ↔ c ∈ f.blockIds ∧ c ≠ a := by
      intro c
      rw [(nodup_blockIds f).mem_erase_iff, and_comm]
    exact ⟨Reach.mono fun c => (same c).mp, Reach.mono fun c => (same c).mpr⟩
  simp [dominates, around]

theorem dominates_refl (f : Function) (b : Nat) : f.dominates b b = true :=
  dominates_iff.mpr (.inl rfl)

/-- Control gets to a root around all other blocks. -/
theorem eq_of_dominates_root (root : b ∈ f.roots) (inside : b ∈ f.blockIds) (dominates : f.dominates a b = true) :
    a = b := by
  rcases dominates_iff.mp dominates with same | blocked
  · exact same
  · by_contra other
    exact blocked (.start root ⟨inside, Ne.symm other⟩)

/-- Control gets to a block other than the dominating one through dominated predecessors. -/
theorem dominates_pred (dominates : f.dominates a b = true) (other : a ≠ b) (edge : b ∈ f.succs c)
    (inside : b ∈ f.blockIds) : f.dominates a c = true := by
  rcases dominates_iff.mp dominates with same | blocked
  · exact absurd same other
  · refine dominates_iff.mpr (or_iff_not_imp_right.mpr fun around => ?_)
    exact absurd (.step (not_not.mp around) edge ⟨inside, other.symm⟩) blocked

/-- A way around `a` leads around `b` or gets to `b` around `a`. -/
theorem ReachableAround.or (around : f.ReachableAround a c) (b : Nat) :
    f.ReachableAround b c ∨ f.ReachableAround a b := by
  induction around with
  | @start x member here =>
    by_cases same : x = b
    · exact .inr (same ▸ .start member here)
    · exact .inl (.start member ⟨here.1, same⟩)
  | @step x y before edge here ih =>
    by_cases same : y = b
    · exact .inr (same ▸ .step before edge here)
    · exact ih.imp_left fun around => .step around edge ⟨here.1, same⟩

theorem dominates_trans (first : f.dominates a b = true) (second : f.dominates b c = true) :
    f.dominates a c = true := by
  rcases dominates_iff.mp second with rfl | blocked
  · exact first
  · rcases dominates_iff.mp first with rfl | blocked'
    · exact second
    · refine dominates_iff.mpr (.inr fun around => ?_)
      rcases around.or b with aroundB | aroundA
      · exact blocked aroundB
      · exact blocked' aroundA

/-- Control gets to one of two blocks first. -/
theorem Reachable.around_or (reachable : f.Reachable c) (other : a ≠ b) :
    Reach f.succs (fun d => d ∈ f.blockIds ∧ d ≠ a ∧ d ≠ b) f.roots c ∨
      f.ReachableAround b a ∨ f.ReachableAround a b := by
  induction reachable with
  | @start x member here =>
    by_cases first : x = a
    · exact .inr (.inl (first ▸ .start member ⟨here, first ▸ other⟩))
    · by_cases second : x = b
      · exact .inr (.inr (second ▸ .start member ⟨here, second ▸ other.symm⟩))
      · exact .inl (.start member ⟨here, first, second⟩)
  | @step x y _ edge here ih =>
    rcases ih with neither | met
    · by_cases first : y = a
      · have before : f.ReachableAround b x := neither.mono fun d h => ⟨h.1, h.2.2⟩
        exact .inr (.inl (first ▸ .step before edge ⟨here, first ▸ other⟩))
      · by_cases second : y = b
        · have before : f.ReachableAround a x := neither.mono fun d h => ⟨h.1, h.2.1⟩
          exact .inr (.inr (second ▸ .step before edge ⟨here, second ▸ other.symm⟩))
        · exact .inl (.step neither edge ⟨here, first, second⟩)
    · exact .inr met

theorem dominates_antisymm (reachable : f.Reachable a) (first : f.dominates a b = true)
    (second : f.dominates b a = true) : a = b := by
  by_contra other
  rcases dominates_iff.mp first with same | blocked
  · exact other same
  rcases dominates_iff.mp second with same | blocked'
  · exact other same.symm
  rcases reachable.around_or other with neither | aroundB | aroundA
  · exact neither.holds.2.1 rfl
  · exact blocked' aroundB
  · exact blocked aroundA

/-- If control gets to each of two blocks around the other one, it gets everywhere around one of them. -/
theorem Reachable.around (reachable : f.Reachable c) (other : a ≠ b) (first : f.ReachableAround a b)
    (second : f.ReachableAround b a) : f.ReachableAround a c ∨ f.ReachableAround b c := by
  induction reachable with
  | @start x member here =>
    by_cases same : x = a
    · exact .inr (.start member ⟨here, same ▸ other⟩)
    · exact .inl (.start member ⟨here, same⟩)
  | @step x y _ edge here ih =>
    rcases ih with aroundA | aroundB
    · by_cases same : y = a
      · exact .inr (same ▸ second)
      · exact .inl (.step aroundA edge ⟨here, same⟩)
    · by_cases same : y = b
      · exact .inl (same ▸ first)
      · exact .inr (.step aroundB edge ⟨here, same⟩)

/-- Of two blocks that dominate a third one, one dominates the other. -/
theorem dominates_total (reachable : f.Reachable c) (first : f.dominates a c = true)
    (second : f.dominates b c = true) : f.dominates a b = true ∨ f.dominates b a = true := by
  by_contra neither
  simp only [not_or, dominates_iff, not_not] at neither
  obtain ⟨⟨other, aroundA⟩, _, aroundB⟩ := neither
  rcases dominates_iff.mp first with rfl | blocked
  · exact (dominates_iff.mp second).elim (fun same => other same.symm) fun blocked => blocked aroundB
  rcases dominates_iff.mp second with rfl | blocked'
  · exact blocked aroundA
  exact (reachable.around other aroundA aroundB).elim blocked blocked'

end LoopConflict.Program.Function
