import LoopConflict.Loop.Forest
import LoopConflict.Proofs.Program.Availability

/-!
Natural loops. The header of a loop dominates its blocks (`IsNatural.dominates`) and is the only block
that control enters the loop through (`IsNatural.mem_of_mem_preds`), so a block that is not in the loop
but dominates one of its blocks comes before the header (`IsNatural.before_header`). Two loops with a
block in common are nested, the one whose header is dominated inside of the other one
(`IsNatural.subset`).
-/
namespace LoopConflict.Loop

open Program (Function Place Value)
open LoopConflict.Graph (Reach)

variable {f : Function} {h b c : Nat} {latches blocks : List Nat}

/-- The blocks are those of the loop with the given header, which the edges from the latches lead back
    to. -/
structure IsNatural (f : Function) (h : Nat) (latches blocks : List Nat) : Prop where
  isLatch (b : Nat) : b ∈ latches ↔ h ∈ f.succs b ∧ f.dominates h b = true
  someLatch : ∃ b, b ∈ latches
  isBlock (b : Nat) : b ∈ blocks ↔
    b ∈ f.blockIds ∧ (b = h ∨ Reach f.preds (fun c => c ∈ f.blockIds ∧ c ≠ h) latches b)

/-! ### The loops that are found -/

theorem mem_backEdges : (b, h) ∈ backEdges f ↔ h ∈ f.succs b ∧ some h ≠ f.recover ∧ f.dominates h b = true := by
  simp only [backEdges, List.mem_flatMap, List.mem_map, List.mem_filter, Prod.mk.injEq, Bool.and_eq_true,
    decide_eq_true_eq]
  constructor
  · rintro ⟨b', _, h', ⟨edge, resumes, dominates⟩, rfl, rfl⟩
    exact ⟨edge, resumes, dominates⟩
  · rintro ⟨edge, resumes, dominates⟩
    exact ⟨b, Function.mem_blockIds_of_mem_succs edge, h, ⟨edge, resumes, dominates⟩, rfl, rfl⟩

theorem isNatural_of_mem_naturalLoops {l : Natural} (member : l ∈ naturalLoops f) :
    IsNatural f l.header l.latches l.blocks := by
  obtain ⟨h, isHeader, rfl⟩ := List.mem_map.mp member
  obtain ⟨inside, someEdge⟩ := List.mem_filter.mp isHeader
  obtain ⟨⟨b, h'⟩, isBack, same⟩ := List.any_eq_true.mp someEdge
  obtain rfl : h' = h := by simpa using same
  obtain ⟨_, resumes, _⟩ := mem_backEdges.mp isBack
  have latches : ∀ b, b ∈ (naturalLoop f (backEdges f) h').latches ↔ h' ∈ f.succs b ∧ f.dominates h' b = true := by
    intro b
    simp only [naturalLoop, List.mem_map, List.mem_filter, beq_iff_eq]
    constructor
    · rintro ⟨⟨b', h''⟩, ⟨found, same⟩, source⟩
      obtain rfl : h'' = h' := same
      obtain rfl : b' = b := source
      obtain ⟨edge, _, dominates⟩ := mem_backEdges.mp found
      exact ⟨edge, dominates⟩
    · rintro ⟨edge, dominates⟩
      exact ⟨(b, h'), ⟨mem_backEdges.mpr ⟨edge, resumes, dominates⟩, rfl⟩, rfl⟩
  refine ⟨latches, ⟨b, (latches b).mpr ?_⟩, fun b => ?_⟩
  · obtain ⟨edge, _, dominates⟩ := mem_backEdges.mp isBack
    exact ⟨edge, dominates⟩
  · have same : ∀ c, c ∈ f.blockIds.erase h' ↔ c ∈ f.blockIds ∧ c ≠ h' := by
      intro c
      rw [(Function.nodup_blockIds f).mem_erase_iff, and_comm]
    simp only [naturalLoop, body, List.mem_filter, Graph.mem_explore_iff, Bool.or_eq_true, decide_eq_true_eq]
    refine and_congr_right fun _ => or_congr_right ?_
    exact ⟨Reach.mono fun c => (same c).mp, Reach.mono fun c => (same c).mpr⟩

namespace IsNatural

variable (loop : IsNatural f h latches blocks)
include loop

theorem mem_blockIds (inside : b ∈ blocks) : b ∈ f.blockIds :=
  ((loop.isBlock b).mp inside).1

/-- Control cannot get into the loop around its header. -/
theorem dominates (flow : f.Connected) (inside : b ∈ blocks) : f.dominates h b = true := by
  obtain ⟨_, rfl | reach⟩ := (loop.isBlock b).mp inside
  · exact Function.dominates_refl f b
  · refine Function.dominates_iff.mpr (.inr fun around => ?_)
    induction reach with
    | start isLatch here =>
      obtain ⟨_, dominates⟩ := (loop.isLatch _).mp isLatch
      rcases Function.dominates_iff.mp dominates with same | blocked
      · exact here.2 same.symm
      · exact blocked around
    | step before edge _ ih =>
      have previous := (loop.isBlock _).mpr ⟨before.holds.1, .inr before⟩
      exact ih previous before.holds.1 (.step around (flow.mem_succs_iff.mpr edge) before.holds)

theorem header_mem (flow : f.Connected) : h ∈ blocks := by
  obtain ⟨b, isLatch⟩ := loop.someLatch
  obtain ⟨edge, _⟩ := (loop.isLatch b).mp isLatch
  exact (loop.isBlock h).mpr ⟨flow.mem_blockIds_of_succ edge, .inl rfl⟩

theorem latch_mem (isLatch : b ∈ latches) : b ∈ blocks := by
  obtain ⟨edge, _⟩ := (loop.isLatch b).mp isLatch
  have inside := Function.mem_blockIds_of_mem_succs edge
  refine (loop.isBlock b).mpr ⟨inside, ?_⟩
  by_cases same : b = h
  · exact .inl same
  · exact .inr (.start isLatch ⟨inside, same⟩)

/-- Control enters the loop through its header. -/
theorem mem_of_mem_preds (inside : b ∈ blocks) (other : b ≠ h) (flow : f.Connected) (edge : c ∈ f.preds b) : c ∈ blocks := by
  have here := Function.mem_blockIds_of_mem_succs (flow.mem_succs_iff.mpr edge)
  refine (loop.isBlock c).mpr ⟨here, ?_⟩
  by_cases same : c = h
  · exact .inl same
  · obtain ⟨_, isHeader | reach⟩ := (loop.isBlock b).mp inside
    · exact absurd isHeader other
    · exact .inr (.step reach edge ⟨here, same⟩)

/-- The edges to the header from inside of the loop are its back edges. -/
theorem mem_latches_iff (flow : f.Connected) (edge : h ∈ f.succs b) : b ∈ latches ↔ b ∈ blocks := by
  constructor
  · exact loop.latch_mem
  · intro inside
    exact (loop.isLatch b).mpr ⟨edge, loop.dominates flow inside⟩

/-- A block between the header and a block of the loop belongs to the loop. -/
theorem mem_of_dominates (flow : f.Connected) (inside : b ∈ blocks) (after : f.dominates h c = true)
    (before : f.dominates c b = true) : c ∈ blocks := by
  by_contra outside
  have other : h ≠ c := fun same => outside (same ▸ loop.header_mem flow)
  have headerReachable := flow.reachable (loop.mem_blockIds (loop.header_mem flow))
  -- Control gets to the header around `c` and from there to all blocks of the loop.
  have around : f.ReachableAround c h := by
    by_contra blocked
    exact other (Function.dominates_antisymm headerReachable after (Function.dominates_iff.mpr (.inr blocked)))
  have everywhere : ∀ d, f.Reachable d → d ∈ blocks → f.ReachableAround c d := by
    intro d reachable
    induction reachable with
    | @start x member here => exact fun inLoop => .start member ⟨here, fun same => outside (same ▸ inLoop)⟩
    | @step x y _ edge here ih =>
      intro inLoop
      by_cases same : y = h
      · exact same ▸ around
      · have previous := loop.mem_of_mem_preds inLoop same flow (flow.mem_succs_iff.mp edge)
        exact .step (ih previous) edge ⟨here, fun same => outside (same ▸ inLoop)⟩
  rcases Function.dominates_iff.mp before with rfl | blocked
  · exact outside inside
  · exact blocked (everywhere b (flow.reachable (loop.mem_blockIds inside)) inside)

/-- What dominates a block of the loop from outside comes before the header. -/
theorem before_header (flow : f.Connected) (inside : b ∈ blocks) (dominates : f.dominates c b = true)
    (outside : c ∉ blocks) : c ≠ h ∧ f.dominates c h = true := by
  refine ⟨fun same => outside (same ▸ loop.header_mem flow), ?_⟩
  rcases Function.dominates_total (flow.reachable (loop.mem_blockIds inside)) dominates (loop.dominates flow inside) with
    before | after
  · exact before
  · exact absurd (loop.mem_of_dominates flow inside after dominates) outside

/-- What comes before the header is not in the loop. -/
theorem not_mem_of_before_header (flow : f.Connected) (other : c ≠ h) (dominates : f.dominates c h = true) :
    c ∉ blocks := by
  intro inside
  have reachable := flow.reachable (loop.mem_blockIds inside)
  exact other (Function.dominates_antisymm reachable dominates (loop.dominates flow inside))

/-- What dominates all blocks that control enters the loop from dominates its header. -/
theorem dominates_header (flow : f.Connected) (notRoot : h ∉ f.roots)
    (entries : ∀ b ∈ f.preds h, b ∉ blocks → f.dominates c b = true) : f.dominates c h = true := by
  by_contra notDominated
  rw [Function.dominates_iff, not_or, not_not] at notDominated
  obtain ⟨_, around⟩ := notDominated
  -- The first time that control gets to the header around `c` it comes from outside of the loop.
  have first : ∀ d, f.ReachableAround c d →
      Reach f.succs (fun e => e ∈ f.blockIds ∧ e ≠ c ∧ e ≠ h) f.roots d ∨
        ∃ b ∈ f.preds h, Reach f.succs (fun e => e ∈ f.blockIds ∧ e ≠ c ∧ e ≠ h) f.roots b := by
    intro d reach
    induction reach with
    | @start x member here => exact .inl (.start member ⟨here.1, here.2, fun same => notRoot (same ▸ member)⟩)
    | @step x y _ edge here ih =>
      rcases ih with before | entry
      · by_cases same : y = h
        · exact .inr ⟨x, flow.mem_succs_iff.mp (same ▸ edge), before⟩
        · exact .inl (.step before edge ⟨here.1, here.2, same⟩)
      · exact .inr entry
  rcases first h around with here | ⟨b, edge, before⟩
  · exact here.holds.2.2 rfl
  · have outside : b ∉ blocks := by
      intro inside
      rcases Function.dominates_iff.mp (loop.dominates flow inside) with same | blocked
      · exact before.holds.2.2 same.symm
      · exact blocked (before.mono fun e h => ⟨h.1, h.2.2⟩)
    rcases Function.dominates_iff.mp (entries b edge outside) with same | blocked
    · exact before.holds.2.1 same.symm
    · exact blocked (before.mono fun e h => ⟨h.1, h.2.1⟩)

/-- A loop with its header in another loop, whose header is a different one, lies inside of it. -/
theorem subset (flow : f.Connected) {h' : Nat} {latches' blocks' : List Nat} (loop' : IsNatural f h' latches' blocks')
    (headerInside : h' ∈ blocks) (other : h' ≠ h) : ∀ b ∈ blocks', b ∈ blocks := by
  -- The header of the outer loop comes before that of the inner one.
  have outside : h ∉ blocks' :=
    loop'.not_mem_of_before_header flow other.symm (loop.dominates flow headerInside)
  have inward : ∀ b, b ∈ f.blockIds → (b = h' ∨ Reach f.preds (fun c => c ∈ f.blockIds ∧ c ≠ h') latches' b) → b ∈ blocks := by
    rintro b _ (rfl | reach)
    · exact headerInside
    · induction reach with
      | start isLatch here =>
        obtain ⟨edge, _⟩ := (loop'.isLatch _).mp isLatch
        exact loop.mem_of_mem_preds headerInside other flow (flow.mem_succs_iff.mp edge)
      | step before edge _ ih =>
        have inner := (loop'.isBlock _).mpr ⟨before.holds.1, .inr before⟩
        exact loop.mem_of_mem_preds (ih before.holds.1) (fun same => outside (same ▸ inner)) flow edge
  intro b inner
  obtain ⟨here, way⟩ := (loop'.isBlock b).mp inner
  exact inward b here way

/-- Two loops with a block in common are nested. -/
theorem header_mem_or (flow : f.Connected) {h' : Nat} {latches' blocks' : List Nat} (loop' : IsNatural f h' latches' blocks')
    (inside : b ∈ blocks) (inside' : b ∈ blocks') : h' ∈ blocks ∨ h ∈ blocks' := by
  by_contra neither
  obtain ⟨outside, outside'⟩ := not_or.mp neither
  obtain ⟨_, before⟩ := loop.before_header flow inside (loop'.dominates flow inside') outside
  obtain ⟨other, before'⟩ := loop'.before_header flow inside' (loop.dominates flow inside) outside'
  exact other (Function.dominates_antisymm (flow.reachable (loop.mem_blockIds (loop.header_mem flow))) before' before)

end IsNatural

end LoopConflict.Loop
