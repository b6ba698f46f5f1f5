import LoopConflict.Proofs.Loop.Natural
import Mathlib.Data.List.Nodup
import Mathlib.Data.List.Perm.Subperm

/-!
How loops nest. The loops around a loop are its parent and the loops around that (`Above.of_around`), and
in pre-order none of them comes after it (`outermost_first`). So the loops around a block are its innermost
loop and the loops around that one (`containsLoop_of_contains`).
-/
namespace LoopConflict.Loop

open Program (Function)

variable {f : Function} {loops : List Natural} {a b i j k : Nat}

/-! ### Parents -/

/-- The number of blocks of the loop at a position. -/
def sizeAt (loops : List Natural) (i : Nat) : Nat :=
  ((loops[i]?).map (·.blocks.length)).getD 0

/-- The loop at `j` is another one that the header of the loop at `i` belongs to. -/
def Around (loops : List Natural) (j i : Nat) : Prop :=
  j ≠ i ∧ ∃ outer inner, loops[j]? = some outer ∧ loops[i]? = some inner ∧ inner.header ∈ outer.blocks

theorem foldl_smaller (loops : List Natural) (best : Nat) (candidates : List Nat) :
    ∃ k, candidates.foldl (smaller loops) (some best) = some k ∧ (k = best ∨ k ∈ candidates) ∧
      sizeAt loops k ≤ sizeAt loops best ∧ ∀ j ∈ candidates, sizeAt loops k ≤ sizeAt loops j := by
  induction candidates generalizing best with
  | nil => exact ⟨best, rfl, .inl rfl, Nat.le_refl _, by simp⟩
  | cons first rest ih =>
    have step : ∃ next, smaller loops (some best) first = some next ∧ (next = best ∨ next = first) ∧
        sizeAt loops next ≤ sizeAt loops best ∧ sizeAt loops next ≤ sizeAt loops first := by
      change ∃ next, (if sizeAt loops first < sizeAt loops best then some first else some best) = some next ∧ _
      split
      · exact ⟨first, rfl, .inr rfl, by omega, Nat.le_refl _⟩
      · exact ⟨best, rfl, .inl rfl, Nat.le_refl _, by omega⟩
    obtain ⟨next, chosen, origin, leBest, leFirst⟩ := step
    obtain ⟨k, found, member, leNext, least⟩ := ih next
    refine ⟨k, by rw [List.foldl_cons, chosen, found], ?_, by omega, ?_⟩
    · rcases member with rfl | later
      · exact origin.imp_right fun same => by simp [same]
      · exact .inr (List.mem_cons_of_mem _ later)
    · intro j member
      rcases List.mem_cons.mp member with rfl | later
      · omega
      · exact least j later

/-- The parent of a loop is the smallest loop around it. -/
theorem parentOf_cases (loops : List Natural) (i : Nat) :
    (parentOf loops i = none ∧ ∀ j, ¬ Around loops j i) ∨
      ∃ k, parentOf loops i = some k ∧ Around loops k i ∧ ∀ j, Around loops j i → sizeAt loops k ≤ sizeAt loops j := by
  unfold parentOf
  split
  · rename_i outside
    refine .inl ⟨rfl, fun j around => ?_⟩
    obtain ⟨_, _, _, _, found, _⟩ := around
    rw [outside] at found
    cases found
  · rename_i child found
    have isCandidate : ∀ j, j ∈ ((List.range loops.length).filter fun j =>
        j ≠ i && ((loops[j]?).map fun l => decide (child.header ∈ l.blocks)).getD false) ↔ Around loops j i := by
      intro j
      simp only [List.mem_filter, List.mem_range, Bool.and_eq_true, decide_eq_true_eq, Around, found,
        Option.some.injEq]
      constructor
      · rintro ⟨inside, other, contains⟩
        rw [List.getElem?_eq_getElem inside] at contains ⊢
        exact ⟨other, _, child, rfl, rfl, by simpa using contains⟩
      · rintro ⟨other, outer, _, there, rfl, contains⟩
        exact ⟨(List.getElem?_eq_some_iff.mp there).1, other, by simpa [there] using contains⟩
    generalize ((List.range loops.length).filter _) = candidates at isCandidate ⊢
    cases candidates with
    | nil => exact .inl ⟨rfl, fun j around => by simpa using (isCandidate j).mpr around⟩
    | cons first rest =>
      obtain ⟨k, chosen, member, leFirst, least⟩ := foldl_smaller loops first rest
      refine .inr ⟨k, chosen, (isCandidate k).mp (List.mem_cons.mpr member), fun j around => ?_⟩
      rcases List.mem_cons.mp ((isCandidate j).mpr around) with rfl | later
      · exact leFirst
      · exact least j later

theorem around_of_parentOf (parent : parentOf loops i = some k) : Around loops k i := by
  rcases parentOf_cases loops i with ⟨none, _⟩ | ⟨_, found, around, _⟩
  · rw [parent] at none
    cases none
  · rw [parent] at found
    cases found
    exact around

/-! ### The loops of a function -/

theorem isNatural_of_getElem? {x : Natural} (found : (naturalLoops f)[i]? = some x) :
    IsNatural f x.header x.latches x.blocks :=
  isNatural_of_mem_naturalLoops (List.mem_of_getElem? found)

theorem nodup_blocks {x : Natural} (found : (naturalLoops f)[i]? = some x) : x.blocks.Nodup := by
  obtain ⟨h, _, rfl⟩ := List.mem_map.mp (List.mem_of_getElem? found)
  exact (Function.nodup_blockIds f).filter _

theorem headers_naturalLoops (f : Function) :
    (naturalLoops f).map (·.header) = f.blockIds.filter fun h => (backEdges f).any (·.2 == h) := by
  rw [naturalLoops, List.map_map]
  exact List.map_id _

/-- A loop is known by its header. -/
theorem eq_of_header_eq {x y : Natural} (first : (naturalLoops f)[i]? = some x) (second : (naturalLoops f)[j]? = some y)
    (same : x.header = y.header) : i = j := by
  have distinct : ((naturalLoops f).map (·.header)).Nodup :=
    headers_naturalLoops f ▸ (Function.nodup_blockIds f).filter _
  refine (List.getElem?_inj ?_ distinct).mp ?_
  · rw [List.length_map]
    exact (List.getElem?_eq_some_iff.mp first).1
  · rw [List.getElem?_map, List.getElem?_map, first, second]
    simp [same]

theorem Around.header_mem {x y : Natural} (around : Around loops j i) (here : loops[i]? = some x)
    (there : loops[j]? = some y) : x.header ∈ y.blocks := by
  obtain ⟨_, outer, inner, there', here', contains⟩ := around
  obtain rfl : outer = y := Option.some.inj (there'.symm.trans there)
  obtain rfl : inner = x := Option.some.inj (here'.symm.trans here)
  exact contains

section

variable {x y : Natural} (flow : f.Connected) (around : Around (naturalLoops f) j i)
  (here : (naturalLoops f)[i]? = some x) (there : (naturalLoops f)[j]? = some y)
include flow around here there

/-- A loop has all blocks of those it is around. -/
theorem Around.subset : x.blocks ⊆ y.blocks := by
  have contains := around.header_mem here there
  have other : x.header ≠ y.header := fun same => around.1 (eq_of_header_eq there here same.symm)
  exact (isNatural_of_getElem? there).subset flow (isNatural_of_getElem? here) contains other

/-- The header of a loop is in none of those it is around. -/
theorem Around.header_not_mem : y.header ∉ x.blocks := by
  have dominates := (isNatural_of_getElem? there).dominates flow (around.header_mem here there)
  have other : y.header ≠ x.header := fun same => around.1 (eq_of_header_eq there here same)
  exact (isNatural_of_getElem? here).not_mem_of_before_header flow other dominates

end

/-- A loop is larger than those it is around. -/
theorem Around.sizeAt_lt (flow : f.Connected) (around : Around (naturalLoops f) j i) :
    sizeAt (naturalLoops f) i < sizeAt (naturalLoops f) j := by
  have ⟨_, outer, inner, there, here, _⟩ := around
  -- The header of the outer loop is a block more than those of the inner one.
  have distinct : (outer.header :: inner.blocks).Nodup :=
    List.nodup_cons.mpr ⟨around.header_not_mem flow here there, nodup_blocks here⟩
  have all : outer.header :: inner.blocks ⊆ outer.blocks :=
    List.cons_subset.mpr ⟨(isNatural_of_getElem? there).header_mem flow, around.subset flow here there⟩
  have more := (distinct.subperm all).length_le
  simp only [sizeAt, there, here, Option.map_some, Option.getD_some]
  exact more

/-- Two loops around a third one are nested. -/
theorem around_parent (flow : f.Connected) (around : Around (naturalLoops f) j i)
    (parent : parentOf (naturalLoops f) i = some k) : j = k ∨ Around (naturalLoops f) j k := by
  rw [or_iff_not_imp_left]
  intro other
  have aroundParent := around_of_parentOf parent
  have least : sizeAt (naturalLoops f) k ≤ sizeAt (naturalLoops f) j := by
    rcases parentOf_cases (naturalLoops f) i with ⟨none, _⟩ | ⟨_, found, _, least⟩
    · rw [parent] at none
      cases none
    · rw [parent] at found
      cases found
      exact least j around
  obtain ⟨_, x, inner, foundJ, foundI, insideJ⟩ := around
  have ⟨_, y, _, foundK, _⟩ := aroundParent
  have insideK := aroundParent.header_mem foundI foundK
  rcases (isNatural_of_getElem? foundJ).header_mem_or flow (isNatural_of_getElem? foundK) insideJ insideK with inJ | inK
  · exact ⟨other, x, y, foundJ, foundK, inJ⟩
  · have smaller := Around.sizeAt_lt flow ⟨Ne.symm other, y, x, foundK, foundJ, inK⟩
    omega

/-! ### Ancestors -/

/-- The loop at `a` is the one at `i` or one of its ancestors. -/
inductive Above (loops : List Natural) (a : Nat) : Nat → Prop where
  | refl : Above loops a a
  | step {i k : Nat} : parentOf loops i = some k → Above loops a k → Above loops a i

namespace Above

theorem trans (first : Above loops a b) (second : Above loops b i) : Above loops a i := by
  induction second with
  | refl => exact first
  | step parent _ ih => exact .step parent ih

/-- Ancestors of one loop are ancestors of one another. -/
theorem total (first : Above loops a i) (second : Above loops b i) : Above loops a b ∨ Above loops b a := by
  induction first with
  | refl => exact .inr second
  | step parent above ih =>
    cases second with
    | refl => exact .inl (.step parent above)
    | step parent' above' =>
      rw [parent] at parent'
      cases parent'
      exact ih above'

theorem sizeAt_le (flow : f.Connected) (above : Above (naturalLoops f) a i) :
    sizeAt (naturalLoops f) i ≤ sizeAt (naturalLoops f) a := by
  induction above with
  | refl => exact Nat.le_refl _
  | step parent _ ih =>
    have := (around_of_parentOf parent).sizeAt_lt flow
    omega

/-- No loop is its own ancestor. -/
theorem not_parent (flow : f.Connected) (above : Above (naturalLoops f) a i)
    (parent : parentOf (naturalLoops f) a = some i) : False := by
  have := above.sizeAt_le flow
  have := (around_of_parentOf parent).sizeAt_lt flow
  omega

/-- The loops around a loop are its ancestors. -/
theorem of_around (flow : f.Connected) {j i : Nat} (around : Around (naturalLoops f) j i) :
    Above (naturalLoops f) j i := by
  rcases parentOf_cases (naturalLoops f) i with ⟨_, none⟩ | ⟨k, parent, aroundK, _⟩
  · exact absurd around (none j)
  · refine .step parent ?_
    rcases around_parent flow around parent with rfl | further
    · exact .refl
    · have := further.sizeAt_lt flow
      have := aroundK.sizeAt_lt flow
      exact of_around flow further
termination_by sizeAt (naturalLoops f) j - sizeAt (naturalLoops f) i

end Above

section

variable {x y : Natural} (flow : f.Connected) (here : (naturalLoops f)[i]? = some x)
  (there : (naturalLoops f)[j]? = some y)
include flow here there

theorem Above.subset (above : Above (naturalLoops f) j i) : x.blocks ⊆ y.blocks := by
  induction above generalizing x with
  | refl =>
    obtain rfl : x = y := Option.some.inj (here.symm.trans there)
    exact List.Subset.refl _
  | step parent _ ih =>
    have around := around_of_parentOf parent
    have ⟨_, z, _, between, _⟩ := around
    exact List.Subset.trans (around.subset flow here between) (ih between)

/-- The loop and its ancestors are the loops that its header belongs to. -/
theorem above_iff_header_mem : Above (naturalLoops f) j i ↔ x.header ∈ y.blocks := by
  constructor
  · intro above
    exact above.subset flow here there ((isNatural_of_getElem? here).header_mem flow)
  · intro inside
    by_cases same : j = i
    · exact same ▸ .refl
    · exact .of_around flow ⟨same, y, x, there, here, inside⟩

end

/-! ### Pre-order -/

/-- The loops whose parent is the given one. -/
def childrenOf (loops : List Natural) (i : Nat) : List Nat :=
  (List.range loops.length).filter fun j => parentOf loops j == some i

/-- The loops in pre-order, each with its depth. -/
def orderOf (loops : List Natural) : List (Nat × Nat) :=
  ((List.range loops.length).filter fun i => (parentOf loops i).isNone).flatMap
    (preorder (childrenOf loops) loops.length 1)

theorem parentOf_of_mem_childrenOf (member : j ∈ childrenOf loops i) : parentOf loops j = some i ∧ j < loops.length := by
  simpa [childrenOf, and_comm] using member

theorem above_of_mem_preorder {fuel depth : Nat} {p : Nat × Nat}
    (member : p ∈ preorder (childrenOf loops) fuel depth i) : Above loops i p.1 := by
  induction fuel generalizing depth i with
  | zero => cases member
  | succ fuel ih =>
    rcases List.mem_cons.mp member with rfl | later
    · exact .refl
    · obtain ⟨c, child, inside⟩ := List.mem_flatMap.mp later
      exact (Above.step (parentOf_of_mem_childrenOf child).1 .refl).trans (ih inside)

theorem lt_length_of_mem_preorder {fuel depth : Nat} {p : Nat × Nat} (inside : i < loops.length)
    (member : p ∈ preorder (childrenOf loops) fuel depth i) : p.1 < loops.length := by
  induction fuel generalizing depth i with
  | zero => cases member
  | succ fuel ih =>
    rcases List.mem_cons.mp member with rfl | later
    · exact inside
    · obtain ⟨c, child, below⟩ := List.mem_flatMap.mp later
      exact ih (parentOf_of_mem_childrenOf child).2 below

/-- With a loop its parent is listed, up to where the list starts. -/
theorem parent_mem_preorder {fuel depth : Nat} {p : Nat × Nat}
    (member : p ∈ preorder (childrenOf loops) fuel depth i) (parent : parentOf loops p.1 = some k) :
    p.1 = i ∨ ∃ q ∈ preorder (childrenOf loops) fuel depth i, q.1 = k := by
  induction fuel generalizing depth i with
  | zero => cases member
  | succ fuel ih =>
    rcases List.mem_cons.mp member with rfl | later
    · exact .inl rfl
    · obtain ⟨c, child, inside⟩ := List.mem_flatMap.mp later
      refine .inr ?_
      rcases ih inside with top | ⟨q, below, same⟩
      · rw [top, (parentOf_of_mem_childrenOf child).1] at parent
        exact ⟨(i, depth), List.mem_cons_self, Option.some.inj parent⟩
      · exact ⟨q, List.mem_cons_of_mem _ (List.mem_flatMap.mpr ⟨c, child, below⟩), same⟩

theorem parentOf_of_mem_top (top : i ∈ (List.range loops.length).filter fun i => (parentOf loops i).isNone) :
    parentOf loops i = none := by
  simpa using (List.mem_filter.mp top).2

section

variable {R : Nat → Nat → Prop} (inside : ∀ {i c q : Nat}, parentOf loops c = some i → Above loops c q → R i q)
  (beside : ∀ {c d p q : Nat}, parentOf loops c = parentOf loops d → c < d → Above loops c p → Above loops d q → R p q)
include inside beside

/-- In pre-order a loop is followed by those inside of it and then by those beside it. -/
theorem pairwise_preorder (fuel depth i : Nat) :
    (preorder (childrenOf loops) fuel depth i).Pairwise fun p q => R p.1 q.1 := by
  induction fuel generalizing depth i with
  | zero => exact .nil
  | succ fuel ih =>
    refine List.pairwise_cons.mpr ⟨fun q later => ?_, List.pairwise_flatMap.mpr ⟨fun c _ => ih _ c, ?_⟩⟩
    · obtain ⟨c, child, below⟩ := List.mem_flatMap.mp later
      exact inside (parentOf_of_mem_childrenOf child).1 (above_of_mem_preorder below)
    · have ascending : (childrenOf loops i).Pairwise (· < ·) := List.pairwise_lt_range.filter _
      refine ascending.imp_of_mem fun {c d} child child' before p below q below' => ?_
      have same := (parentOf_of_mem_childrenOf child).1.trans (parentOf_of_mem_childrenOf child').1.symm
      exact beside same before (above_of_mem_preorder below) (above_of_mem_preorder below')

theorem pairwise_order : (orderOf loops).Pairwise fun p q => R p.1 q.1 := by
  refine List.pairwise_flatMap.mpr ⟨fun i _ => pairwise_preorder inside beside _ _ i, ?_⟩
  refine (List.pairwise_lt_range.filter _).imp_of_mem fun {c d} top top' before p below q below' => ?_
  have same := (parentOf_of_mem_top top).trans (parentOf_of_mem_top top').symm
  exact beside same before (above_of_mem_preorder below) (above_of_mem_preorder below')

end

section

variable (flow : f.Connected)
include flow

/-- Of two loops with one parent, or without one, neither is above the other. -/
theorem not_above_of_parentOf_eq (same : parentOf (naturalLoops f) a = parentOf (naturalLoops f) b) (other : a ≠ b) :
    ¬ Above (naturalLoops f) a b := by
  intro above
  cases above with
  | refl => exact other rfl
  | step parent above => exact above.not_parent flow (same.trans parent)

/-- What is below one of two loops with the same parent is not above anything below the other. -/
theorem not_above_of_siblings (same : parentOf (naturalLoops f) a = parentOf (naturalLoops f) b) (other : a ≠ b)
    (first : Above (naturalLoops f) a i) (second : Above (naturalLoops f) b j) : ¬ Above (naturalLoops f) j i := by
  intro above
  rcases first.total (second.trans above) with down | up
  · exact not_above_of_parentOf_eq flow same other down
  · exact not_above_of_parentOf_eq flow same.symm (Ne.symm other) up

/-- In pre-order no loop comes after itself or a loop inside of it. -/
theorem outermost_first : (orderOf (naturalLoops f)).Pairwise fun p q => ¬ Above (naturalLoops f) q.1 p.1 := by
  refine pairwise_order (R := fun p q => ¬ Above (naturalLoops f) q p) ?_ ?_
  · intro i c q parent below above
    exact (below.trans above).not_parent flow parent
  · intro c d p q same before first second
    exact not_above_of_siblings flow same (Nat.ne_of_lt before) first second

end

/-! ### The forest -/

namespace Forest

/-- Where a loop stands in pre-order. -/
def positionOf (f : Function) (i : Nat) : Option LoopId :=
  (orderOf (naturalLoops f)).findIdx? (·.1 == i)

/-- The loop in pre-order at `l` is the one that was found at `i`. -/
def Names (f : Function) (l i : Nat) : Prop :=
  ∃ depth, (orderOf (naturalLoops f))[l]? = some (i, depth)

theorem exists_names {l : LoopId} {x : NaturalLoop} (found : (Forest.ofFunction f).loop? l = some x) :
    ∃ i y, Names f l i ∧ (naturalLoops f)[i]? = some y ∧ x.header = y.header ∧ x.latches = y.latches ∧
      x.blocks = y.blocks ∧ x.parent = (parentOf (naturalLoops f) i).bind (positionOf f) := by
  change ((orderOf (naturalLoops f)).map _)[l]? = some x at found
  rw [List.getElem?_map] at found
  obtain ⟨⟨i, depth⟩, here, rfl⟩ := Option.map_eq_some_iff.mp found
  have listed : i < (naturalLoops f).length := by
    obtain ⟨top, isTop, below⟩ := List.mem_flatMap.mp (List.mem_of_getElem? here)
    exact lt_length_of_mem_preorder (List.mem_range.mp (List.mem_filter.mp isTop).1) below
  refine ⟨i, (naturalLoops f)[i], ⟨depth, here⟩, List.getElem?_eq_getElem listed, ?_⟩
  dsimp only
  rw [List.getElem?_eq_getElem listed, Option.getD_some]
  exact ⟨rfl, rfl, rfl, rfl⟩

theorem exists_loop?_of_names {l i : Nat} (names : Names f l i) : ∃ x, (Forest.ofFunction f).loop? l = some x := by
  obtain ⟨depth, here⟩ := names
  refine Option.isSome_iff_exists.mp ?_
  change ((orderOf (naturalLoops f)).map _)[l]?.isSome = true
  rw [List.getElem?_map, here]
  rfl

/-- Every loop of the forest is a natural loop. -/
theorem isNatural {l : LoopId} {x : NaturalLoop} (found : (Forest.ofFunction f).loop? l = some x) :
    IsNatural f x.header x.latches x.blocks := by
  obtain ⟨i, y, _, here, header, latches, blocks, _⟩ := exists_names found
  rw [header, latches, blocks]
  exact isNatural_of_getElem? here

theorem Names.index_unique {l : Nat} (first : Names f l i) (second : Names f l j) : i = j := by
  obtain ⟨_, here⟩ := first
  obtain ⟨_, here'⟩ := second
  rw [here] at here'
  exact (Prod.mk.inj (Option.some.inj here')).1

theorem contains_iff {F : Forest} {l : LoopId} : F.contains l b = true ↔ ∃ x, F.loop? l = some x ∧ b ∈ x.blocks := by
  cases found : F.loop? l <;> simp [contains, found, NaturalLoop.contains]

/-- The innermost loop of a block is the last one that it belongs to. -/
theorem exists_innermost? {F : Forest} {l : LoopId} (inside : F.contains l b = true) :
    ∃ s, F.innermost? b = some s := by
  obtain ⟨x, found, _⟩ := contains_iff.mp inside
  have member : l ∈ F.ids.filter fun l => F.contains l b :=
    List.mem_filter.mpr ⟨List.mem_range.mpr (List.getElem?_eq_some_iff.mp found).1, inside⟩
  exact ⟨_, List.getLast?_eq_some_getLast (List.ne_nil_of_mem member)⟩

theorem innermost?_eq_some {F : Forest} {s : Nat} (innermost : F.innermost? b = some s) :
    F.contains s b = true ∧ ∀ l : Nat, F.contains l b = true → l ≤ s := by
  obtain ⟨before, split⟩ := List.getLast?_eq_some_iff.mp innermost
  have member : ∀ l : Nat, l ∈ before ++ [s] ↔ l < F.loops.length ∧ F.contains l b = true := by
    intro l
    rw [← split, List.mem_filter, ids, List.mem_range]
  have ascending : (before ++ [s]).Pairwise (· < ·) := split ▸ List.pairwise_lt_range.filter _
  refine ⟨((member s).mp (by simp)).2, fun l contains => ?_⟩
  obtain ⟨x, found, _⟩ := contains_iff.mp contains
  have inside := (List.getElem?_eq_some_iff.mp found).1
  rcases List.mem_append.mp ((member l).mpr ⟨inside, contains⟩) with earlier | same
  · exact Nat.le_of_lt ((List.pairwise_append.mp ascending).2.2 l earlier s (by simp))
  · exact Nat.le_of_eq (List.mem_singleton.mp same)

section

variable {l m : Nat} (flow : f.Connected)
include flow

/-- A loop does not come after those inside of it. -/
theorem Names.le (first : Names f l i) (second : Names f m j) (above : Above (naturalLoops f) i j) : l ≤ m := by
  obtain ⟨_, atL⟩ := first
  obtain ⟨_, atM⟩ := second
  obtain ⟨insideL, hereL⟩ := List.getElem?_eq_some_iff.mp atL
  obtain ⟨insideM, hereM⟩ := List.getElem?_eq_some_iff.mp atM
  by_contra after
  refine List.pairwise_iff_getElem.mp (outermost_first flow) m l insideM insideL (by omega) ?_
  rw [hereL, hereM]
  exact above

theorem Names.unique (first : Names f l i) (second : Names f m i) : l = m :=
  Nat.le_antisymm (first.le flow second .refl) (second.le flow first .refl)

theorem positionOf_eq_some (names : Names f l i) : positionOf f i = some l := by
  have listed : ∃ p ∈ orderOf (naturalLoops f), (p.1 == i) = true := by
    obtain ⟨depth, here⟩ := names
    exact ⟨_, List.mem_of_getElem? here, by simp⟩
  rw [positionOf, List.findIdx?_eq_some_of_exists listed, Option.some.injEq]
  have inside := List.findIdx_lt_length_of_exists listed
  have same := List.findIdx_getElem (w := inside)
  refine Names.unique flow ⟨((orderOf (naturalLoops f)).get ⟨_, inside⟩).2, ?_⟩ names
  rw [List.getElem?_eq_getElem inside, Option.some.injEq]
  exact Prod.ext (beq_iff_eq.mp same) rfl

/-- The parent of a loop comes before it. -/
theorem Names.exists_parent (names : Names f l i) (parent : parentOf (naturalLoops f) i = some k) :
    ∃ m, Names f m k ∧ m < l := by
  obtain ⟨depth, here⟩ := names
  obtain ⟨top, isTop, below⟩ := List.mem_flatMap.mp (List.mem_of_getElem? here)
  rcases parent_mem_preorder below parent with same | ⟨q, member, rfl⟩
  · rw [show i = top from same, parentOf_of_mem_top isTop] at parent
    cases parent
  · have listed : q ∈ orderOf (naturalLoops f) := List.mem_flatMap.mpr ⟨top, isTop, member⟩
    obtain ⟨m, atM⟩ := List.mem_iff_getElem?.mp listed
    have names : Names f m q.1 := ⟨q.2, atM⟩
    have notAfter := names.le flow ⟨depth, here⟩ (.step parent .refl)
    refine ⟨m, names, Nat.lt_of_le_of_ne notAfter ?_⟩
    rintro rfl
    rw [atM] at here
    obtain rfl : q = (i, depth) := Option.some.inj here
    exact Above.refl.not_parent flow parent

theorem parent_eq_some_iff {x : NaturalLoop} (found : (Forest.ofFunction f).loop? l = some x) (names : Names f l i) :
    x.parent = some m ↔ ∃ k, parentOf (naturalLoops f) i = some k ∧ Names f m k := by
  obtain ⟨i', _, names', _, _, _, _, isParent⟩ := exists_names found
  obtain rfl := names.index_unique names'
  rw [isParent, Option.bind_eq_some_iff]
  constructor
  · rintro ⟨k, parent, position⟩
    obtain ⟨n, named, _⟩ := names.exists_parent flow parent
    rw [positionOf_eq_some flow named, Option.some.injEq] at position
    exact ⟨k, parent, position ▸ named⟩
  · rintro ⟨k, parent, named⟩
    exact ⟨k, parent, positionOf_eq_some flow named⟩

/-- The ancestors of a loop are found by going from parent to parent. -/
theorem mem_ancestorsWithin (first : Names f l i) (second : Names f m j) (above : Above (naturalLoops f) i j)
    {fuel : Nat} (enough : m ≤ fuel) : l ∈ (Forest.ofFunction f).ancestorsWithin fuel m := by
  induction above generalizing m fuel with
  | refl =>
    obtain rfl := first.unique flow second
    cases fuel <;> simp [ancestorsWithin]
  | @step j k parent _ ih =>
    obtain ⟨n, names, before⟩ := second.exists_parent flow parent
    cases fuel with
    | zero => omega
    | succ fuel =>
      obtain ⟨x, found⟩ := exists_loop?_of_names second
      have isParent := (parent_eq_some_iff flow found second).mpr ⟨k, parent, names⟩
      simp only [ancestorsWithin, found, Option.bind_some, isParent]
      exact List.mem_cons_of_mem _ (ih names (by omega))

/-- The loops that a block belongs to are its innermost loop and the ancestors of that. -/
theorem containsLoop_of_contains {s : Nat} (contains : (Forest.ofFunction f).contains l b = true)
    (innermost : (Forest.ofFunction f).innermost? b = some s) : (Forest.ofFunction f).containsLoop l s = true := by
  obtain ⟨containsS, last⟩ := innermost?_eq_some innermost
  obtain ⟨x, foundL, insideL⟩ := contains_iff.mp contains
  obtain ⟨y, foundS, insideS⟩ := contains_iff.mp containsS
  obtain ⟨i, x', namesL, naturalL, _, _, blocksL, _⟩ := exists_names foundL
  obtain ⟨j, y', namesS, naturalS, _, _, blocksS, _⟩ := exists_names foundS
  rw [blocksL] at insideL
  rw [blocksS] at insideS
  -- Of the two loops the later one is inside of the other.
  have above : Above (naturalLoops f) i j := by
    by_cases same : i = j
    · exact same ▸ .refl
    · rcases (isNatural_of_getElem? naturalL).header_mem_or flow (isNatural_of_getElem? naturalS) insideL insideS with
        inL | inS
      · exact .of_around flow ⟨same, x', y', naturalL, naturalS, inL⟩
      · have before := namesS.le flow namesL (.of_around flow ⟨Ne.symm same, y', x', naturalS, naturalL, inS⟩)
        obtain rfl : l = s := Nat.le_antisymm (last l contains) before
        exact absurd (namesL.index_unique namesS) same
  have inside := (List.getElem?_eq_some_iff.mp foundS).1
  exact decide_eq_true (mem_ancestorsWithin flow namesL namesS above (Nat.le_of_lt inside))

theorem innermost?_header {x : NaturalLoop} (found : (Forest.ofFunction f).loop? l = some x) :
    (Forest.ofFunction f).innermost? x.header = some l := by
  have header := contains_iff.mpr ⟨x, found, (isNatural found).header_mem flow⟩
  obtain ⟨s, innermost⟩ := exists_innermost? header
  obtain ⟨containsS, last⟩ := innermost?_eq_some innermost
  obtain ⟨y, foundS, insideS⟩ := contains_iff.mp containsS
  obtain ⟨i, x', namesL, naturalL, headerL, _, _, _⟩ := exists_names found
  obtain ⟨j, y', namesS, naturalS, _, _, blocksS, _⟩ := exists_names foundS
  rw [innermost, Option.some.injEq]
  by_cases same : j = i
  · exact (same ▸ namesS).unique flow namesL
  · rw [headerL, blocksS] at insideS
    have before := namesS.le flow namesL (.of_around flow ⟨same, y', x', naturalS, naturalL, insideS⟩)
    exact Nat.le_antisymm before (last l header)

theorem parent_lt {x : NaturalLoop} {p : Nat} (found : (Forest.ofFunction f).loop? l = some x)
    (parent : x.parent = some p) : p < l := by
  obtain ⟨i, _, names, _⟩ := exists_names found
  obtain ⟨k, up, named⟩ := (parent_eq_some_iff flow found names).mp parent
  obtain ⟨m, named', before⟩ := names.exists_parent flow up
  exact named.unique flow named' ▸ before

end

theorem mem_ancestorsWithin_succ {F : Forest} {fuel : Nat} {l m : LoopId} (member : m ∈ F.ancestorsWithin fuel l) :
    m ∈ F.ancestorsWithin (fuel + 1) l := by
  induction fuel generalizing l with
  | zero =>
    rw [ancestorsWithin, List.mem_singleton] at member
    rw [member, ancestorsWithin]
    exact List.mem_cons_self
  | succ fuel ih =>
    rw [ancestorsWithin, List.mem_cons] at member ⊢
    refine member.imp_right fun further => ?_
    split at further
    · exact ih further
    · cases further

/-- A loop around another one is around its parent. -/
theorem exists_parent {F : Forest} {l m : LoopId} {x : NaturalLoop} (found : F.loop? l = some x) (around : F.containsLoop m l = true)
    (other : m ≠ l) : ∃ p, x.parent = some p ∧ F.containsLoop m p = true := by
  have member : m ∈ F.ancestorsWithin F.loops.length l := of_decide_eq_true around
  cases fuel : F.loops.length with
  | zero =>
    rw [fuel, ancestorsWithin, List.mem_singleton] at member
    exact absurd member other
  | succ n =>
    rw [fuel, ancestorsWithin, List.mem_cons, found, Option.bind_some] at member
    have further := member.resolve_left other
    cases parent : x.parent with
    | none =>
      rw [parent] at further
      cases further
    | some p =>
      rw [parent] at further
      refine ⟨p, rfl, decide_eq_true ?_⟩
      rw [ancestors, fuel]
      exact mem_ancestorsWithin_succ further

/-- The loops are those of a well-formed function. -/
structure Lawful (F : Forest) : Prop where
  function : F.function.WellFormed
  natural {l : LoopId} {x : NaturalLoop} : F.loop? l = some x → IsNatural F.function x.header x.latches x.blocks
  nested {l s : LoopId} {b : Nat} : F.contains l b = true → F.innermost? b = some s → F.containsLoop l s = true
  headed {l : LoopId} {x : NaturalLoop} : F.loop? l = some x → F.innermost? x.header = some l
  ordered {l p : Nat} {x : NaturalLoop} : F.loop? l = some x → x.parent = some p → p < l

theorem lawful_ofFunction (wf : f.WellFormed) : (Forest.ofFunction f).Lawful :=
  ⟨wf, isNatural, containsLoop_of_contains wf.connected, innermost?_header wf.connected, parent_lt wf.connected⟩

namespace Lawful

variable {F : Forest} (lawful : F.Lawful)
include lawful

theorem le_of_mem_ancestorsWithin {fuel l m : Nat} (member : m ∈ F.ancestorsWithin fuel l) : m ≤ l := by
  induction fuel generalizing l with
  | zero => simp_all [ancestorsWithin]
  | succ fuel ih =>
    rw [ancestorsWithin, List.mem_cons] at member
    rcases member with rfl | further
    · exact Nat.le_refl _
    · split at further
      · rename_i p parent
        obtain ⟨x, found, isParent⟩ := Option.bind_eq_some_iff.mp parent
        exact (ih further).trans (Nat.le_of_lt (lawful.ordered found isParent))
      · cases further

/-- A loop is not around its parent. -/
theorem containsLoop_parent {l p : Nat} {x : NaturalLoop} (found : F.loop? l = some x) (parent : x.parent = some p) :
    F.containsLoop l p = false := by
  refine decide_eq_false fun member => ?_
  have := lawful.le_of_mem_ancestorsWithin member
  have := lawful.ordered found parent
  omega

end Lawful

end Forest

end LoopConflict.Loop
