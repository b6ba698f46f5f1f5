import LoopConflict.Proofs.Loop.Preorder
import Mathlib.Data.Finset.Card

/-!
The loops of a function as sets of blocks. Going from parent to parent is going from a set of blocks to
the sets that include it (`above_iff_subset`, `containsLoop_iff_above`), and two sets that overlap are
nested (`disjoint_or_above`). So the parent of a loop is the smallest set around its own
(`parent_eq_some_iff_smallest`).
-/
namespace LoopConflict.Loop

open Program (Function)

variable {f : Function} {i j k : Nat}

section

variable {x y : Natural} (flow : f.Connected) (here : (naturalLoops f)[i]? = some x)
  (there : (naturalLoops f)[j]? = some y)
include flow here there

theorem above_iff_subset : Above (naturalLoops f) j i ↔ x.blocks ⊆ y.blocks := by
  constructor
  · exact Above.subset flow here there
  · intro all
    exact (above_iff_header_mem flow here there).mpr (all ((isNatural_of_getElem? here).header_mem flow))

theorem around_iff_ssubset : Around (naturalLoops f) j i ↔ x.blocks ⊆ y.blocks ∧ ¬ y.blocks ⊆ x.blocks := by
  constructor
  · intro around
    refine ⟨around.subset flow here there, fun all => around.header_not_mem flow here there ?_⟩
    exact all ((isNatural_of_getElem? there).header_mem flow)
  · rintro ⟨all, more⟩
    refine ⟨?_, y, x, there, here, all ((isNatural_of_getElem? here).header_mem flow)⟩
    rintro rfl
    obtain rfl : x = y := Option.some.inj (here.symm.trans there)
    exact more all

/-- Of two loops with a block in common one is above the other. -/
theorem disjoint_or_above :
    x.blocks.Disjoint y.blocks ∨ Above (naturalLoops f) j i ∨ Above (naturalLoops f) i j := by
  rw [or_iff_not_imp_left, above_iff_header_mem flow here there, above_iff_header_mem flow there here]
  intro overlap
  obtain ⟨b, inX, inY⟩ : ∃ b, b ∈ x.blocks ∧ b ∈ y.blocks := by
    simpa [List.Disjoint] using overlap
  exact ((isNatural_of_getElem? here).header_mem_or flow (isNatural_of_getElem? there) inX inY).symm

end

/-- No other loop around a loop is as small as its parent. -/
theorem eq_parent_of_sizeAt_le (flow : f.Connected) (parent : parentOf (naturalLoops f) i = some k)
    (around : Around (naturalLoops f) j i) (small : sizeAt (naturalLoops f) j ≤ sizeAt (naturalLoops f) k) : j = k := by
  rcases around_parent flow around parent with same | further
  · exact same
  · have := further.sizeAt_lt flow
    omega

/-- The blocks of a loop as a set. -/
def NaturalLoop.extent (x : NaturalLoop) : Finset Nat :=
  x.blocks.toFinset

namespace Forest

variable {l m : LoopId} {x y : NaturalLoop}

theorem extent_subset_iff : x.extent ⊆ y.extent ↔ x.blocks ⊆ y.blocks := by
  simp [NaturalLoop.extent, Finset.subset_iff, List.subset_def]

theorem extent_ssubset_iff : x.extent ⊂ y.extent ↔ x.blocks ⊆ y.blocks ∧ ¬ y.blocks ⊆ x.blocks := by
  rw [Finset.ssubset_def, extent_subset_iff, extent_subset_iff]

theorem disjoint_extent_iff : Disjoint x.extent y.extent ↔ x.blocks.Disjoint y.blocks :=
  List.disjoint_toFinset_iff_disjoint

theorem card_extent (found : (Forest.ofFunction f).loop? l = some x) (names : Names f l i) :
    x.extent.card = sizeAt (naturalLoops f) i := by
  obtain ⟨i', x', names', here, _, _, blocks, _⟩ := exists_names found
  obtain rfl := names.index_unique names'
  rw [NaturalLoop.extent, blocks, List.toFinset_card_of_nodup (nodup_blocks here), sizeAt, here]
  rfl

/-- How the loops of a forest lie in each other. -/
structure Nested (F : Forest) : Prop where
  natural {l : LoopId} {x : NaturalLoop} : F.loop? l = some x → IsNatural F.function x.header x.latches x.blocks
  /-- Every block that a back edge leads to is the header of a loop. -/
  headed {b h : Nat} : h ∈ F.function.succs b → some h ≠ F.function.recover → F.function.dominates h b = true →
    ∃ l x, F.loop? l = some x ∧ x.header = h
  /-- Loops are known by their headers. -/
  header_ne {l m : LoopId} {x y : NaturalLoop} : F.loop? l = some x → F.loop? m = some y → l ≠ m →
    x.header ≠ y.header
  /-- Two loops have no block in common, or one has all blocks of the other and more. -/
  apart_or_inside {l m : LoopId} {x y : NaturalLoop} : F.loop? l = some x → F.loop? m = some y → l ≠ m →
    Disjoint x.extent y.extent ∨ x.extent ⊂ y.extent ∨ y.extent ⊂ x.extent
  /-- The parent of a loop is around it, and no other loop around it is as small. -/
  parent_eq_some {l p : LoopId} {x : NaturalLoop} : F.loop? l = some x → (x.parent = some p ↔
    ∃ y, F.loop? p = some y ∧ x.extent ⊂ y.extent ∧ ∀ m z, F.loop? m = some z → x.extent ⊂ z.extent →
      z.extent.card ≤ y.extent.card → m = p)
  parent_eq_none {l : LoopId} {x : NaturalLoop} : F.loop? l = some x → (x.parent = none ↔
    ∀ m y, F.loop? m = some y → ¬ x.extent ⊂ y.extent)
  containsLoop {l m : LoopId} {x y : NaturalLoop} : F.loop? l = some x → F.loop? m = some y →
    (F.containsLoop l m = true ↔ y.extent ⊆ x.extent)

section

variable (flow : f.Connected)
include flow

theorem exists_names_of_lt (inside : i < (naturalLoops f).length) : ∃ l, Names f l i := by
  obtain ⟨p, member, rfl⟩ := exists_mem_order flow inside
  obtain ⟨l, here⟩ := List.mem_iff_getElem?.mp member
  exact ⟨l, p.2, here⟩

theorem exists_loop?_of_mem_backEdges {b h : Nat} (isBack : (b, h) ∈ backEdges f) :
    ∃ l x, (Forest.ofFunction f).loop? l = some x ∧ x.header = h := by
  have inside := flow.mem_blockIds_of_succ (mem_backEdges.mp isBack).1
  have isHeader : h ∈ (naturalLoops f).map (·.header) := by
    rw [headers_naturalLoops, List.mem_filter, List.any_eq_true]
    exact ⟨inside, (b, h), isBack, by simp⟩
  obtain ⟨y, member, rfl⟩ := List.mem_map.mp isHeader
  obtain ⟨i, here⟩ := List.mem_iff_getElem?.mp member
  obtain ⟨l, names⟩ := exists_names_of_lt flow (List.getElem?_eq_some_iff.mp here).1
  obtain ⟨x, found⟩ := exists_loop?_of_names names
  obtain ⟨i', y', names', here', header, _⟩ := exists_names found
  obtain rfl := names.index_unique names'
  obtain rfl : y = y' := Option.some.inj (here.symm.trans here')
  exact ⟨l, x, found, header⟩

theorem above_of_mem_ancestorsWithin {fuel : Nat} (first : Names f l i) (second : Names f m j)
    (member : l ∈ (Forest.ofFunction f).ancestorsWithin fuel m) : Above (naturalLoops f) i j := by
  induction fuel generalizing m j with
  | zero =>
    obtain rfl : l = m := by simpa [ancestorsWithin] using member
    exact first.index_unique second ▸ .refl
  | succ fuel ih =>
    rw [ancestorsWithin, List.mem_cons] at member
    rcases member with rfl | further
    · exact first.index_unique second ▸ .refl
    · split at further
      · rename_i p isParent
        obtain ⟨x, found, isParent⟩ := Option.bind_eq_some_iff.mp isParent
        obtain ⟨k, parent, named⟩ := (parent_eq_some_iff flow found second).mp isParent
        exact .step parent (ih named further)
      · cases further

theorem containsLoop_iff_above (first : Names f l i) (second : Names f m j) :
    (Forest.ofFunction f).containsLoop l m = true ↔ Above (naturalLoops f) i j := by
  rw [containsLoop, ancestors, decide_eq_true_iff]
  constructor
  · exact above_of_mem_ancestorsWithin flow first second
  · intro above
    obtain ⟨x, found⟩ := exists_loop?_of_names second
    have inside := (List.getElem?_eq_some_iff.mp found).1
    exact mem_ancestorsWithin flow first second above (Nat.le_of_lt inside)

/-- Inclusion of blocks is being around. -/
theorem around_iff_extent_ssubset (outer : (Forest.ofFunction f).loop? l = some x) (first : Names f l i)
    (inner : (Forest.ofFunction f).loop? m = some y) (second : Names f m j) :
    Around (naturalLoops f) i j ↔ y.extent ⊂ x.extent := by
  obtain ⟨i', x', first', there, _, _, blocksX, _⟩ := exists_names outer
  obtain ⟨j', y', second', here, _, _, blocksY, _⟩ := exists_names inner
  obtain rfl := first.index_unique first'
  obtain rfl := second.index_unique second'
  rw [extent_ssubset_iff, blocksX, blocksY]
  exact around_iff_ssubset flow here there

theorem containsLoop_iff_subset (outer : (Forest.ofFunction f).loop? l = some x)
    (inner : (Forest.ofFunction f).loop? m = some y) :
    (Forest.ofFunction f).containsLoop l m = true ↔ y.extent ⊆ x.extent := by
  obtain ⟨i, x', first, there, _, _, blocksX, _⟩ := exists_names outer
  obtain ⟨j, y', second, here, _, _, blocksY, _⟩ := exists_names inner
  rw [containsLoop_iff_above flow first second, extent_subset_iff, blocksX, blocksY]
  exact above_iff_subset flow here there

theorem header_ne (first : (Forest.ofFunction f).loop? l = some x) (second : (Forest.ofFunction f).loop? m = some y)
    (other : l ≠ m) : x.header ≠ y.header := by
  intro same
  have innermost := innermost?_header flow first
  rw [same, innermost?_header flow second, Option.some.injEq] at innermost
  exact other innermost.symm

theorem apart_or_inside (first : (Forest.ofFunction f).loop? l = some x)
    (second : (Forest.ofFunction f).loop? m = some y) (other : l ≠ m) :
    Disjoint x.extent y.extent ∨ x.extent ⊂ y.extent ∨ y.extent ⊂ x.extent := by
  obtain ⟨i, x', namesX, here, _, _, blocksX, _⟩ := exists_names first
  obtain ⟨j, y', namesY, there, _, _, blocksY, _⟩ := exists_names second
  have apart : i ≠ j := by
    rintro rfl
    exact other (namesX.unique flow namesY)
  rw [disjoint_extent_iff, blocksX, blocksY, ← around_iff_extent_ssubset flow first namesX second namesY,
    ← around_iff_extent_ssubset flow second namesY first namesX]
  refine (disjoint_or_above flow here there).imp_right (Or.imp ?_ ?_)
  · intro above
    exact ⟨Ne.symm apart, y', x', there, here, (above_iff_header_mem flow here there).mp above⟩
  · intro above
    exact ⟨apart, x', y', here, there, (above_iff_header_mem flow there here).mp above⟩

theorem parent_eq_some_iff_smallest (found : (Forest.ofFunction f).loop? l = some x) {p : LoopId} : x.parent = some p ↔
    ∃ y, (Forest.ofFunction f).loop? p = some y ∧ x.extent ⊂ y.extent ∧
      ∀ m z, (Forest.ofFunction f).loop? m = some z → x.extent ⊂ z.extent → z.extent.card ≤ y.extent.card → m = p := by
  obtain ⟨i, _, names, _⟩ := exists_names found
  rw [parent_eq_some_iff flow found names]
  constructor
  · rintro ⟨k, parent, named⟩
    obtain ⟨y, foundP⟩ := exists_loop?_of_names named
    have around := around_iff_extent_ssubset flow foundP named found names
    refine ⟨y, foundP, around.mp (around_of_parentOf parent), fun m z foundM larger small => ?_⟩
    obtain ⟨j, _, namesM, _⟩ := exists_names foundM
    rw [card_extent foundM namesM, card_extent foundP named] at small
    rw [← around_iff_extent_ssubset flow foundM namesM found names] at larger
    obtain rfl := eq_parent_of_sizeAt_le flow parent larger small
    exact namesM.unique flow named
  · rintro ⟨y, foundP, larger, unique⟩
    obtain ⟨k, _, named, _⟩ := exists_names foundP
    rw [← around_iff_extent_ssubset flow foundP named found names] at larger
    rcases parentOf_cases (naturalLoops f) i with ⟨_, none⟩ | ⟨k', parent, around, least⟩
    · exact absurd larger (none k)
    · obtain ⟨m, namesM, _⟩ := names.exists_parent flow parent
      obtain ⟨z, foundM⟩ := exists_loop?_of_names namesM
      have small : z.extent.card ≤ y.extent.card := by
        rw [card_extent foundM namesM, card_extent foundP named]
        exact least k larger
      have same := unique m z foundM ((around_iff_extent_ssubset flow foundM namesM found names).mp around) small
      exact ⟨k', parent, same ▸ namesM⟩

theorem parent_eq_none_iff (found : (Forest.ofFunction f).loop? l = some x) : x.parent = none ↔
    ∀ m y, (Forest.ofFunction f).loop? m = some y → ¬ x.extent ⊂ y.extent := by
  obtain ⟨i, _, names, _⟩ := exists_names found
  constructor
  · intro top m y foundM larger
    obtain ⟨j, _, namesM, _⟩ := exists_names foundM
    rw [← around_iff_extent_ssubset flow foundM namesM found names] at larger
    rcases parentOf_cases (naturalLoops f) i with ⟨_, none⟩ | ⟨k, parent, _⟩
    · exact none j larger
    · obtain ⟨p, named, _⟩ := names.exists_parent flow parent
      have isParent := (parent_eq_some_iff flow found names).mpr ⟨k, parent, named⟩
      rw [top] at isParent
      cases isParent
  · intro none
    rw [Option.eq_none_iff_forall_ne_some]
    intro p parent
    obtain ⟨y, foundP, larger, _⟩ := (parent_eq_some_iff_smallest flow found).mp parent
    exact none p y foundP larger

end

/-- Loops lie in each other as their parents say. -/
theorem nested_ofFunction (flow : f.Connected) : (Forest.ofFunction f).Nested where
  natural := isNatural
  headed edge resumes dominates := exists_loop?_of_mem_backEdges flow (mem_backEdges.mpr ⟨edge, resumes, dominates⟩)
  header_ne := header_ne flow
  apart_or_inside := apart_or_inside flow
  parent_eq_some found := parent_eq_some_iff_smallest flow found
  parent_eq_none := parent_eq_none_iff flow
  containsLoop := containsLoop_iff_subset flow

/-- Two loops inside of one with a lower header, and one after it whose header is between theirs. -/
def nest : Function where
  name := "nest"
  receiver := none
  types := []
  params := [⟨"more", .basic .bool, 0⟩]
  free := []
  globals := []
  constants := []
  blocks := [
    ⟨"entry", [], [1], [⟨.jump, none, 0⟩]⟩,
    ⟨"for.loop", [0, 2], [5, 3], [⟨.branch (.param 0), none, 0⟩]⟩,
    ⟨"for.body", [5, 2], [2, 1], [⟨.branch (.param 0), none, 0⟩]⟩,
    ⟨"for.done", [1, 3], [3, 4], [⟨.branch (.param 0), none, 0⟩]⟩,
    ⟨"for.done", [3], [], [⟨.leave [], none, 0⟩]⟩,
    ⟨"for.body", [1, 5], [5, 2], [⟨.branch (.param 0), none, 0⟩]⟩,
    ⟨"recover", [], [], [⟨.leave [], none, 0⟩]⟩]
  recover := some 6

theorem nest_connected : nest.Connected :=
  ⟨by decide +kernel, by decide +kernel⟩

theorem nest_parents : nest.Connected ∧ (Forest.ofFunction nest).Nested ∧
    (Forest.ofFunction nest).loops.map (fun x => (x.header, x.parent, x.blocks)) =
      [(1, none, [1, 2, 5]), (2, some 0, [2]), (5, some 0, [5]), (3, none, [3])] :=
  ⟨nest_connected, nested_ofFunction nest_connected, by decide +kernel⟩

end Forest

end LoopConflict.Loop
