import LoopConflict.Proofs.Loop.Containment
import Mathlib.Data.List.Sort

/-!
The numbers of loops and the loops of blocks. Numbers follow the pre-order, so a loop comes right before
those inside of it (`contiguous`) and loops with one parent are numbered by their headers
(`lt_iff_header_lt`). The last loop that a block belongs to is the smallest one
(`innermost?_eq_some_iff`), which takes the block from the loops around it (`direct_eq_filter`).
-/
namespace LoopConflict.Loop

open Program (Function)

variable {f : Function} {b i j k : Nat}

theorem header_lt {x y : Natural} (first : (naturalLoops f)[i]? = some x) (second : (naturalLoops f)[j]? = some y)
    (before : i < j) : x.header < y.header := by
  have ascending : ((naturalLoops f).map (·.header)).Pairwise (· < ·) :=
    headers_naturalLoops f ▸ List.pairwise_lt_range.filter _
  obtain ⟨insideX, rfl⟩ := List.getElem?_eq_some_iff.mp first
  obtain ⟨insideY, rfl⟩ := List.getElem?_eq_some_iff.mp second
  exact List.pairwise_iff_getElem.mp (List.pairwise_map.mp ascending) i j insideX insideY before

theorem blocks_eq_filter {x : Natural} (here : (naturalLoops f)[i]? = some x) :
    x.blocks = f.blockIds.filter fun b => b ∈ x.blocks := by
  obtain ⟨h, _, rfl⟩ := List.mem_map.mp (List.mem_of_getElem? here)
  refine List.filter_congr fun b inside => ?_
  simp [naturalLoop, body, inside]

namespace Forest

variable {l m n : Nat} {x y z : NaturalLoop}

/-- How the loops of a forest are numbered, and which of them a block is in. -/
structure Numbered (F : Forest) : Prop where
  /-- No loop is listed twice. -/
  distinct : (F.loops.map (·.header)).Nodup
  /-- The headers are the blocks that a back edge leads to. -/
  listed {h : Nat} : h ∈ F.loops.map (·.header) ↔
    ∃ b, h ∈ F.function.succs b ∧ some h ≠ F.function.recover ∧ F.function.dominates h b = true
  /-- The loops inside of a loop follow it, and nothing stands between them. -/
  contiguous {l n : Nat} {x z : NaturalLoop} : F.loop? l = some x → F.loop? n = some z →
    F.containsLoop l n = true → l ≤ n ∧ ∀ m, l ≤ m → m ≤ n → F.containsLoop l m = true
  siblings {l m : Nat} {x y : NaturalLoop} : F.loop? l = some x → F.loop? m = some y → x.parent = y.parent →
    (l < m ↔ x.header < y.header)
  children {l : LoopId} {x : NaturalLoop} : F.loop? l = some x →
    x.children = F.ids.filter fun c => (F.loop? c).bind (·.parent) == some l
  /-- The depth of a loop is the number of loops that its header belongs to. -/
  depth {l : LoopId} {x : NaturalLoop} : F.loop? l = some x →
    x.depth = F.loops.countP fun y => y.contains x.header
  /-- The innermost loop of a block contains it, and no other loop that does is as small. -/
  innermost_eq_some {b : Nat} {l : LoopId} : F.innermost? b = some l ↔
    ∃ x, F.loop? l = some x ∧ b ∈ x.blocks ∧ ∀ m y, F.loop? m = some y → b ∈ y.blocks →
      y.extent.card ≤ x.extent.card → m = l
  innermost_eq_none {b : Nat} : F.innermost? b = none ↔ ∀ l x, F.loop? l = some x → b ∉ x.blocks
  headedBy_eq_some {b : Nat} {l : LoopId} : F.headedBy? b = some l ↔ ∃ x, F.loop? l = some x ∧ x.header = b
  direct_disjoint {l m : LoopId} : l ≠ m → (F.direct l).Disjoint (F.direct m)
  /-- The blocks of a loop are its own or those of a loop inside of it. -/
  direct_cover {b : Nat} : (∃ l, b ∈ F.direct l) ↔ ∃ l x, F.loop? l = some x ∧ b ∈ x.blocks
  direct_eq {l : LoopId} {x : NaturalLoop} : F.loop? l = some x →
    F.direct l = x.blocks.filter fun b => x.children.all fun c => !F.contains c b

theorem exists_names_of_lt_length (inside : l < (Forest.ofFunction f).loops.length) : ∃ i, Names f l i := by
  obtain ⟨i, _, names, _⟩ := exists_names (List.getElem?_eq_getElem inside)
  exact ⟨i, names⟩

theorem names_of_positionOf (position : positionOf f i = some l) : Names f l i := by
  obtain ⟨inside, same, _⟩ := List.findIdx?_eq_some_iff_getElem.mp position
  refine ⟨((orderOf (naturalLoops f)).get ⟨l, inside⟩).2, ?_⟩
  rw [List.getElem?_eq_getElem inside, Option.some.injEq]
  exact Prod.ext (beq_iff_eq.mp same) rfl

theorem depth_children_eq (found : (Forest.ofFunction f).loop? l = some x) (names : Names f l i) :
    (i, x.depth) ∈ orderOf (naturalLoops f) ∧
      x.children = (childrenOf (naturalLoops f) i).filterMap (positionOf f) := by
  obtain ⟨depth, here⟩ := names
  change ((orderOf (naturalLoops f)).map _)[l]? = some x at found
  rw [List.getElem?_map, here, Option.map_some, Option.some.injEq] at found
  subst found
  exact ⟨List.mem_of_getElem? here, rfl⟩

section

variable (flow : f.Connected)
include flow

/-! ### Numbers -/

theorem headers_nodup : ((Forest.ofFunction f).loops.map (·.header)).Nodup := by
  rw [List.Nodup, List.pairwise_map, List.pairwise_iff_getElem]
  intro l m insideL insideM before
  exact header_ne flow (List.getElem?_eq_getElem insideL) (List.getElem?_eq_getElem insideM) (Nat.ne_of_lt before)

theorem mem_headers_iff {h : Nat} : h ∈ (Forest.ofFunction f).loops.map (·.header) ↔
    ∃ b, h ∈ f.succs b ∧ some h ≠ f.recover ∧ f.dominates h b = true := by
  rw [List.mem_map]
  constructor
  · rintro ⟨x, member, rfl⟩
    obtain ⟨l, found⟩ := List.mem_iff_getElem?.mp member
    obtain ⟨i, y, _, here, header, _⟩ := exists_names found
    have isHeader : x.header ∈ (naturalLoops f).map (·.header) :=
      header ▸ List.mem_map_of_mem (List.mem_of_getElem? here)
    rw [headers_naturalLoops, List.mem_filter, List.any_eq_true] at isHeader
    obtain ⟨_, ⟨b, h⟩, isBack, same⟩ := isHeader
    obtain rfl : h = x.header := beq_iff_eq.mp same
    exact ⟨b, mem_backEdges.mp isBack⟩
  · rintro ⟨b, isBack⟩
    obtain ⟨l, x, found, header⟩ := exists_loop?_of_mem_backEdges flow (mem_backEdges.mpr isBack)
    exact ⟨x, List.mem_of_getElem? found, header⟩

theorem contiguous (foundL : (Forest.ofFunction f).loop? l = some x) (foundN : (Forest.ofFunction f).loop? n = some z)
    (around : (Forest.ofFunction f).containsLoop l n = true) :
    l ≤ n ∧ ∀ m, l ≤ m → m ≤ n → (Forest.ofFunction f).containsLoop l m = true := by
  obtain ⟨i, _, namesL, _⟩ := exists_names foundL
  obtain ⟨k, _, namesN, _⟩ := exists_names foundN
  have above := (containsLoop_iff_above flow namesL namesN).mp around
  refine ⟨namesL.le flow namesN above, fun m afterL beforeN => ?_⟩
  have inside := (List.getElem?_eq_some_iff.mp foundN).1
  obtain ⟨j, namesM⟩ := exists_names_of_lt_length (Nat.lt_of_le_of_lt beforeN inside)
  rw [containsLoop_iff_above flow namesL namesM]
  rcases Nat.eq_or_lt_of_le afterL with rfl | afterL
  · exact namesL.index_unique namesM ▸ .refl
  rcases Nat.eq_or_lt_of_le beforeN with rfl | beforeN
  · exact namesM.index_unique namesN ▸ above
  obtain ⟨_, hereL⟩ := namesL
  obtain ⟨_, hereM⟩ := namesM
  obtain ⟨_, hereN⟩ := namesN
  obtain ⟨_, isL⟩ := List.getElem?_eq_some_iff.mp hereL
  obtain ⟨_, isM⟩ := List.getElem?_eq_some_iff.mp hereM
  obtain ⟨insideN, isN⟩ := List.getElem?_eq_some_iff.mp hereN
  have between := List.triplewise_iff_getElem.mp (inside_together flow) l m n afterL beforeN insideN
  rw [isL, isM, isN] at between
  exact between above

/-- The numbers of loops with one parent are in the order of their positions. -/
theorem Names.lt_of_lt (namesL : Names f l i) (namesM : Names f m j)
    (same : parentOf (naturalLoops f) i = parentOf (naturalLoops f) j) (before : l < m) : i < j := by
  obtain ⟨_, hereL⟩ := namesL
  obtain ⟨_, hereM⟩ := namesM
  obtain ⟨insideL, isL⟩ := List.getElem?_eq_some_iff.mp hereL
  obtain ⟨insideM, isM⟩ := List.getElem?_eq_some_iff.mp hereM
  have inOrder := List.pairwise_iff_getElem.mp (siblings_in_order flow) l m insideL insideM before
  rw [isL, isM] at inOrder
  exact inOrder same

theorem parentOf_of_parent_eq (foundL : (Forest.ofFunction f).loop? l = some x) (namesL : Names f l i)
    (foundM : (Forest.ofFunction f).loop? m = some y) (namesM : Names f m j) (same : x.parent = y.parent)
    (parent : parentOf (naturalLoops f) i = some k) : parentOf (naturalLoops f) j = some k := by
  obtain ⟨p, named, _⟩ := namesL.exists_parent flow parent
  have isParent := (parent_eq_some_iff flow foundL namesL).mpr ⟨k, parent, named⟩
  obtain ⟨k', parent', named'⟩ := (parent_eq_some_iff flow foundM namesM).mp (same ▸ isParent)
  rw [parent', named.index_unique named']

theorem lt_iff_header_lt (foundL : (Forest.ofFunction f).loop? l = some x)
    (foundM : (Forest.ofFunction f).loop? m = some y) (same : x.parent = y.parent) :
    l < m ↔ x.header < y.header := by
  obtain ⟨i, x', namesL, hereL, headerL, _⟩ := exists_names foundL
  obtain ⟨j, y', namesM, hereM, headerM, _⟩ := exists_names foundM
  have parents : parentOf (naturalLoops f) i = parentOf (naturalLoops f) j := by
    refine Option.ext fun k => ⟨?_, ?_⟩
    · exact parentOf_of_parent_eq flow foundL namesL foundM namesM same
    · exact parentOf_of_parent_eq flow foundM namesM foundL namesL same.symm
  rw [headerL, headerM]
  constructor
  · intro before
    exact header_lt hereL hereM (namesL.lt_of_lt flow namesM parents before)
  · intro less
    by_contra notBefore
    rcases Nat.eq_or_lt_of_le (Nat.le_of_not_lt notBefore) with rfl | after
    · obtain rfl := namesL.index_unique namesM
      obtain rfl : x' = y' := Option.some.inj (hereL.symm.trans hereM)
      exact Nat.lt_irrefl _ less
    · exact Nat.lt_asymm less (header_lt hereM hereL (namesM.lt_of_lt flow namesL parents.symm after))

theorem mem_children_iff (found : (Forest.ofFunction f).loop? l = some x) :
    m ∈ x.children ↔ ∃ y, (Forest.ofFunction f).loop? m = some y ∧ y.parent = some l := by
  obtain ⟨i, _, names, _⟩ := exists_names found
  rw [(depth_children_eq found names).2, List.mem_filterMap]
  constructor
  · rintro ⟨j, child, position⟩
    have namesM := names_of_positionOf position
    obtain ⟨y, foundM⟩ := exists_loop?_of_names namesM
    exact ⟨y, foundM, (parent_eq_some_iff flow foundM namesM).mpr ⟨i, mem_childrenOf_iff.mp child, names⟩⟩
  · rintro ⟨y, foundM, isParent⟩
    obtain ⟨j, _, namesM, _⟩ := exists_names foundM
    obtain ⟨k, parent, named⟩ := (parent_eq_some_iff flow foundM namesM).mp isParent
    obtain rfl := names.index_unique named
    exact ⟨j, mem_childrenOf_iff.mpr parent, positionOf_eq_some flow namesM⟩

theorem children_ascending (found : (Forest.ofFunction f).loop? l = some x) : x.children.Pairwise (· < ·) := by
  obtain ⟨i, _, names, _⟩ := exists_names found
  rw [(depth_children_eq found names).2, List.pairwise_filterMap]
  have ascending : (childrenOf (naturalLoops f) i).Pairwise (· < ·) := List.pairwise_lt_range.filter _
  refine ascending.imp_of_mem fun {j k} child child' before m position n position' => ?_
  have namesM := names_of_positionOf position
  have namesN := names_of_positionOf position'
  have same := (mem_childrenOf_iff.mp child').trans (mem_childrenOf_iff.mp child).symm
  by_contra notBefore
  rcases Nat.eq_or_lt_of_le (Nat.le_of_not_lt notBefore) with rfl | after
  · exact Nat.ne_of_lt before (namesM.index_unique namesN)
  · exact Nat.lt_asymm before (namesN.lt_of_lt flow namesM same after)

theorem children_eq_filter (found : (Forest.ofFunction f).loop? l = some x) :
    x.children = (Forest.ofFunction f).ids.filter fun c => ((Forest.ofFunction f).loop? c).bind (·.parent) == some l := by
  refine List.Pairwise.eq_of_mem_iff (children_ascending flow found) (List.pairwise_lt_range.filter _) fun m => ?_
  rw [mem_children_iff flow found, List.mem_filter, ids, List.mem_range, beq_iff_eq, Option.bind_eq_some_iff]
  constructor
  · rintro ⟨y, foundM, parent⟩
    exact ⟨(List.getElem?_eq_some_iff.mp foundM).1, y, foundM, parent⟩
  · rintro ⟨_, y, foundM, parent⟩
    exact ⟨y, foundM, parent⟩

/-- The forest holds the loops that were found, each once. -/
theorem natural_perm :
    ((Forest.ofFunction f).loops.map fun x => (⟨x.header, x.latches, x.blocks⟩ : Natural)).Perm (naturalLoops f) := by
  have reordered := (order_perm flow).map fun i => ((naturalLoops f)[i]?).getD default
  have all : (List.range (naturalLoops f).length).map (fun i => ((naturalLoops f)[i]?).getD default) = naturalLoops f := by
    refine List.ext_getElem (by simp) fun i inside inside' => ?_
    simp [List.getElem?_eq_getElem inside']
  rw [all, List.map_map] at reordered
  change (((orderOf (naturalLoops f)).map _).map _).Perm _
  rw [List.map_map]
  exact reordered

theorem depth_eq (found : (Forest.ofFunction f).loop? l = some x) :
    x.depth = (Forest.ofFunction f).loops.countP fun y => y.contains x.header := by
  obtain ⟨i, x', names, here, header, _⟩ := exists_names found
  have counted := (natural_perm flow).countP_eq fun y => decide (x.header ∈ y.blocks)
  rw [List.countP_map] at counted
  calc x.depth
    _ = depthAt (naturalLoops f) i := depth_of_mem_order flow (depth_children_eq found names).1
    _ = (enclosing (naturalLoops f) x.header).length := by
      rw [depthAt, here, Option.map_some, Option.getD_some, header]
    _ = (naturalLoops f).countP fun y => x.header ∈ y.blocks := List.countP_eq_length_filter.symm
    _ = (Forest.ofFunction f).loops.countP fun y => y.contains x.header := counted.symm

theorem depth_eq_depthAt (names : Names f l i) : (Forest.ofFunction f).depth l = depthAt (naturalLoops f) i := by
  obtain ⟨x, found⟩ := exists_loop?_of_names names
  rw [Forest.depth, found, Option.map_some, Option.getD_some]
  exact depth_of_mem_order flow (depth_children_eq found names).1

/-- A loop is deeper than the loops around it. -/
theorem depth_lt_of_containsLoop (outer : l ∈ (Forest.ofFunction f).ids) (inner : m ∈ (Forest.ofFunction f).ids)
    (around : (Forest.ofFunction f).containsLoop l m = true) (other : l ≠ m) :
    (Forest.ofFunction f).depth l < (Forest.ofFunction f).depth m := by
  obtain ⟨i, namesL⟩ := exists_names_of_lt_length (List.mem_range.mp outer)
  obtain ⟨j, namesM⟩ := exists_names_of_lt_length (List.mem_range.mp inner)
  rw [depth_eq_depthAt flow namesL, depth_eq_depthAt flow namesM]
  refine ((containsLoop_iff_above flow namesL namesM).mp around).depthAt_lt flow fun same => ?_
  subst same
  exact other (namesL.unique flow namesM)

/-! ### Blocks -/

/-- No other loop that a block belongs to is as small as the innermost one. -/
theorem eq_of_innermost? {l : LoopId} (innermost : (Forest.ofFunction f).innermost? b = some l)
    (foundL : (Forest.ofFunction f).loop? l = some x) (foundM : (Forest.ofFunction f).loop? m = some y)
    (inside : b ∈ y.blocks) (small : y.extent.card ≤ x.extent.card) : m = l := by
  have around := containsLoop_of_contains flow (contains_iff.mpr ⟨y, foundM, inside⟩) innermost
  have all := (containsLoop_iff_subset flow foundM foundL).mp around
  have same : x.extent = y.extent := Finset.eq_of_subset_of_card_le all small
  by_contra other
  rcases apart_or_inside flow foundM foundL other with apart | less | more
  · rw [same] at apart
    exact disjoint_extent_iff.mp apart inside inside
  · exact less.ne same.symm
  · exact more.ne same

theorem innermost?_eq_some_iff {l : LoopId} : (Forest.ofFunction f).innermost? b = some l ↔
    ∃ x, (Forest.ofFunction f).loop? l = some x ∧ b ∈ x.blocks ∧
      ∀ m y, (Forest.ofFunction f).loop? m = some y → b ∈ y.blocks → y.extent.card ≤ x.extent.card → m = l := by
  constructor
  · intro innermost
    obtain ⟨x, found, inside⟩ := contains_iff.mp (innermost?_eq_some innermost).1
    exact ⟨x, found, inside, fun m y => eq_of_innermost? flow innermost found⟩
  · rintro ⟨x, found, inside, unique⟩
    obtain ⟨s, innermost⟩ := exists_innermost? (contains_iff.mpr ⟨x, found, inside⟩)
    obtain ⟨y, foundS, insideS⟩ := contains_iff.mp (innermost?_eq_some innermost).1
    rcases Nat.le_total y.extent.card x.extent.card with less | more
    · rw [innermost, unique s y foundS insideS less]
    · rw [innermost, eq_of_innermost? flow innermost foundS found inside more]

omit flow in
theorem innermost?_eq_none_iff {F : Forest} : F.innermost? b = none ↔ ∀ l x, F.loop? l = some x → b ∉ x.blocks := by
  constructor
  · intro none l x found inside
    obtain ⟨s, innermost⟩ := exists_innermost? (contains_iff.mpr ⟨x, found, inside⟩)
    rw [none] at innermost
    cases innermost
  · intro outside
    rw [Option.eq_none_iff_forall_ne_some]
    intro s innermost
    obtain ⟨x, found, inside⟩ := contains_iff.mp (innermost?_eq_some innermost).1
    exact outside s x found inside

theorem headedBy?_eq_some_iff {l : LoopId} :
    (Forest.ofFunction f).headedBy? b = some l ↔ ∃ x, (Forest.ofFunction f).loop? l = some x ∧ x.header = b := by
  rw [headedBy?, Option.filter_eq_some_iff]
  constructor
  · rintro ⟨_, header⟩
    cases found : (Forest.ofFunction f).loop? l with
    | none => simp [found] at header
    | some x => exact ⟨x, rfl, by simpa [found] using header⟩
  · rintro ⟨x, found, rfl⟩
    exact ⟨innermost?_header flow found, by simp [found]⟩

omit flow in
theorem mem_direct_iff {F : Forest} {l : LoopId} : b ∈ F.direct l ↔ b ∈ F.function.blockIds ∧ F.innermost? b = some l := by
  simp [direct]

omit flow in
theorem direct_disjoint {F : Forest} {l m : LoopId} (other : l ≠ m) : (F.direct l).Disjoint (F.direct m) := by
  intro b inL inM
  have same := (mem_direct_iff.mp inL).2.symm.trans (mem_direct_iff.mp inM).2
  exact other (Option.some.inj same)

omit flow in
theorem exists_direct_iff :
    (∃ l, b ∈ (Forest.ofFunction f).direct l) ↔ ∃ l x, (Forest.ofFunction f).loop? l = some x ∧ b ∈ x.blocks := by
  constructor
  · rintro ⟨l, member⟩
    exact ⟨l, contains_iff.mp (innermost?_eq_some (mem_direct_iff.mp member).2).1⟩
  · rintro ⟨l, x, found, inside⟩
    obtain ⟨s, innermost⟩ := exists_innermost? (contains_iff.mpr ⟨x, found, inside⟩)
    exact ⟨s, mem_direct_iff.mpr ⟨(isNatural found).mem_blockIds inside, innermost⟩⟩

/-- A block that is in a loop around its innermost one is in a child of it. -/
theorem exists_child_contains {s : Nat} (found : (Forest.ofFunction f).loop? l = some x)
    (innermost : (Forest.ofFunction f).innermost? b = some s) (inside : b ∈ x.blocks) (other : l ≠ s) :
    ∃ c ∈ x.children, (Forest.ofFunction f).contains c b = true := by
  obtain ⟨y, foundS, insideS⟩ := contains_iff.mp (innermost?_eq_some innermost).1
  obtain ⟨i, _, namesL, _⟩ := exists_names found
  obtain ⟨j, _, namesS, _⟩ := exists_names foundS
  have around := containsLoop_of_contains flow (contains_iff.mpr ⟨x, found, inside⟩) innermost
  rcases ((containsLoop_iff_above flow namesL namesS).mp around).eq_or_child with rfl | ⟨k, parent, above⟩
  · exact absurd (namesL.unique flow namesS) other
  · obtain ⟨_, _, _, _, here, _⟩ := around_of_parentOf parent
    obtain ⟨c, namesC⟩ := exists_names_of_lt flow (List.getElem?_eq_some_iff.mp here).1
    obtain ⟨z, foundC⟩ := exists_loop?_of_names namesC
    have isParent := (parent_eq_some_iff flow foundC namesC).mpr ⟨i, parent, namesL⟩
    have all := (containsLoop_iff_subset flow foundC foundS).mp ((containsLoop_iff_above flow namesC namesS).mpr above)
    refine ⟨c, (mem_children_iff flow found).mpr ⟨z, foundC, isParent⟩, contains_iff.mpr ⟨z, foundC, ?_⟩⟩
    exact extent_subset_iff.mp all insideS

theorem innermost?_eq_some_iff_no_child (found : (Forest.ofFunction f).loop? l = some x) :
    (Forest.ofFunction f).innermost? b = some l ↔
      b ∈ x.blocks ∧ ∀ c ∈ x.children, (Forest.ofFunction f).contains c b = false := by
  constructor
  · intro innermost
    obtain ⟨contains, last⟩ := innermost?_eq_some innermost
    obtain ⟨x', found', inside⟩ := contains_iff.mp contains
    obtain rfl : x = x' := Option.some.inj (found.symm.trans found')
    refine ⟨inside, fun c child => ?_⟩
    obtain ⟨y, foundC, parent⟩ := (mem_children_iff flow found).mp child
    have after := parent_lt flow foundC parent
    by_contra inChild
    have := last c (by simpa using inChild)
    omega
  · rintro ⟨inside, outside⟩
    obtain ⟨s, innermost⟩ := exists_innermost? (contains_iff.mpr ⟨x, found, inside⟩)
    by_cases same : l = s
    · exact same ▸ innermost
    · obtain ⟨c, child, contains⟩ := exists_child_contains flow found innermost inside same
      rw [outside c child] at contains
      cases contains

theorem direct_eq_filter (found : (Forest.ofFunction f).loop? l = some x) :
    (Forest.ofFunction f).direct l =
      x.blocks.filter fun b => x.children.all fun c => !(Forest.ofFunction f).contains c b := by
  obtain ⟨i, x', _, here, _, _, blocks, _⟩ := exists_names found
  have whole : x.blocks = f.blockIds.filter fun b => b ∈ x.blocks := by
    rw [blocks]
    exact blocks_eq_filter here
  calc (Forest.ofFunction f).direct l
    _ = f.blockIds.filter fun b => (x.children.all fun c => !(Forest.ofFunction f).contains c b) && decide (b ∈ x.blocks) := by
      refine List.filter_congr fun b _ => ?_
      rw [Bool.eq_iff_iff, beq_iff_eq, innermost?_eq_some_iff_no_child flow found]
      simp [and_comm]
    _ = (f.blockIds.filter fun b => b ∈ x.blocks).filter fun b => x.children.all fun c => !(Forest.ofFunction f).contains c b := by
      rw [List.filter_filter]
    _ = x.blocks.filter fun b => x.children.all fun c => !(Forest.ofFunction f).contains c b := by
      rw [← whole]

end

/-- Numbers follow the nest, and blocks are found in the innermost of their loops. -/
theorem numbered_ofFunction (flow : f.Connected) : (Forest.ofFunction f).Numbered where
  distinct := headers_nodup flow
  listed := mem_headers_iff flow
  contiguous := contiguous flow
  siblings := lt_iff_header_lt flow
  children := children_eq_filter flow
  depth := depth_eq flow
  innermost_eq_some := innermost?_eq_some_iff flow
  innermost_eq_none := innermost?_eq_none_iff
  headedBy_eq_some := headedBy?_eq_some_iff flow
  direct_disjoint := direct_disjoint
  direct_cover := exists_direct_iff
  direct_eq := direct_eq_filter flow

theorem nest_numbers : nest.Connected ∧ (Forest.ofFunction nest).Numbered ∧
    (Forest.ofFunction nest).loops.map (fun x => (x.header, x.depth, x.children)) =
      [(1, 1, [1, 2]), (2, 2, []), (5, 2, []), (3, 1, [])] ∧
    (Forest.ofFunction nest).direct 0 = [1] ∧ (Forest.ofFunction nest).headedBy? 5 = some 2 :=
  ⟨nest_connected, numbered_ofFunction nest_connected, by decide +kernel, by decide +kernel, by decide +kernel⟩

end Forest

end LoopConflict.Loop
