import LoopConflict.Proofs.Loop.Nesting
import Mathlib.Data.List.Triplewise

/-!
The list of all loops in pre-order. A loop is listed with the number of loops that its header belongs to
(`depth_of_mem_order`). That number grows by one from parent to child and is at most the number of loops,
so no loop is too deep to be listed (`order_perm`). What is inside of a loop follows it without a gap
(`inside_together`), and loops with one parent are in the order of their headers (`siblings_in_order`).
-/
namespace LoopConflict.Loop

open Program (Function)

variable {f : Function} {loops : List Natural} {a b c d i j k : Nat}

/-! ### Depth -/

/-- The loops that a block belongs to. -/
def enclosing (loops : List Natural) (b : Nat) : List Natural :=
  loops.filter fun y => b ∈ y.blocks

/-- The number of loops that the header of the loop at a position belongs to. -/
def depthAt (loops : List Natural) (i : Nat) : Nat :=
  ((loops[i]?).map fun x => (enclosing loops x.header).length).getD 0

theorem depthAt_le (loops : List Natural) (i : Nat) : depthAt loops i ≤ loops.length := by
  unfold depthAt
  cases loops[i]? with
  | none => simp
  | some x => exact List.length_filter_le _ loops

theorem nodup_naturalLoops (f : Function) : (naturalLoops f).Nodup := by
  rw [List.nodup_iff_getElem?_ne_getElem?]
  intro i j before inside same
  obtain ⟨x, there⟩ : ∃ x, (naturalLoops f)[j]? = some x := ⟨_, List.getElem?_eq_getElem inside⟩
  have := eq_of_header_eq (same.trans there) there rfl
  omega

theorem nodup_enclosing (f : Function) (b : Nat) : (enclosing (naturalLoops f) b).Nodup :=
  (nodup_naturalLoops f).filter _

section

variable (flow : f.Connected)
include flow

/-- The loops that the header of a loop belongs to are the loop and its ancestors. -/
theorem mem_enclosing_iff {x y : Natural} (here : (naturalLoops f)[i]? = some x) :
    y ∈ enclosing (naturalLoops f) x.header ↔ ∃ j, (naturalLoops f)[j]? = some y ∧ Above (naturalLoops f) j i := by
  rw [enclosing, List.mem_filter, decide_eq_true_iff, List.mem_iff_getElem?]
  constructor
  · rintro ⟨⟨j, there⟩, inside⟩
    exact ⟨j, there, (above_iff_header_mem flow here there).mpr inside⟩
  · rintro ⟨j, there, above⟩
    exact ⟨⟨j, there⟩, (above_iff_header_mem flow here there).mp above⟩

theorem depthAt_top (inside : i < (naturalLoops f).length) (top : parentOf (naturalLoops f) i = none) :
    depthAt (naturalLoops f) i = 1 := by
  have here := List.getElem?_eq_getElem inside
  have single : (enclosing (naturalLoops f) ((naturalLoops f)[i]).header).Perm [(naturalLoops f)[i]] := by
    rw [List.perm_ext_iff_of_nodup (nodup_enclosing f _) (List.nodup_singleton _)]
    intro y
    rw [mem_enclosing_iff flow here, List.mem_singleton]
    constructor
    · rintro ⟨j, there, above⟩
      cases above with
      | refl => exact Option.some.inj (there.symm.trans here)
      | step parent _ =>
        rw [top] at parent
        cases parent
    · rintro rfl
      exact ⟨i, here, .refl⟩
  rw [depthAt, here, Option.map_some, Option.getD_some, single.length_eq, List.length_singleton]

theorem depthAt_child (parent : parentOf (naturalLoops f) i = some k) :
    depthAt (naturalLoops f) i = depthAt (naturalLoops f) k + 1 := by
  obtain ⟨_, z, x, there, here, _⟩ := around_of_parentOf parent
  have further : (enclosing (naturalLoops f) x.header).Perm (x :: enclosing (naturalLoops f) z.header) := by
    rw [List.perm_ext_iff_of_nodup (nodup_enclosing f _)]
    · intro y
      rw [List.mem_cons, mem_enclosing_iff flow here, mem_enclosing_iff flow there]
      constructor
      · rintro ⟨j, foundJ, above⟩
        cases above with
        | refl => exact .inl (Option.some.inj (foundJ.symm.trans here))
        | step parent' above =>
          rw [parent] at parent'
          cases parent'
          exact .inr ⟨j, foundJ, above⟩
      · rintro (rfl | ⟨j, foundJ, above⟩)
        · exact ⟨i, here, .refl⟩
        · exact ⟨j, foundJ, .step parent above⟩
    · refine List.nodup_cons.mpr ⟨fun member => ?_, nodup_enclosing f _⟩
      obtain ⟨j, foundJ, above⟩ := (mem_enclosing_iff flow there).mp member
      obtain rfl := eq_of_header_eq foundJ here rfl
      exact above.not_parent flow parent
  simp only [depthAt, here, there, Option.map_some, Option.getD_some, further.length_eq, List.length_cons]

theorem Above.depthAt_le (above : Above (naturalLoops f) k i) :
    depthAt (naturalLoops f) k ≤ depthAt (naturalLoops f) i := by
  induction above with
  | refl => exact Nat.le_refl _
  | step parent _ ih => exact Nat.le_trans ih (depthAt_child flow parent ▸ Nat.le_succ _)

theorem Above.depthAt_lt (above : Above (naturalLoops f) k i) (other : k ≠ i) :
    depthAt (naturalLoops f) k < depthAt (naturalLoops f) i := by
  cases above with
  | refl => exact absurd rfl other
  | step parent above => exact depthAt_child flow parent ▸ Nat.lt_succ_of_le (above.depthAt_le flow)

/-- Every loop is listed with its depth. -/
theorem depth_of_mem_preorder {fuel depth : Nat} {p : Nat × Nat} (start : depth = depthAt (naturalLoops f) i)
    (member : p ∈ preorder (childrenOf (naturalLoops f)) fuel depth i) : p.2 = depthAt (naturalLoops f) p.1 := by
  induction fuel generalizing depth i with
  | zero => cases member
  | succ fuel ih =>
    rcases List.mem_cons.mp member with rfl | later
    · exact start
    · obtain ⟨c, child, below⟩ := List.mem_flatMap.mp later
      refine ih ?_ below
      rw [depthAt_child flow (parentOf_of_mem_childrenOf child).1, start]

theorem depth_of_mem_order {p : Nat × Nat} (member : p ∈ orderOf (naturalLoops f)) :
    p.2 = depthAt (naturalLoops f) p.1 := by
  obtain ⟨top, isTop, below⟩ := List.mem_flatMap.mp member
  have inside := List.mem_range.mp (List.mem_filter.mp isTop).1
  exact depth_of_mem_preorder flow (depthAt_top flow inside (parentOf_of_mem_top isTop)).symm below

end

/-! ### Every loop is listed once -/

/-- What is inside of a loop is the loop itself or inside of one of its children. -/
theorem Above.eq_or_child (above : Above loops a i) : a = i ∨ ∃ c, parentOf loops c = some a ∧ Above loops c i := by
  induction above with
  | refl => exact .inl rfl
  | @step i k parent _ ih =>
    refine .inr ?_
    rcases ih with rfl | ⟨c, child, above⟩
    · exact ⟨i, parent, .refl⟩
    · exact ⟨c, child, .step parent above⟩

theorem mem_childrenOf_iff : j ∈ childrenOf loops i ↔ parentOf loops j = some i := by
  constructor
  · intro member
    exact (parentOf_of_mem_childrenOf member).1
  · intro parent
    obtain ⟨_, _, _, _, here, _⟩ := around_of_parentOf parent
    have inside := (List.getElem?_eq_some_iff.mp here).1
    simpa [childrenOf, parent] using inside

section

variable (flow : f.Connected)
include flow

/-- Going down from a loop, the number of loops is enough levels. -/
theorem exists_mem_preorder (fuel depth : Nat) (above : Above (naturalLoops f) i j)
    (enough : (naturalLoops f).length < fuel + depthAt (naturalLoops f) i) :
    ∃ p ∈ preorder (childrenOf (naturalLoops f)) fuel depth i, p.1 = j := by
  induction fuel generalizing depth i with
  | zero =>
    have := depthAt_le (naturalLoops f) i
    omega
  | succ fuel ih =>
    rcases above.eq_or_child with rfl | ⟨c, parent, below⟩
    · exact ⟨(i, depth), List.mem_cons_self, rfl⟩
    · -- One level down there is one level less to go, and the depth is one more.
      have deeper := depthAt_child flow parent
      obtain ⟨p, member, same⟩ := ih (depth + 1) below (by omega)
      exact ⟨p, List.mem_cons_of_mem _ (List.mem_flatMap.mpr ⟨c, mem_childrenOf_iff.mpr parent, member⟩), same⟩

theorem exists_top_above {i : Nat} (inside : i < (naturalLoops f).length) :
    ∃ top < (naturalLoops f).length, parentOf (naturalLoops f) top = none ∧ Above (naturalLoops f) top i := by
  cases parent : parentOf (naturalLoops f) i with
  | none => exact ⟨i, inside, parent, .refl⟩
  | some k =>
    obtain ⟨_, _, _, there, _⟩ := around_of_parentOf parent
    have higher := depthAt_child flow parent
    obtain ⟨top, isInside, isTop, above⟩ := exists_top_above (List.getElem?_eq_some_iff.mp there).1
    exact ⟨top, isInside, isTop, .step parent above⟩
termination_by depthAt (naturalLoops f) i

theorem exists_mem_order (inside : i < (naturalLoops f).length) : ∃ p ∈ orderOf (naturalLoops f), p.1 = i := by
  obtain ⟨top, isInside, isTop, above⟩ := exists_top_above flow inside
  have first := depthAt_top flow isInside isTop
  obtain ⟨p, member, same⟩ := exists_mem_preorder flow (naturalLoops f).length 1 above (by omega)
  refine ⟨p, List.mem_flatMap.mpr ⟨top, ?_, member⟩, same⟩
  simp [isInside, isTop]

theorem order_perm : ((orderOf (naturalLoops f)).map (·.1)).Perm (List.range (naturalLoops f).length) := by
  refine (List.perm_ext_iff_of_nodup ?_ List.nodup_range).mpr fun i => ?_
  · refine List.pairwise_map.mpr ((outermost_first flow).imp fun {p q} apart same => ?_)
    exact apart (same ▸ .refl)
  · rw [List.mem_map, List.mem_range]
    constructor
    · rintro ⟨p, member, rfl⟩
      obtain ⟨top, isTop, below⟩ := List.mem_flatMap.mp member
      exact lt_length_of_mem_preorder (List.mem_range.mp (List.mem_filter.mp isTop).1) below
    · exact exists_mem_order flow

end

/-! ### What follows what -/

/-- Lists whose members are related within one list only, put together. -/
theorem triplewise_flatMap {α β : Type} {R : β → β → Prop} {g : α → List β} {parts : List α}
    (each : ∀ c ∈ parts, (g c).Triplewise fun x y z => R x z → R x y)
    (apart : parts.Pairwise fun c d => ∀ x ∈ g c, ∀ z ∈ g d, ¬ R x z) :
    (parts.flatMap g).Triplewise fun x y z => R x z → R x y := by
  induction parts with
  | nil => exact .nil
  | cons c rest ih =>
    obtain ⟨first, apart⟩ := List.pairwise_cons.mp apart
    have unrelated : ∀ x ∈ g c, ∀ z ∈ rest.flatMap g, ¬ R x z := by
      intro x inC z later
      obtain ⟨d, member, inD⟩ := List.mem_flatMap.mp later
      exact first d member x inC z inD
    rw [List.flatMap_cons, List.triplewise_append]
    refine ⟨each c List.mem_cons_self, ih (fun d member => each d (List.mem_cons_of_mem _ member)) apart, ?_, ?_⟩
    · intro x inC
      exact List.pairwise_of_forall_mem_list fun y _ z later related => absurd related (unrelated x inC z later)
    · intro z later
      exact List.pairwise_of_forall_mem_list fun x inC y _ related => absurd related (unrelated x inC z later)

section

variable (flow : f.Connected)
include flow

theorem triplewise_preorder (fuel depth i : Nat) : (preorder (childrenOf (naturalLoops f)) fuel depth i).Triplewise
    fun p q r => Above (naturalLoops f) p.1 r.1 → Above (naturalLoops f) p.1 q.1 := by
  induction fuel generalizing depth i with
  | zero => exact .nil
  | succ fuel ih =>
    rw [preorder, List.triplewise_cons]
    refine ⟨?_, triplewise_flatMap (R := fun p q : Nat × Nat => Above (naturalLoops f) p.1 q.1) (fun c _ => ih _ c) ?_⟩
    · refine List.pairwise_of_forall_mem_list fun q later r _ _ => ?_
      have below : q ∈ preorder (childrenOf (naturalLoops f)) (fuel + 1) depth i := List.mem_cons_of_mem _ later
      exact above_of_mem_preorder below
    · have distinct : (childrenOf (naturalLoops f) i).Nodup := List.nodup_range.filter _
      refine distinct.imp_of_mem fun {c d} child child' other p below q below' => ?_
      have same := (mem_childrenOf_iff.mp child').trans (mem_childrenOf_iff.mp child).symm
      exact not_above_of_siblings flow same (Ne.symm other) (above_of_mem_preorder below') (above_of_mem_preorder below)

/-- What is listed between a loop and one inside of it is inside of it, too. -/
theorem inside_together : (orderOf (naturalLoops f)).Triplewise
    fun p q r => Above (naturalLoops f) p.1 r.1 → Above (naturalLoops f) p.1 q.1 := by
  refine triplewise_flatMap (R := fun p q : Nat × Nat => Above (naturalLoops f) p.1 q.1)
    (fun i _ => triplewise_preorder flow _ _ i) ?_
  refine (List.nodup_range.filter _).imp_of_mem fun {c d} top top' other p below q below' => ?_
  have same := (parentOf_of_mem_top top').trans (parentOf_of_mem_top top).symm
  exact not_above_of_siblings flow same (Ne.symm other) (above_of_mem_preorder below') (above_of_mem_preorder below)

/-- Below two loops with one parent, only these two have one parent. -/
theorem eq_of_siblings (same : parentOf (naturalLoops f) c = parentOf (naturalLoops f) d) (other : c ≠ d)
    (first : Above (naturalLoops f) c i) (second : Above (naturalLoops f) d j)
    (same' : parentOf (naturalLoops f) i = parentOf (naturalLoops f) j) : i = c ∧ j = d := by
  cases first with
  | refl =>
    cases second with
    | refl => exact ⟨rfl, rfl⟩
    | step parent above => exact (above.not_parent flow (same.symm.trans (same'.trans parent))).elim
  | step parent above =>
    have below : Above (naturalLoops f) c j := .step (same'.symm.trans parent) above
    exact absurd .refl (not_above_of_siblings flow same other below second)

/-- Loops with one parent, and those without one, are listed in the order of their headers. -/
theorem siblings_in_order : (orderOf (naturalLoops f)).Pairwise
    fun p q => parentOf (naturalLoops f) p.1 = parentOf (naturalLoops f) q.1 → p.1 < q.1 := by
  refine pairwise_order (R := fun p q => parentOf (naturalLoops f) p = parentOf (naturalLoops f) q → p < q) ?_ ?_
  · intro i c q parent below same
    -- The parent of what is inside of a loop is that loop or one inside of it.
    cases below with
    | refl => exact (Above.refl.not_parent flow (same.trans parent)).elim
    | step parent' above => exact ((Above.step parent .refl).trans above |>.not_parent flow (same.trans parent')).elim
  · intro c d p q same before first second same'
    obtain ⟨rfl, rfl⟩ := eq_of_siblings flow same (Nat.ne_of_lt before) first second same'
    exact before

end

end LoopConflict.Loop
