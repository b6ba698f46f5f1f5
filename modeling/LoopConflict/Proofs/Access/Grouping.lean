import LoopConflict.Access.Pairing
import Mathlib.Data.List.Forall2
import Mathlib.Data.List.Induction
import Mathlib.Data.List.ProdSigma

/-!
Groups of accesses and their pairs. The groups have the bases of the accesses, each once and in the order in which
they appear first, and a group has all accesses of its base (`groupByBase_eq`). Its pairs are those at two positions
in order of which at least one is a store, in lexicographic order (`conflicting_at`), unless some of them differ in
their number of indices (`Group.pairs_cases`).
-/
namespace LoopConflict.Access

open Evolution (Expr)

/-! ### Lists without repetitions -/

section

variable {α β ι : Type} [BEq α] [LawfulBEq α]

theorem eraseDups_concat (items : List α) (x : α) :
    (items ++ [x]).eraseDups = items.eraseDups ++ if x ∈ items then [] else [x] := by
  rw [List.eraseDups_append]
  by_cases seen : x ∈ items <;> simp [List.removeAll, List.eraseDups_cons, seen]

theorem nodup_eraseDups (items : List α) : items.eraseDups.Nodup := by
  induction items using List.reverseRecOn with
  | nil => simp
  | append_singleton items x ih =>
    rw [eraseDups_concat]
    by_cases seen : x ∈ items
    · simpa [seen] using ih
    · simpa [seen, List.nodup_append] using ⟨ih, fun y member same => seen (same ▸ member)⟩

theorem eraseDups_filter (q : α → Bool) (items : List α) : (items.filter q).eraseDups = items.eraseDups.filter q := by
  induction items using List.reverseRecOn with
  | nil => simp
  | append_singleton items x ih =>
    rw [List.filter_append, eraseDups_concat, List.filter_append, ← ih]
    by_cases holds : q x = true
    · have kept : [x].filter q = [x] := by simp [holds]
      rw [kept, eraseDups_concat]
      by_cases seen : x ∈ items <;> simp [seen, holds]
    · by_cases seen : x ∈ items <;> simp [seen, holds]

theorem eraseDups_eq_self {items : List α} (distinct : items.Nodup) : items.eraseDups = items := by
  induction items using List.reverseRecOn with
  | nil => simp
  | append_singleton items x ih =>
    rw [List.nodup_append] at distinct
    have fresh : x ∉ items := fun member => distinct.2.2 x member x (by simp) rfl
    rw [eraseDups_concat, ih distinct.1, if_neg fresh]

/-- Repetitions inside of the parts go with those between them. -/
theorem eraseDups_flatMap (parts : ι → List α) (items : List ι) :
    (items.flatMap fun i => (parts i).eraseDups).eraseDups = (items.flatMap parts).eraseDups := by
  induction items with
  | nil => rfl
  | cons i items ih =>
    have same : ∀ rest : List α, rest.removeAll (parts i).eraseDups = rest.removeAll (parts i) := by
      intro rest
      simp [List.removeAll]
    rw [List.flatMap_cons, List.flatMap_cons, List.eraseDups_append, List.eraseDups_append, same,
      eraseDups_eq_self (nodup_eraseDups _)]
    unfold List.removeAll
    rw [eraseDups_filter, ih, eraseDups_filter]

theorem eraseDups_map [BEq β] [LawfulBEq β] {g : α → β} (injective : g.Injective) (items : List α) :
    (items.map g).eraseDups = items.eraseDups.map g := by
  induction items using List.reverseRecOn with
  | nil => simp
  | append_singleton items x ih =>
    rw [List.map_append, List.map_singleton, eraseDups_concat, eraseDups_concat, List.map_append, ih]
    have seen : g x ∈ items.map g ↔ x ∈ items := List.mem_map_of_injective injective
    by_cases member : x ∈ items <;> simp [seen, member]

end

/-! ### Groups -/

theorem groupByBase_append (accesses : List MemoryAccess) (a : MemoryAccess) :
    groupByBase (accesses ++ [a]) = addToGroup a (groupByBase accesses) := by
  rw [groupByBase, List.foldl_append]
  rfl

/-- An access goes to the end of its group, or makes a new one at the end. -/
theorem addToGroup_eq (a : MemoryAccess) {bases : List (Option Expr)} (distinct : bases.Nodup)
    (members : Option Expr → List MemoryAccess) :
    addToGroup a (bases.map fun b => ⟨b, members b⟩) =
      (bases.map fun b => ⟨b, members b ++ if a.base = b then [a] else []⟩) ++
        if a.base ∈ bases then [] else [⟨a.base, [a]⟩] := by
  induction bases with
  | nil => rfl
  | cons b bases ih =>
    obtain ⟨fresh, distinct⟩ := List.nodup_cons.mp distinct
    rw [List.map_cons, addToGroup]
    by_cases same : b = a.base
    · have others : ∀ b' ∈ bases, members b' ++ (if a.base = b' then [a] else []) = members b' := by
        intro b' member
        have other : a.base ≠ b' := by
          rintro rfl
          exact fresh (same ▸ member)
        simp [other]
      have rest : (bases.map fun b' => (⟨b', members b' ++ if a.base = b' then [a] else []⟩ : Group)) =
          bases.map fun b' => ⟨b', members b'⟩ :=
        List.map_congr_left fun b' member => by rw [others b' member]
      simp [same, rest]
    · rw [if_neg same, ih distinct]
      simp [Ne.symm same]

/-- The groups have the bases in the order of their first accesses, and each has the accesses of its base. -/
theorem groupByBase_eq (accesses : List MemoryAccess) :
    groupByBase accesses =
      (accesses.map (·.base)).eraseDups.map fun b => ⟨b, accesses.filter fun a => a.base = b⟩ := by
  induction accesses using List.reverseRecOn with
  | nil => rfl
  | append_singleton accesses a ih =>
    have known : a.base ∈ (accesses.map (·.base)).eraseDups ↔ a.base ∈ accesses.map (·.base) := List.mem_eraseDups
    rw [groupByBase_append, ih, addToGroup_eq a (nodup_eraseDups _), List.map_append, List.map_singleton,
      eraseDups_concat, List.map_append]
    congr 1
    · refine List.map_congr_left fun b _ => ?_
      by_cases same : a.base = b <;> simp [List.filter_append, same]
    · by_cases seen : a.base ∈ accesses.map (·.base)
      · simp [known.mpr seen, seen]
      · have none : accesses.filter (fun a' => a'.base = a.base) = [] := by
          refine List.filter_eq_nil_iff.mpr fun a' member same => seen ?_
          exact List.mem_map.mpr ⟨a', member, by simpa using same⟩
        simp [mt known.mp seen, seen, List.filter_append, none]

theorem map_base_groupByBase (accesses : List MemoryAccess) :
    (groupByBase accesses).map (·.base) = (accesses.map (·.base)).eraseDups := by
  simp [groupByBase_eq, Function.comp_def]

theorem members_of_mem_groupByBase {accesses : List MemoryAccess} {g : Group} (member : g ∈ groupByBase accesses) :
    g.members = accesses.filter fun a => a.base = g.base := by
  rw [groupByBase_eq] at member
  obtain ⟨b, _, rfl⟩ := List.mem_map.mp member
  rfl

theorem mem_members_iff {accesses : List MemoryAccess} {g : Group} (inGroups : g ∈ groupByBase accesses)
    {a : MemoryAccess} : a ∈ g.members ↔ a ∈ accesses ∧ a.base = g.base := by
  rw [members_of_mem_groupByBase inGroups, List.mem_filter, decide_eq_true_iff]

/-! ### Pairs -/

/-- Two positions in order, one pair of them after the other in lexicographic order. -/
def positions (n : Nat) : List (Nat × Nat) :=
  (List.range n ×ˢ List.range n).filter fun p => p.1 < p.2

/-- The two items are at the two positions. -/
def ItemsAt {α : Type} (items : List α) (ij : Nat × Nat) (p : α × α) : Prop :=
  items[ij.1]? = some p.1 ∧ items[ij.2]? = some p.2

theorem filter_product_succ (xs ys : List Nat) :
    ((xs.map Nat.succ ×ˢ (0 :: ys.map Nat.succ)).filter fun p => p.1 < p.2) =
      ((xs ×ˢ ys).filter fun p => p.1 < p.2).map fun p => (p.1 + 1, p.2 + 1) := by
  induction xs with
  | nil => rfl
  | cons x xs ih =>
    rw [List.map_cons, List.product_cons, List.product_cons, List.filter_append, List.filter_append, List.map_append, ih]
    congr 1
    simp [List.filter_map, Function.comp_def]

/-- The first position stands before all others, and these are as before. -/
theorem positions_succ (n : Nat) : positions (n + 1) =
    ((List.range n).map fun j => (0, j + 1)) ++ (positions n).map fun p => (p.1 + 1, p.2 + 1) := by
  unfold positions
  rw [List.range_succ_eq_map, List.product_cons, List.filter_append, filter_product_succ]
  congr 1
  simp [List.filter_map, Function.comp_def]

theorem exists_of_mem_right {α β : Type} {R : α → β → Prop} {xs : List α} {ys : List β} (related : List.Forall₂ R xs ys)
    {y : β} (member : y ∈ ys) : ∃ x ∈ xs, R x y := by
  induction related with
  | nil => cases member
  | @cons x _ _ _ here _ ih =>
    rcases List.mem_cons.mp member with rfl | later
    · exact ⟨x, by simp, here⟩
    · obtain ⟨x', inside, there⟩ := ih later
      exact ⟨x', by simp [inside], there⟩

theorem forall₂_range {α : Type} (items : List α) :
    List.Forall₂ (fun j x => items[j]? = some x) (List.range items.length) items := by
  refine List.forall₂_iff_get.mpr ⟨by simp, fun j _ inside => ?_⟩
  simp [List.getElem?_eq_getElem inside]

theorem orderedPairs_at {α : Type} (items : List α) :
    List.Forall₂ (ItemsAt items) (positions items.length) (orderedPairs items) := by
  induction items with
  | nil => exact .nil
  | cons a rest ih =>
    rw [List.length_cons, positions_succ, orderedPairs]
    refine List.rel_append ?_ ?_
    · rw [List.forall₂_map_left_iff, List.forall₂_map_right_iff]
      exact (forall₂_range rest).imp fun j b here => ⟨rfl, here⟩
    · rw [List.forall₂_map_left_iff]
      exact ih.imp fun ij p here => here

namespace Group

/-- One of the members at the two positions is a store. -/
def hasStore (g : Group) (ij : Nat × Nat) : Bool :=
  (g.members[ij.1]?).any (·.isStore) || (g.members[ij.2]?).any (·.isStore)

/-- The positions of two members in order of which at least one is a store, in lexicographic order. -/
def positions (g : Group) : List (Nat × Nat) :=
  (Access.positions g.members.length).filter g.hasStore

/-- The accesses that can conflict have the same number of indices. -/
def Uniform (g : Group) : Prop :=
  ∀ ij ∈ g.positions, ∀ p, ItemsAt g.members ij p → p.1.equations.length = p.2.equations.length

/-- The accesses at two positions of the group can conflict but differ in their number of indices. -/
def Mismatch (g : Group) (e : ArityMismatch) : Prop :=
  ∃ ij ∈ g.positions, ItemsAt g.members ij (e.a, e.b) ∧ e.a.equations.length ≠ e.b.equations.length

theorem conflicting_at (g : Group) : List.Forall₂ (ItemsAt g.members) g.positions (conflicting g.members) := by
  refine List.rel_filter ?_ (orderedPairs_at g.members)
  rintro ij p ⟨first, second⟩
  simp [hasStore, first, second]

theorem uniform_iff (g : Group) :
    g.Uniform ↔ ∀ p ∈ conflicting g.members, p.1.equations.length = p.2.equations.length := by
  constructor
  · intro uniform p member
    obtain ⟨ij, inPositions, here⟩ := exists_of_mem_right g.conflicting_at member
    exact uniform ij inPositions p here
  · intro same ij inPositions p here
    obtain ⟨p', member, there⟩ := exists_of_mem_right g.conflicting_at.flip inPositions
    have both : p' = p := by
      refine Prod.ext ?_ ?_
      · exact Option.some.inj (there.1.symm.trans here.1)
      · exact Option.some.inj (there.2.symm.trans here.2)
    exact both ▸ same p' member

/-- A group gives its pairs, or one that differs in its number of indices. -/
theorem pairs_cases (g : Group) : (g.Uniform ∧ g.pairs = .ok (conflicting g.members)) ∨
    (¬ g.Uniform ∧ ∃ e, g.pairs = .error e ∧ g.Mismatch e) := by
  rw [uniform_iff]
  unfold pairs
  dsimp only
  split
  · rename_i a b found
    have member := List.mem_of_find?_eq_some found
    have other : a.equations.length ≠ b.equations.length := by simpa using List.find?_some found
    obtain ⟨ij, inPositions, here⟩ := exists_of_mem_right g.conflicting_at member
    exact .inr ⟨fun uniform => other (uniform _ member), ⟨a, b⟩, rfl, ij, inPositions, here, other⟩
  · rename_i none
    exact .inl ⟨fun p member => by simpa using List.find?_eq_none.mp none p member, rfl⟩

theorem mem_of_pairs {g : Group} {pairs : List (MemoryAccess × MemoryAccess)} (paired : g.pairs = .ok pairs)
    {p : MemoryAccess × MemoryAccess} (member : p ∈ pairs) :
    p.1 ∈ g.members ∧ p.2 ∈ g.members ∧ p.1.equations.length = p.2.equations.length := by
  rcases g.pairs_cases with ⟨uniform, all⟩ | ⟨_, e, failed, _⟩
  · rw [all] at paired
    cases paired
    obtain ⟨ij, inPositions, here⟩ := exists_of_mem_right g.conflicting_at member
    exact ⟨List.mem_of_getElem? here.1, List.mem_of_getElem? here.2, uniform ij inPositions p here⟩
  · rw [failed] at paired
    cases paired

end Group

end LoopConflict.Access
