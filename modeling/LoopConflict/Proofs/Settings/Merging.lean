import LoopConflict.Settings.Lookup
import Mathlib.Data.List.Destutter
import Mathlib.Data.List.Sort

/-!
How layers become settings. The sources are found the uppermost first, turned around by exchanging the ends
(`toList_swapEnds`) and merged from the lowest one on, which comes to laying each layer over what is below it
(`merged_ofLayers`). The list of patterns is sorted, and names that are the same as the one before are dropped. That
leaves each name once, in increasing order, as if the names were put in one by one (`normalized_eq_sortedNames`).
-/
namespace LoopConflict

/-! ### Sources -/

namespace SettingsSource

/-- After `k` exchanges the outer `k` sources on both sides are where they belong. -/
theorem getElem?_swapOuter (sources : Array SettingsSource) {k : Nat} (half : k ≤ sources.size / 2) (j : Nat) :
    (swapOuter k sources)[j]? = if j < sources.size ∧ (j < k ∨ sources.size ≤ j + k) then
      sources[sources.size - 1 - j]? else sources[j]? := by
  induction k generalizing j with
  | zero =>
    rw [if_neg (by omega)]
    rfl
  | succ k ih =>
    have before := ih (by omega)
    have size := size_swapOuter k sources
    rw [swapOuter_succ]
    generalize swapOuter k sources = a at before size ⊢
    rw [Array.swapIfInBounds, dif_pos (by omega), dif_pos (by omega), Array.getElem?_swap,
      ← Array.getElem?_eq_getElem, ← Array.getElem?_eq_getElem, before, before, before, size]
    split
    · rename_i last
      subst last
      rw [if_neg (by omega), if_pos (by omega)]
      congr 1
      omega
    · split
      · rename_i first
        subst first
        rw [if_neg (by omega), if_pos (by omega)]
      · congr 1
        exact propext ⟨fun h => by omega, fun h => by omega⟩

theorem toList_swapEnds (sources : Array SettingsSource) : (swapEnds sources).toList = sources.toList.reverse := by
  apply List.ext_getElem?
  intro j
  rw [Array.getElem?_toList, swapEnds, getElem?_swapOuter sources (Nat.le_refl _)]
  by_cases inside : j < sources.size
  · rw [List.getElem?_reverse (by simpa using inside), Array.getElem?_toList, Array.length_toList]
    split
    · rfl
    · -- The one in the middle stays where it is.
      congr 1
      omega
  · rw [if_neg (by omega), Array.getElem?_eq_none (by omega), List.getElem?_eq_none (by simpa using inside)]

theorem settings_foldl_merge (layers : List SettingsLayer) (s : SettingsSource) :
    ((layers.map ofLayer).foldl merge s).settings = layers.foldl Settings.override s.settings := by
  induction layers generalizing s with
  | nil => rfl
  | cons l rest ih => exact ih _

/-- Merging the sources lays each layer over what is below it. -/
theorem merged_ofLayers (layers : List SettingsLayer) :
    merged (ofLayers layers) (ofLayers_ne_nil layers) = Settings.ofLayers layers := by
  have turned : ofLayers layers = defaults :: (layers.reverse.map ofLayer) := by
    rw [ofLayers, toList_swapEnds, List.reverse_append, List.map_reverse]
    rfl
  calc merged (ofLayers layers) (ofLayers_ne_nil layers)
      = ((layers.reverse.map ofLayer).foldl merge defaults).settings := by
        simp only [turned]
        rfl
    _ = layers.reverse.foldl Settings.override .defaults := settings_foldl_merge _ _
    _ = Settings.ofLayers layers := List.foldl_reverse

end SettingsSource

/-! ### Names in order -/

theorem mem_insertName {x y : String} {names : List String} : y ∈ insertName x names ↔ y = x ∨ y ∈ names := by
  induction names with
  | nil => simp [insertName]
  | cons z rest ih =>
    rw [insertName]
    split
    · simp
    · split
      · rename_i same
        simp [same]
      · simp only [List.mem_cons, ih]
        constructor
        · rintro (here | here | here)
          · exact .inr (.inl here)
          · exact .inl here
          · exact .inr (.inr here)
        · rintro (here | here | here)
          · exact .inr (.inl here)
          · exact .inl here
          · exact .inr (.inr here)

theorem mem_sortedNames {x : String} {names : List String} : x ∈ sortedNames names ↔ x ∈ names := by
  induction names with
  | nil => simp [sortedNames]
  | cons y rest ih =>
    have step : sortedNames (y :: rest) = insertName y (sortedNames rest) := rfl
    rw [step, mem_insertName, ih, List.mem_cons]

theorem pairwise_insertName {x : String} {names : List String} (ordered : names.Pairwise (· < ·)) :
    (insertName x names).Pairwise (· < ·) := by
  induction names with
  | nil => exact List.pairwise_singleton _ _
  | cons y rest ih =>
    obtain ⟨first, later⟩ := List.pairwise_cons.mp ordered
    rw [insertName]
    split
    · rename_i less
      refine List.pairwise_cons.mpr ⟨fun z member => ?_, ordered⟩
      rcases List.mem_cons.mp member with rfl | member
      · exact less
      · exact String.lt_trans less (first z member)
    · rename_i notLess
      split
      · exact ordered
      · rename_i different
        refine List.pairwise_cons.mpr ⟨fun z member => ?_, ih later⟩
        rcases mem_insertName.mp member with rfl | member
        · exact Std.lt_of_le_of_ne (String.not_lt.mp notLess) (Ne.symm different)
        · exact first z member

theorem pairwise_sortedNames (names : List String) : (sortedNames names).Pairwise (· < ·) := by
  induction names with
  | nil => exact .nil
  | cons x rest ih => exact pairwise_insertName ih

/-- Comparing each name with the one at the index before it drops what repeats the name before. -/
theorem filterMap_zipIdx_eq_destutter' (before : List String) (x : String) (names : List String) :
    x :: (names.zipIdx before.length).filterMap (fun p =>
      if (before ++ x :: names)[p.2]? = some p.1 then none else some p.1) = names.destutter' (· ≠ ·) x := by
  induction names generalizing before x with
  | nil => rfl
  | cons y rest ih =>
    have here : (before ++ x :: y :: rest)[before.length]? = some x := by simp
    have later := ih (before ++ [x]) y
    rw [List.append_assoc, List.singleton_append, List.length_append, List.length_singleton] at later
    rw [List.zipIdx_cons, List.filterMap_cons, here, List.destutter'_cons]
    by_cases same : x = y
    · subst same
      simpa using later
    · rw [if_pos same]
      simpa [same] using later

theorem withoutRepeats_eq_destutter (names : List String) : withoutRepeats names = names.destutter (· ≠ ·) := by
  cases names with
  | nil => rfl
  | cons x rest => exact filterMap_zipIdx_eq_destutter' [] x rest

theorem not_lt_trans {x y z : String} (first : ¬ y < x) (second : ¬ z < y) : ¬ z < x := by
  intro less
  by_cases between : y < z
  · exact first (String.lt_trans between less)
  · exact first (String.le_antisymm (String.not_lt.mp between) (String.not_lt.mp second) ▸ less)

theorem pairwise_inOrder (names : List String) : (inOrder names).Pairwise fun x y => ¬ y < x := by
  have sorted := @List.pairwise_mergeSort String (fun x y => !decide (y < x)) ?_ ?_ names
  · refine sorted.imp fun less => ?_
    rwa [Bool.not_eq_true', decide_eq_false_iff_not] at less
  · intro x y z first second
    rw [Bool.not_eq_true', decide_eq_false_iff_not] at first second ⊢
    exact not_lt_trans first second
  · intro x y
    rw [Bool.or_eq_true, Bool.not_eq_true', Bool.not_eq_true', decide_eq_false_iff_not, decide_eq_false_iff_not]
    by_cases less : y < x
    · exact .inr fun more => String.lt_irrefl x (String.lt_trans more less)
    · exact .inl less

/-- Sorting a list and dropping repeats leaves the names that it has, in increasing order and each once. -/
theorem normalized_eq_sortedNames (list : List String) : normalized list = sortedNames list := by
  rw [normalized]
  split
  · have antisymm : Std.Antisymm fun x y : String => ¬ y < x :=
      ⟨fun x y first second => String.le_antisymm (String.not_lt.mp first) (String.not_lt.mp second)⟩
    rw [withoutRepeats_eq_destutter, (pairwise_inOrder list).destutter_eq_dedup]
    have once := (inOrder list).nodup_dedup
    have ordered : (inOrder list).dedup.Pairwise (· < ·) := by
      refine (((pairwise_inOrder list).sublist (List.dedup_sublist _)).and once).imp fun ⟨notLess, ne⟩ => ?_
      exact Std.lt_of_le_of_ne (String.not_lt.mp notLess) ne
    have members : (inOrder list).dedup.Perm (sortedNames list) := by
      refine (List.perm_ext_iff_of_nodup once ((pairwise_sortedNames list).imp fun less same => ?_)).mpr fun x => ?_
      · exact String.lt_irrefl _ (same ▸ less)
      · rw [List.mem_dedup, mem_sortedNames]
        exact (List.mergeSort_perm list _).mem_iff
    exact members.eq_of_pairwise (fun x y _ _ less more => absurd (String.lt_trans less more) (String.lt_irrefl x))
      ordered (pairwise_sortedNames list)
  · rename_i short
    match list, short with
    | [], _ => rfl
    | [x], _ => rfl
    | x :: y :: rest, short => exact absurd (by simp) short

end LoopConflict
