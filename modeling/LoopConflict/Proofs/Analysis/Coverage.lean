import LoopConflict.Proofs.Analysis.Pairs
import LoopConflict.Proofs.Program.Availability

/-!
Nothing is lost in an analysis. The loads and stores whose innermost loop has an induction variable are described or
dropped, each once and in order (`Splits`); the accesses are grouped by their bases, and each group gives its pairs
or one error (`Group.Gives`). No block has two innermost loops, so that in all results together a load or store is
found once or not at all (`analyze_complete`).
-/
namespace LoopConflict

open Loop (Forest LoopId)
open Program (Function Place Value)
open Evolution (Expr Context Query Ensures ensures_pure ensures_get)
open Access

/-! ### What is found in a loop -/

/-- There is a load or a store at the place. -/
def Program.Function.isAccessAt (f : Function) (p : Place) : Bool :=
  ((f.operation? p).map isAccess).getD false

/-- The loads and stores whose innermost loop is the given one, block by block and in order. -/
def Loop.Forest.accessPlaces (F : Forest) (l : LoopId) : List Place :=
  F.function.places.filter fun p => F.function.isAccessAt p && F.innermost? p.block == some l

/-- The access is the load or store at the place. -/
structure Access.MemoryAccess.At (f : Function) (p : Place) (a : MemoryAccess) : Prop where
  place : a.place = p
  isStore : a.isStore = true ↔ ∃ address value, f.operation? p = some (.store address value)

/-- The places are those of the accesses and of the dropped ones, each once and both in order. -/
inductive Splits (f : Function) : List Place → List MemoryAccess → List Dropped → Prop where
  | nil : Splits f [] [] []
  | access {p : Place} {places : List Place} {a : MemoryAccess} {accesses : List MemoryAccess} {dropped : List Dropped} :
    a.At f p → Splits f places accesses dropped → Splits f (p :: places) (a :: accesses) dropped
  | dropped {p : Place} {places : List Place} {d : Dropped} {accesses : List MemoryAccess} {dropped : List Dropped} :
    d.place = p → Splits f places accesses dropped → Splits f (p :: places) accesses (d :: dropped)

/-- The pair is that of the members at two positions of the group. -/
structure Pair.At (g : Group) (ij : Nat × Nat) (p : Pair) : Prop where
  items : ItemsAt g.members ij (p.a, p.b)
  base : p.base = g.base

/-- What a group gives: the pairs at all its positions, or no pairs and one error if some of them differ in their
    number of indices. -/
def Access.Group.Gives (g : Group) (part : List Pair × List ArityMismatch) : Prop :=
  (g.Uniform ∧ List.Forall₂ (Pair.At g) g.positions part.1 ∧ part.2 = []) ∨
    (¬ g.Uniform ∧ part.1 = [] ∧ ∃ e, part.2 = [e] ∧ g.Mismatch e)

/-- The result of a loop has the recognized variable; the accesses of the loop, if there is one; their groups, by base
    and in the order of their first members; and what each group gives, one after the other. -/
structure LoopResult.Complete (F : Forest) (ivs : Variables) (r : LoopResult) : Prop where
  iv : r.iv = ivs.ofLoop? r.loop
  accesses : Splits F.function (if r.iv.isSome then F.accessPlaces r.loop else []) r.accesses r.dropped
  bases : r.groups.map (·.base) = (r.accesses.map (·.base)).eraseDups
  distinct : (r.groups.map (·.base)).Nodup
  members : ∀ g ∈ r.groups, g.members = r.accesses.filter fun a => a.base = g.base
  gives : ∃ parts, List.Forall₂ Group.Gives r.groups parts ∧
    r.pairs = parts.flatMap (·.1) ∧ r.errors = parts.flatMap (·.2)

/-- The places of the accesses of a loop, the dropped ones last. -/
def LoopResult.places (r : LoopResult) : List Place :=
  r.accesses.map (·.place) ++ r.dropped.map (·.place)

theorem Splits.perm {f : Function} {places : List Place} {accesses : List MemoryAccess} {dropped : List Dropped}
    (splits : Splits f places accesses dropped) :
    (accesses.map (·.place) ++ dropped.map (·.place)).Perm places := by
  induction splits with
  | nil => exact .nil
  | access here _ ih =>
    rw [List.map_cons, here.place]
    exact ih.cons _
  | dropped here _ ih =>
    rw [List.map_cons, here]
    exact List.perm_middle.trans (ih.cons _)

namespace Analysis

theorem directPlaces_eq (F : Forest) (l : LoopId) :
    directPlaces F l = F.function.places.filter fun p => F.innermost? p.block == some l := by
  unfold directPlaces Forest.direct Function.places Function.blockIds
  induction List.range F.function.blocks.length with
  | nil => rfl
  | cons b blocks ih =>
    have here : (F.function.placesOf b).filter (fun p => F.innermost? p.block == some l) =
        if F.innermost? b == some l then F.function.placesOf b else [] := by
      unfold Function.placesOf
      by_cases innermost : F.innermost? b == some l <;> simp [List.filter_map, Function.comp_def, innermost]
    rw [List.flatMap_cons, List.filter_append, here, ← ih]
    by_cases innermost : F.innermost? b == some l <;> simp [innermost]

/-! ### Accesses -/

theorem describe_at (o : Options) (ivs : Variables) (l : LoopId) (p : Place) :
    Ensures State.context (describe o ivs l p) fun answer c =>
      (∀ a : MemoryAccess, answer = .ok a → a.At c.function p) ∧ ∀ d : Dropped, answer = .error d → d.place = p := by
  refine ensures_get fun s => ?_
  simp only [pure_bind]
  split
  · refine (describeSteps_ensures l ivs _).bind fun answer => ?_
    split
    · refine ensures_pure fun c _ later => ⟨fun a described => (by cases described), fun d dropped => ?_⟩
      cases dropped
      rfl
    · refine ensures_pure fun c _ later => ⟨fun a described => ?_, fun d dropped => (by cases dropped)⟩
      cases described
      refine ⟨rfl, ?_⟩
      rw [later.function]
      split <;> simp_all
  · refine (baseValue_ensures l _).bind fun v => ?_
    refine (ask_ensures (Query.settles_evolution v).ensures).bind fun e => ?_
    refine (describeSteps_ensures l ivs _).bind fun answer => ?_
    split
    · refine ensures_pure fun c _ _ _ later => ⟨fun a described => (by cases described), fun d dropped => ?_⟩
      cases dropped
      rfl
    · refine ensures_pure fun c _ _ _ later => ⟨fun a described => ?_, fun d dropped => (by cases dropped)⟩
      cases described
      refine ⟨rfl, ?_⟩
      rw [later.function]
      split <;> simp_all

theorem describeAll_splits (o : Options) (ivs : Variables) (l : LoopId) (places : List Place) :
    Ensures State.context (describeAll o ivs l places) fun answer c =>
      Splits c.function (places.filter c.function.isAccessAt) answer.1 answer.2 := by
  induction places with
  | nil => exact ensures_pure fun _ => .nil
  | cons p rest ih =>
    refine (tellValue_ensures o l p).bind fun _ => ensures_get fun s => ?_
    have same : ∀ c, s.context.Extends c → c.function.isAccessAt p = s.context.function.isAccessAt p :=
      fun c later => by rw [later.function]
    dsimp only
    split
    · rename_i access
      refine (describe_at o ivs l p).bind fun answer => ?_
      split
      · refine (tell_ensures o l _).bind fun _ => ih.bind fun answer => ensures_pure ?_
        intro c others _ here later _
        rw [List.filter_cons_of_pos ((same c later).trans access)]
        exact .dropped (here.2 _ rfl) others
      · refine (tell_ensures o l _).bind fun _ => ih.bind fun answer => ensures_pure ?_
        intro c others _ here later _
        rw [List.filter_cons_of_pos ((same c later).trans access)]
        exact .access (here.1 _ rfl) others
    · rename_i other
      refine ih.mono fun answer c others later _ => ?_
      rw [List.filter_cons_of_neg fun access => other ((same c later).symm.trans access)]
      exact others

/-! ### Pairs -/

theorem solvePairs_at (o : Options) (l : LoopId) (g : Group) {positions : List (Nat × Nat)}
    {pairs : List (MemoryAccess × MemoryAccess)} (placed : List.Forall₂ (ItemsAt g.members) positions pairs) :
    Ensures State.context (solvePairs o l g.base pairs) fun answer _ => List.Forall₂ (Pair.At g) positions answer := by
  induction placed with
  | nil => exact ensures_pure fun _ => .nil
  | @cons _ pair _ _ here _ ih =>
    obtain ⟨a, b⟩ := pair
    refine (ask_ensures (pairModel_ensures o.label a b)).bind fun model =>
      (tell_ensures o l _).bind fun _ => ih.bind fun answer => ensures_pure ?_
    intro _ others _ _
    exact .cons ⟨here, rfl⟩ others

/-- Each group gives its part, whatever the others give. -/
theorem solveGroups_gives (o : Options) (l : LoopId) (groups : List Group) :
    Ensures State.context (solveGroups o l groups) fun answer _ => ∃ parts, List.Forall₂ Group.Gives groups parts ∧
      answer.1 = parts.flatMap (·.1) ∧ answer.2 = parts.flatMap (·.2) := by
  induction groups with
  | nil => exact ensures_pure fun _ => ⟨[], .nil, rfl, rfl⟩
  | cons g rest ih =>
    rw [solveGroups]
    rcases g.pairs_cases with ⟨uniform, paired⟩ | ⟨mixed, e, failed, mismatch⟩
    · rw [paired]
      refine (solvePairs_at o l g g.conflicting_at).bind fun first => ih.bind fun answer => ensures_pure ?_
      rintro _ ⟨parts, given, pairs, errors⟩ solved
      exact ⟨(first, []) :: parts, .cons (.inl ⟨uniform, solved, rfl⟩) given, by simp [pairs], by simp [errors]⟩
    · rw [failed]
      refine (tell_ensures o l _).bind fun _ => ih.bind fun answer => ensures_pure ?_
      rintro _ ⟨parts, given, pairs, errors⟩ _
      exact ⟨([], [e]) :: parts, .cons (.inr ⟨mixed, rfl, e, rfl, mismatch⟩) given, by simp [pairs], by simp [errors]⟩

/-! ### Loops -/

theorem analyzeLoop_complete (o : Options) (ivs : Variables) (l : LoopId) :
    Ensures State.context (analyzeLoop o ivs l) fun r c => r.loop = l ∧ r.Complete c.forest ivs := by
  refine analyzeLoop_ensures_of o ivs l (fun none c => ⟨rfl, ?_⟩) fun F iv found => ?_
  · exact ⟨none.symm, .nil, rfl, .nil, fun g member => (by cases member), [], .nil, rfl, rfl⟩
  · refine (describeAll_splits o ivs l _).bind fun described => (solveGroups_gives o l _).bind fun solved =>
      (ask_ensures (conflictModel?_ensures o.label _)).bind fun model => ensures_pure ?_
    rintro c _ gives splits rfl
    rw [directPlaces_eq, List.filter_filter] at splits
    have bases := map_base_groupByBase described.1
    exact ⟨rfl, found.symm, splits, bases, bases ▸ nodup_eraseDups _, fun g => members_of_mem_groupByBase, gives⟩

end Analysis

theorem analyze_each (f : Function) (o : Options) :
    List.Forall₂ (fun l r => r.loop = l ∧ r.Complete (Forest.ofFunction f) (inductionVariables f))
      (Forest.ofFunction f).ids (analyze f o).loops := by
  have each := analyze_forall f o (Analysis.analyzeLoop_complete o (inductionVariables f))
  rw [analyze_forest] at each
  exact each

/-! ### Places -/

/-- There is a load or a store at the place, and its innermost loop has a variable. -/
def Loop.Forest.examines (F : Forest) (ivs : Variables) (p : Place) : Bool :=
  F.function.isAccessAt p && ((F.innermost? p.block).bind ivs.ofLoop?).isSome

theorem mem_accessPlaces {F : Forest} {l : LoopId} {p : Place} :
    p ∈ F.accessPlaces l ↔ F.function.isAccessAt p = true ∧ F.innermost? p.block = some l := by
  have place : F.function.isAccessAt p = true → p ∈ F.function.places := by
    intro access
    cases found : F.function.operation? p with
    | some operation => exact Function.mem_places_of_operation? found
    | none => simp [Function.isAccessAt, found] at access
  rw [Forest.accessPlaces, List.mem_filter, Bool.and_eq_true, beq_iff_eq]
  exact ⟨And.right, fun here => ⟨place here.1, here⟩⟩

theorem mem_ids_of_innermost? {F : Forest} {b l : Nat} (innermost : F.innermost? b = some l) : l ∈ F.ids :=
  (List.mem_filter.mp (List.mem_of_getLast? innermost)).1

/-- The results have the accesses that are examined, in some order. -/
theorem perm_places {F : Forest} {ivs : Variables} {ids : List LoopId} {loops : List LoopResult}
    (each : List.Forall₂ (fun l r => r.loop = l ∧ r.Complete F ivs) ids loops) :
    (loops.flatMap LoopResult.places).Perm
      (ids.flatMap fun l => if (ivs.ofLoop? l).isSome then F.accessPlaces l else []) := by
  induction each with
  | nil => exact .nil
  | @cons l r _ _ here _ ih =>
    obtain ⟨rfl, complete⟩ := here
    have split := complete.accesses.perm
    rw [complete.iv] at split
    exact split.append ih

theorem nodup_examined (F : Forest) (ivs : Variables) :
    (F.ids.flatMap fun l => if (ivs.ofLoop? l).isSome then F.accessPlaces l else []).Nodup := by
  have inside : ∀ {l p}, (p ∈ if (ivs.ofLoop? l).isSome then F.accessPlaces l else []) → F.innermost? p.block = some l := by
    intro l p member
    split at member
    · exact (mem_accessPlaces.mp member).2
    · cases member
  refine List.nodup_flatMap.mpr ⟨fun l _ => ?_, List.nodup_range.imp fun {l l'} other p member member' => other ?_⟩
  · split
    · exact F.function.nodup_places.filter _
    · exact .nil
  · exact Option.some.inj ((inside member).symm.trans (inside member'))

theorem mem_examined {F : Forest} {ivs : Variables} {p : Place} :
    (p ∈ F.ids.flatMap fun l => if (ivs.ofLoop? l).isSome then F.accessPlaces l else []) ↔
      F.examines ivs p = true := by
  rw [List.mem_flatMap, Forest.examines, Bool.and_eq_true]
  constructor
  · rintro ⟨l, _, member⟩
    split at member
    · rename_i known
      obtain ⟨access, innermost⟩ := mem_accessPlaces.mp member
      exact ⟨access, by rw [innermost]; exact known⟩
    · cases member
  · rintro ⟨access, known⟩
    cases innermost : F.innermost? p.block with
    | none => simp [innermost] at known
    | some l =>
      rw [innermost, Option.bind_some] at known
      refine ⟨l, mem_ids_of_innermost? innermost, ?_⟩
      rw [if_pos known]
      exact mem_accessPlaces.mpr ⟨access, innermost⟩

/-- In all results together a place is found once if its load or store is examined, and else not at all. -/
theorem count_places (f : Function) (o : Options) (p : Place) :
    ((analyze f o).loops.flatMap LoopResult.places).count p =
      if (Forest.ofFunction f).examines (inductionVariables f) p then 1 else 0 := by
  rw [(perm_places (analyze_each f o)).count_eq, (nodup_examined _ _).count]
  simp only [mem_examined]

/-- Every loop has a complete result, and no load or store is lost or found twice. -/
theorem analyze_complete (f : Function) (o : Options) :
    (analyze f o).loops.map (·.loop) = (Forest.ofFunction f).ids ∧
      (∀ r ∈ (analyze f o).loops, r.Complete (Forest.ofFunction f) (inductionVariables f)) ∧
      ∀ p, ((analyze f o).loops.flatMap LoopResult.places).count p =
        if (Forest.ofFunction f).examines (inductionVariables f) p then 1 else 0 := by
  have each := analyze_each f o
  refine ⟨?_, fun r member => ?_, count_places f o⟩
  · refine List.forall₂_eq_eq_eq ▸ ?_
    exact List.forall₂_map_left_iff.mpr (each.flip.imp fun r l here => here.1)
  · obtain ⟨l, _, _, complete⟩ := exists_of_mem_right each member
    exact complete

/-- Rows of a matrix are read as a whole and written element by element, and the elements of a slice are read, written
    and used as indices. -/
def uneven : Function where
  name := "uneven"
  receiver := none
  types := []
  params := [⟨"m", .pointer (.array (.array (.basic .int) 9) 9), 0⟩, ⟨"a", .slice (.basic .int), 0⟩]
  free := []
  globals := []
  constants := [⟨.int 0, .basic .int⟩, ⟨.int 1, .basic .int⟩, ⟨.int 9, .basic .int⟩]
  blocks := [
    ⟨"entry", [], [1], [⟨.jump, none, 0⟩]⟩,
    ⟨"for.loop", [0, 2], [2, 3], [
      ⟨.phi [.const 0, .result ⟨2, 9⟩] "i", some ("t0", .basic .int), 0⟩,
      ⟨.binary (.compare .lt) (.result ⟨1, 0⟩) (.const 2), some ("t1", .basic .bool), 0⟩,
      ⟨.branch (.result ⟨1, 1⟩), none, 0⟩]⟩,
    ⟨"for.body", [1], [1], [
      ⟨.indexAddress (.param 0) (.result ⟨1, 0⟩), some ("t2", .pointer (.array (.basic .int) 9)), 0⟩,
      ⟨.load (.result ⟨2, 0⟩), some ("t3", .array (.basic .int) 9), 0⟩,
      ⟨.indexAddress (.result ⟨2, 0⟩) (.result ⟨1, 0⟩), some ("t4", .pointer (.basic .int)), 0⟩,
      ⟨.store (.result ⟨2, 2⟩) (.result ⟨1, 0⟩), none, 0⟩,
      ⟨.indexAddress (.param 1) (.result ⟨1, 0⟩), some ("t5", .pointer (.basic .int)), 0⟩,
      ⟨.load (.result ⟨2, 4⟩), some ("t6", .basic .int), 0⟩,
      ⟨.indexAddress (.param 1) (.result ⟨2, 5⟩), some ("t7", .pointer (.basic .int)), 0⟩,
      ⟨.store (.result ⟨2, 6⟩) (.result ⟨1, 0⟩), none, 0⟩,
      ⟨.store (.result ⟨2, 4⟩) (.result ⟨1, 0⟩), none, 0⟩,
      ⟨.binary .add (.result ⟨1, 0⟩) (.const 1), some ("t8", .basic .int), 0⟩,
      ⟨.jump, none, 0⟩]⟩,
    ⟨"for.done", [1], [], [⟨.leave [], none, 0⟩]⟩]
  recover := none

theorem uneven_complete : ∃ r ∈ (analyze uneven {}).loops, r.Complete (Forest.ofFunction uneven) (inductionVariables uneven) ∧
    r.dropped.map (·.place) = [⟨2, 7⟩] ∧ r.groups.map (·.members.map (·.place)) = [[⟨2, 1⟩, ⟨2, 3⟩], [⟨2, 5⟩, ⟨2, 8⟩]] ∧
    r.pairs.map (fun p => (p.a.place, p.b.place)) = [(⟨2, 5⟩, ⟨2, 8⟩)] ∧
    r.errors.map (fun e => (e.a.place, e.b.place)) = [(⟨2, 1⟩, ⟨2, 3⟩)] := by
  have found : ∃ r ∈ (analyze uneven {}).loops, r.dropped.map (·.place) = [⟨2, 7⟩] ∧
      r.groups.map (·.members.map (·.place)) = [[⟨2, 1⟩, ⟨2, 3⟩], [⟨2, 5⟩, ⟨2, 8⟩]] ∧
      r.pairs.map (fun p => (p.a.place, p.b.place)) = [(⟨2, 5⟩, ⟨2, 8⟩)] ∧
      r.errors.map (fun e => (e.a.place, e.b.place)) = [(⟨2, 1⟩, ⟨2, 3⟩)] := by decide +kernel
  obtain ⟨r, member, facts⟩ := found
  exact ⟨r, member, (analyze_complete uneven {}).2.1 r member, facts⟩

end LoopConflict
