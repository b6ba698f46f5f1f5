import LoopConflict.Evolution.Scope

/-!
Answers stay. A context only grows: the forest is the same, and a value keeps the evolution that was
found for it (`Context.Extends`). What is recorded about recurrences may change the marks on
expressions that are made later but not the expressions themselves (`Plan.Alike.agree`). So a question that
was answered has the same answer in every later context (`Settles`): this holds of evolutions, trip
counts and expressions seen from a scope. It does not hold of the number of an unknown value, which
is given out in the order in which values are met; such questions only let the context grow.
-/
namespace LoopConflict.Evolution

open Loop (Forest LoopId)
open Program (Function Value Place Operation)

variable {α β : Type}

/-! ### Making expressions -/

/-- Both ways to make something have the same answer, whatever is recorded before. -/
def Build.Agree (x y : Build α) : Prop :=
  ∀ t t', (x t).map Prod.fst = (y t').map Prod.fst

namespace Build

theorem agree_pure (a : α) : Agree (pure a : Build α) (pure a) :=
  fun _ _ => rfl

theorem agree_failure : Agree (failure : Build α) failure :=
  fun _ _ => rfl

theorem Agree.bind {x y : Build α} {k l : α → Build β} (first : Agree x y) (rest : ∀ a, Agree (k a) (l a)) :
    Agree (x >>= k) (y >>= l) := by
  intro t t'
  have same := first t t'
  change ((x t).bind fun p => k p.1 p.2).map Prod.fst = ((y t').bind fun p => l p.1 p.2).map Prod.fst
  cases here : x t with
  | none =>
    rw [here] at same
    rw [Option.map_eq_none_iff.mp same.symm]
    rfl
  | some p =>
    rw [here] at same
    obtain ⟨p', there, equal⟩ := Option.map_eq_some_iff.mp same.symm
    rw [there]
    change (k p.1 p.2).map Prod.fst = (l p'.1 p'.2).map Prod.fst
    rw [equal]
    exact rest p.1 p.2 p'.2

end Build

/-- The plans differ at most in the marks of what they record. -/
inductive Plan.Alike : Plan α → Plan α → Prop where
  | done (a : α) : Alike (.done a) (.done a)
  | record (e : Expr) (noWrap noWrap' : Table → Bool) {rest rest' : Plan α} (alike : Alike rest rest') :
      Alike (.record e noWrap rest) (.record e noWrap' rest')
  | call (op : Combination) (ops : List Expr) {rest rest' : Expr → Plan α} (alike : ∀ e, Alike (rest e) (rest' e)) :
      Alike (.call op ops rest) (.call op ops rest')

namespace Plan

theorem Alike.refl (p : Plan α) : p.Alike p := by
  induction p with
  | done a => exact .done a
  | record e noWrap rest ih => exact .record e noWrap noWrap ih
  | call op ops rest ih => exact .call op ops ih

theorem alike_recurrence (l : LoopId) (start step : Expr) (noWrap noWrap' : Table → Bool) :
    (recurrence l start step noWrap).Alike (recurrence l start step noWrap') := by
  unfold recurrence
  split
  · exact .done start
  · exact .record _ _ _ (.done _)

theorem Alike.agree {self : Callee} (agree : ∀ op ops, Build.Agree (self op ops) (self op ops)) {p p' : Plan α}
    (alike : p.Alike p') : Build.Agree (p.run self) (p'.run self) := by
  induction alike with
  | done a => exact Build.agree_pure a
  | record e noWrap noWrap' _ ih => exact fun t t' => ih (t.record e (noWrap t)) (t'.record e (noWrap' t'))
  | call op ops _ ih => exact (agree op ops).bind ih

end Plan

namespace Build

theorem agree_canonical (F : Forest) (depth : Nat) (op : Combination) (ops : List Expr) :
    Agree (canonical F depth op ops) (canonical F depth op ops) := by
  induction depth generalizing op ops with
  | zero => exact agree_failure
  | succ depth ih => exact (Plan.Alike.refl (op.plan F ops)).agree ih

end Build

/-! ### Contexts -/

/-- The later context is about the same function and gives every evolution that was known before. -/
structure Context.Extends (c c' : Context) : Prop where
  forest : c'.forest = c.forest
  memo : ∀ v e, c.memo.lookup v = some e → c'.memo.lookup v = some e

namespace Context.Extends

theorem refl (c : Context) : c.Extends c :=
  ⟨rfl, fun _ _ known => known⟩

theorem trans {a b c : Context} (first : a.Extends b) (second : b.Extends c) : a.Extends c :=
  ⟨second.forest.trans first.forest, fun v e known => second.memo v e (first.memo v e known)⟩

theorem function {c c' : Context} (later : c.Extends c') : c'.function = c.function :=
  congrArg Forest.function later.forest

/-- A change that leaves the forest and the memory alone. -/
theorem of_eq {c c' : Context} (forest : c'.forest = c.forest) (memo : c'.memo = c.memo) : c.Extends c' :=
  ⟨forest, fun v e known => by rw [memo, known]⟩

end Context.Extends

/-- The question lets every context grow. -/
def Grows (q : Query α) : Prop :=
  ∀ c : Context, c.Extends (q c).2

/-- Once the first question has been asked, the second one has the same answer in every later
    context. -/
def Settles (q r : Query α) : Prop :=
  ∀ c : Context, c.Extends (q c).2 ∧ ∀ c', (q c).2.Extends c' → (r c').1 = (q c).1 ∧ c'.Extends (r c').2

theorem Settles.grows {q r : Query α} (settles : Settles q r) : Grows q :=
  fun c => (settles c).1

theorem grows_pure (a : α) : Grows (pure a : Query α) :=
  fun c => .refl c

theorem Grows.bind {q : Query α} {k : α → Query β} (first : Grows q) (rest : ∀ a, Grows (k a)) :
    Grows (q >>= k) :=
  fun c => (first c).trans (rest (q c).1 (q c).2)

theorem grows_get {k : Context → Query α} (rest : ∀ c, Grows (k c)) : Grows (get >>= k) :=
  fun c => rest c c

theorem settles_pure (a : α) : Settles (pure a : Query α) (pure a) :=
  fun c => ⟨.refl c, fun c' _ => ⟨rfl, .refl c'⟩⟩

theorem Settles.bind {q r : Query α} {k l : α → Query β} (first : Settles q r)
    (rest : ∀ a, Settles (k a) (l a)) : Settles (q >>= k) (r >>= l) := by
  intro c
  obtain ⟨grown, again⟩ := first c
  obtain ⟨grown', again'⟩ := rest (q c).1 (q c).2
  refine ⟨grown.trans grown', fun c' later => ?_⟩
  obtain ⟨same, further⟩ := again c' (grown'.trans later)
  obtain ⟨same', further'⟩ := again' (r c').2 (later.trans further)
  change (l (r c').1 (r c').2).1 = (k (q c).1 (q c).2).1 ∧ c'.Extends (l (r c').1 (r c').2).2
  rw [same]
  exact ⟨same', further.trans further'⟩

/-- A question may look at what the context keeps. -/
theorem settles_get {k l : Context → Query α} (rest : ∀ c c', c.Extends c' → Settles (k c) (l c')) :
    Settles (get >>= k) (get >>= l) := by
  intro c
  have grown := (rest c c (.refl c) c).1
  refine ⟨grown, fun c' later => ?_⟩
  exact (rest c c' (grown.trans later) c).2 c' later

/-- Which recurrences do not wrap may be asked as long as the answer does not depend on it. -/
theorem settles_noWrap {e : Expr} {k l : Bool → Query α} (rest : ∀ b b', Settles (k b) (l b')) :
    Settles (Query.noWrap e >>= k) (Query.noWrap e >>= l) :=
  settles_get fun _ _ _ => rest _ _

theorem settles_build {plain : Expr} {p p' : Plan Expr} (alike : p.Alike p') :
    Settles (build plain p) (build plain p') := by
  have grown : ∀ (p : Plan Expr) (c : Context), c.Extends (build plain p c).2 := by
    intro p c
    unfold build
    split <;> exact .of_eq rfl rfl
  have answer : ∀ (p : Plan Expr) (c : Context),
      (build plain p c).1 = ((p.run (together c.forest) c.table).map Prod.fst).getD plain := by
    intro p c
    cases here : p.run (together c.forest) c.table <;> simp [build, here]
  intro c
  refine ⟨grown p c, fun c' later => ⟨?_, grown p' c'⟩⟩
  have agree := alike.agree fun op ops => Build.agree_canonical c.forest (enough ops) op ops
  rw [answer, answer, later.forest, (grown p c).forest]
  exact congrArg (Option.getD · plain) (agree c.table c'.table).symm

namespace Query

theorem settles_const (n : Int64) : Settles (const n) (const n) :=
  settles_build (.refl _)

theorem settles_recur (l : LoopId) (start step : Expr) (noWrap noWrap' : Bool) :
    Settles (recur l start step noWrap) (recur l start step noWrap') :=
  settles_build (Plan.alike_recurrence l start step _ _)

theorem settles_combine (op : Combination) (ops : List Expr) : Settles (combine op ops) (combine op ops) :=
  settles_build (.refl _)

theorem settles_sum (ops : List Expr) : Settles (sum ops) (sum ops) :=
  settles_combine .sum ops

theorem settles_product (ops : List Expr) : Settles (product ops) (product ops) :=
  settles_combine .product ops

theorem settles_negate (e : Expr) : Settles (negate e) (negate e) :=
  (settles_const (-1)).bind fun k => settles_product [k, e]

theorem settles_difference (x y : Expr) : Settles (difference x y) (difference x y) :=
  (settles_negate y).bind fun n => settles_sum [x, n]

theorem grows_unknown (v : Value) : Grows (unknown v) := by
  intro c
  unfold unknown
  split <;> exact .of_eq rfl rfl

theorem unknown_memo (v : Value) (c : Context) : (unknown v c).2.memo = c.memo := by
  unfold unknown
  split <;> rfl

theorem grows_noWrap (e : Expr) : Grows (noWrap e) :=
  grows_get fun _ => grows_pure _

theorem grows_isInvariant (l : LoopId) (e : Expr) : Grows (isInvariant l e) :=
  grows_get fun _ => grows_pure _

end Query

/-! ### Evolutions -/

section

variable {self : Value → Query Expr} (grows : ∀ v, Grows (self v))
include grows

theorem grows_evolutionOfCounting (phi : Place) (counting : Counting) :
    Grows (evolutionOfCounting self phi counting) := by
  have recurs : ∀ step, Grows (do
      if ← Query.isInvariant counting.loop step then
        let start ← self counting.start
        Query.recur counting.loop start step true
      else Query.unknown (.result phi)) := by
    intro step
    refine (Query.grows_isInvariant counting.loop step).bind fun invariant => ?_
    split
    · exact (grows counting.start).bind fun start => (Query.settles_recur _ _ _ _ true).grows
    · exact Query.grows_unknown _
  refine (grows counting.step).bind fun step => ?_
  dsimp only
  split
  · exact (Query.settles_negate step).grows.bind recurs
  · exact (grows_pure step).bind recurs

theorem grows_evolutionOfOperation (F : Forest) (p : Place) (operation : Operation) :
    Grows (evolutionOfOperation self F p operation) := by
  unfold evolutionOfOperation
  dsimp only
  split
  · exact (grows _).bind fun a => (grows _).bind fun b => (Query.settles_sum [a, b]).grows
  · exact (grows _).bind fun a => (grows _).bind fun b => (Query.settles_difference a b).grows
  · exact (grows _).bind fun a => (grows _).bind fun b => (Query.settles_product [a, b]).grows
  · split
    · split
      · exact (grows _).bind fun a => (Query.settles_const _).grows.bind fun b =>
          (Query.settles_product [a, b]).grows
      · exact Query.grows_unknown _
    · exact Query.grows_unknown _
  · split
    · exact grows _
    · exact Query.grows_unknown _
  · split
    · exact grows _
    · exact Query.grows_unknown _
  · split
    · exact grows_evolutionOfCounting grows p _
    · exact Query.grows_unknown _
  · exact Query.grows_unknown _

theorem grows_findEvolution (v : Value) : Grows (findEvolution self v) := by
  refine grows_get fun c => ?_
  dsimp only
  split
  · split
    · split
      · exact (Query.settles_const _).grows
      · exact Query.grows_unknown _
    · split
      · exact grows_evolutionOfOperation grows _ _ _
      · exact Query.grows_unknown _
    · exact Query.grows_unknown _
  · exact Query.grows_unknown _

end

/-- Evolutions that are found while the one of `v` is not known yet stay when it becomes known. -/
theorem Context.Extends.of_remember {c c' : Context} {v : Value} {e : Expr} (u : Expr) (fresh : c.memo.lookup v = none)
    (grown : Context.Extends { c with memo := (v, u) :: c.memo } c') :
    c.Extends { c' with memo := (v, e) :: c'.memo } := by
  refine ⟨grown.forest, fun w x known => ?_⟩
  have other : (w == v) = false := by
    refine beq_false_of_ne fun same => ?_
    rw [same, fresh] at known
    cases known
  have kept := grown.memo w x (by simpa [List.lookup_cons, other] using known)
  simpa [List.lookup_cons, other] using kept

theorem evolutionWithin_succ (depth : Nat) (v : Value) (c : Context) :
    evolutionWithin (depth + 1) v c =
      match c.memo.lookup v with
      | some e => (e, c)
      | none =>
        let seeded : Context :=
          { (Query.unknown v c).2 with memo := (v, (Query.unknown v c).1) :: (Query.unknown v c).2.memo }
        let found := findEvolution (evolutionWithin depth) v seeded
        (found.1, { found.2 with memo := (v, found.1) :: found.2.memo }) := by
  change (match c.memo.lookup v with
    | some e => (pure e : Query Expr)
    | none => _) c = _
  cases c.memo.lookup v <;> rfl

theorem grows_evolutionWithin (depth : Nat) (v : Value) : Grows (evolutionWithin depth v) := by
  induction depth generalizing v with
  | zero => exact Query.grows_unknown v
  | succ depth ih =>
    intro c
    rw [evolutionWithin_succ]
    cases known : c.memo.lookup v with
    | some e => exact .refl c
    | none =>
      -- The value counts as unknown while its own evolution is being found, and is remembered anew after.
      have same := Query.unknown_memo v c
      refine (Query.grows_unknown v c).trans (.of_remember (Query.unknown v c).1 (same ▸ known) ?_)
      exact grows_findEvolution ih v _

theorem get_bind (k : Context → Query α) (c : Context) : ((get : Query Context) >>= k) c = k c c :=
  rfl

theorem evolution_eq (v : Value) (c : Context) :
    Query.evolution v c = evolutionWithin (c.function.valueCount + 1) v c := by
  rw [Query.evolution, get_bind]

/-- The evolution of a value is remembered once it has been asked for. -/
theorem lookup_evolution (v : Value) (c : Context) :
    (Query.evolution v c).2.memo.lookup v = some (Query.evolution v c).1 := by
  rw [evolution_eq, evolutionWithin_succ]
  cases known : c.memo.lookup v with
  | some e => exact known
  | none => simp

theorem evolution_of_lookup {v : Value} {c : Context} {e : Expr} (known : c.memo.lookup v = some e) :
    Query.evolution v c = (e, c) := by
  rw [evolution_eq, evolutionWithin_succ, known]

theorem Query.settles_evolution (v : Value) : Settles (Query.evolution v) (Query.evolution v) := by
  intro c
  have grown : c.Extends (Query.evolution v c).2 := by
    rw [evolution_eq]
    exact grows_evolutionWithin _ v c
  refine ⟨grown, fun c' later => ?_⟩
  rw [evolution_of_lookup (later.memo v _ (lookup_evolution v c))]
  exact ⟨rfl, .refl c'⟩

/-! ### Trip counts and scopes -/

namespace Query

theorem settles_exitIteration? (l : LoopId) (b : Nat) : Settles (exitIteration? l b) (exitIteration? l b) := by
  refine settles_get fun c c' later => ?_
  rw [later.forest]
  cases stayCondition? c.forest l b with
  | none => exact settles_pure none
  | some condition =>
    refine (settles_evolution _).bind fun x => (settles_evolution _).bind fun y => ?_
    split <;> exact settles_pure _

theorem settles_tripCountFrom (l : LoopId) (x : Loop.NaturalLoop) (candidates : List Nat) :
    Settles (tripCountFrom l x candidates) (tripCountFrom l x candidates) := by
  induction candidates with
  | nil => exact settles_pure none
  | cons b rest ih =>
    refine (settles_exitIteration? l b).bind fun exit => ?_
    cases exit with
    | some n => exact settles_pure _
    | none => exact ih

theorem settles_tripCount (l : LoopId) : Settles (tripCount l) (tripCount l) := by
  refine settles_get fun c c' later => ?_
  dsimp only
  rw [later.forest]
  cases c.forest.loop? l with
  | none => exact settles_pure none
  | some x => exact settles_tripCountFrom l x _

mutual

theorem settles_atScope (scope : Option LoopId) : ∀ e, Settles (atScope scope e) (atScope scope e)
  | .recur l s t => by
    rw [atScope]
    refine settles_noWrap fun noWrap noWrap' => (settles_atScope scope s).bind fun start =>
      (settles_atScope scope t).bind fun step => settles_get fun c c' later => ?_
    rw [later.forest]
    split
    · exact settles_recur l start step noWrap noWrap'
    · refine (settles_tripCount l).bind fun count => ?_
      cases count with
      | none => exact settles_recur l start step noWrap noWrap'
      | some count =>
        exact (settles_const _).bind fun n => (settles_product [step, n]).bind fun growth =>
          settles_sum [start, growth]
  | .sum k ts => by
    rw [atScope]
    exact (settles_allAtScope scope ts).bind fun terms => settles_sum (.const k :: terms)
  | .product k ts => by
    rw [atScope]
    exact (settles_allAtScope scope ts).bind fun factors => settles_product (.const k :: factors)
  | .const n => by
    rw [atScope]
    · exact settles_pure (Expr.const n)
    all_goals simp
  | .unknown number v => by
    rw [atScope]
    · exact settles_pure (Expr.unknown number v)
    all_goals simp

theorem settles_allAtScope (scope : Option LoopId) : ∀ es, Settles (allAtScope scope es) (allAtScope scope es)
  | [] => by
    rw [allAtScope]
    exact settles_pure []
  | e :: es => by
    rw [allAtScope]
    exact (settles_atScope scope e).bind fun first => (settles_allAtScope scope es).bind fun rest =>
      settles_pure (first :: rest)

end

end Query

/-! ### Facts that stay -/

section

variable {σ : Type} {view : σ → Context} {m : StateM σ α} {P Q : α → Context → Prop}

theorem get_bind_apply (k : σ → StateM σ α) (s : σ) : (get >>= k) s = k s s :=
  rfl

/-- The context that is seen in the state grows, and in all later contexts the fact holds of the answer. -/
def Ensures (view : σ → Context) (m : StateM σ α) (P : α → Context → Prop) : Prop :=
  ∀ s, (view s).Extends (view (m s).2) ∧ ∀ c, (view (m s).2).Extends c → P (m s).1 c

theorem ensures_pure {a : α} (holds : ∀ c, P a c) : Ensures view (pure a) P :=
  fun s => ⟨.refl (view s), fun c _ => holds c⟩

theorem Ensures.mono (ensures : Ensures view m P) (weaker : ∀ a c, P a c → Q a c) : Ensures view m Q :=
  fun s => ⟨(ensures s).1, fun c later => weaker _ c ((ensures s).2 c later)⟩

theorem Ensures.and (first : Ensures view m P) (second : Ensures view m Q) : Ensures view m fun a c => P a c ∧ Q a c :=
  fun s => ⟨(first s).1, fun c later => ⟨(first s).2 c later, (second s).2 c later⟩⟩

/-- What the first part ensures may be used by the rest. -/
theorem Ensures.bind {k : α → StateM σ β} {R : β → Context → Prop} (first : Ensures view m P)
    (rest : ∀ a, Ensures view (k a) fun b c => P a c → R b c) : Ensures view (m >>= k) R := by
  intro s
  obtain ⟨grown, holds⟩ := first s
  obtain ⟨grown', holds'⟩ := rest (m s).1 (m s).2
  exact ⟨grown.trans grown', fun c later => holds' c later (holds c (grown'.trans later))⟩

theorem ensures_get {k : σ → StateM σ α} (rest : ∀ s, Ensures view (k s) fun a c => (view s).Extends c → P a c) :
    Ensures view (get >>= k) P := by
  intro s
  obtain ⟨grown, holds⟩ := rest s s
  exact ⟨grown, fun c later => holds c later (grown.trans later)⟩

theorem Grows.ensures {q : Query α} (grows : Grows q) : Ensures id q fun _ _ => True :=
  fun c => ⟨grows c, fun _ _ => trivial⟩

/-- A settled question has its answer in every later context. -/
theorem Settles.ensures {q r : Query α} (settles : Settles q r) : Ensures id q fun a c => (r c).1 = a :=
  fun c => ⟨(settles c).1, fun c' later => ((settles c).2 c' later).1⟩

theorem Query.ensures_evolution (v : Value) :
    Ensures id (Query.evolution v) fun e c => c.memo.lookup v = some e :=
  fun c => ⟨(Query.settles_evolution v).grows c, fun _ later => later.memo v _ (lookup_evolution v c)⟩

end

end LoopConflict.Evolution
