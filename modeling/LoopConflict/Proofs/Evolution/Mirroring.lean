import LoopConflict.Proofs.Evolution.Constants
import LoopConflict.Proofs.Evolution.Uniquing

/-!
Two ways to ask. The same questions are asked in one context and mirrored in another one, in which unknown values may
have other numbers and other things may be remembered (`Mirrors`). The answers are the same with the other numbers, if
the terms of all that is recorded in the end stay in order with them. What is known of the two contexts on the way is
left open (`Frame`).
-/
namespace LoopConflict.Evolution

open Loop (Forest LoopId NaturalLoop)
open Program (Function Value Place Operation)

/-! ### Recorded expressions -/

section

variable {F : Forest} {number : Value → Nat} {c c' : Context}

/-- Different expressions stay different with other numbers. -/
theorem Context.Filed.renumber_inj {marked : Prop} (filed : c.Filed F marked) {e e' : Expr} (recorded : c.Records e)
    (recorded' : c.Records e') : e.renumber number = e'.renumber number ↔ e = e' :=
  Expr.renumber_inj filed.distinct (recorded.formed filed.tidy) (recorded'.formed filed.tidy)

/-- The number of an unknown value in the context. -/
def Context.numberOf (c : Context) (v : Value) : Nat :=
  c.unknowns.idxOf v

theorem Context.Filed.renumber_own {marked : Prop} (filed : c.Filed F marked) {e : Expr} (recorded : c.Records e) :
    e.renumber c.numberOf = e := by
  refine Expr.renumber_of_formed (fun i v numbered => ?_) (recorded.formed filed.tidy)
  obtain ⟨small, rfl⟩ := List.getElem?_eq_some_iff.mp numbered
  exact filed.distinct.idxOf_getElem i small

theorem Context.Filed.keeps_own {marked : Prop} (filed : c.Filed F marked) : c.table.Keeps c.numberOf := by
  intro e recorded
  rw [filed.renumber_own recorded]
  exact recorded.inOrder filed.tidy

mutual

/-- The text of an expression does not show the numbers. -/
theorem text_renumber (filed : c.Filed F True) (filed' : c'.Filed F True) : ∀ {e : Expr}, c.Records e →
    c'.Records (e.renumber number) → (e.renumber number).text c' = e.text c
  | .const _, _, _ => rfl
  | .unknown _ v, _, _ => by
    simp only [Expr.renumber, Expr.text, Context.function, filed.forest, filed'.forest]
  | .recur l s t, recorded, recorded' => by
    have start := text_renumber filed filed' (recorded.operand filed.tidy (p := s) (by simp [Expr.operands]))
      (recorded'.operand filed'.tidy (by simp [Expr.operands]))
    have step := text_renumber filed filed' (recorded.operand filed.tidy (p := t) (by simp [Expr.operands]))
      (recorded'.operand filed'.tidy (by simp [Expr.operands]))
    have marked := recorded.noWrap filed.tidy trivial rfl
    have marked' := recorded'.noWrap filed'.tidy trivial rfl
    rw [Expr.renumber] at marked' ⊢
    rw [Expr.text, Expr.text, start, step, marked, marked', filed.forest, filed'.forest]
  | .sum k ts, recorded, recorded' => by
    have terms := texts_renumber filed filed' ts
      (fun e member => recorded.operand filed.tidy (Expr.mem_withConstant member))
      (fun e member => recorded'.operand filed'.tidy (Expr.mem_withConstant member))
    rw [Expr.renumber, Expr.text, Expr.text, terms]
  | .product k ts, recorded, recorded' => by
    have factors := texts_renumber filed filed' ts
      (fun e member => recorded.operand filed.tidy (Expr.mem_withConstant member))
      (fun e member => recorded'.operand filed'.tidy (Expr.mem_withConstant member))
    rw [Expr.renumber, Expr.text, Expr.text, factors]

theorem texts_renumber (filed : c.Filed F True) (filed' : c'.Filed F True) : ∀ es : List Expr,
    (∀ e ∈ es, c.Records e) → (∀ e ∈ Expr.renumberAll number es, c'.Records e) →
      Expr.texts c' (Expr.renumberAll number es) = Expr.texts c es
  | [], _, _ => rfl
  | e :: es, recorded, recorded' => by
    have first := text_renumber filed filed' (recorded e (by simp)) (recorded' (e.renumber number) (by simp))
    have rest := texts_renumber filed filed' es (fun e member => recorded e (by simp [member]))
      (fun e member => recorded' e (List.mem_cons_of_mem _ member))
    rw [Expr.renumberAll, Expr.texts, Expr.texts, first, rest]

end

end

/-! ### Frames -/

/-- All that is remembered or recorded in the context is so in the other one, too. -/
structure Context.Before (c c' : Context) : Prop extends c.Extends c' where
  records : ∀ e, c.Records e → c'.Records e

namespace Context.Before

theorem refl (c : Context) : c.Before c :=
  ⟨.refl c, fun _ recorded => recorded⟩

theorem trans {a b c : Context} (first : a.Before b) (second : b.Before c) : a.Before c :=
  ⟨first.toExtends.trans second.toExtends, fun e recorded => second.records e (first.records e recorded)⟩

end Context.Before

/-- What is known of the context in which questions are asked (`holds`) and of those in which they are mirrored
    (`ref`), and what is assumed of the first one in the end (`fits`). -/
structure Frame (F : Forest) (number : Value → Nat) where
  holds : Context → Prop
  fits : Context → Prop
  ref : Context → Prop
  filed {c : Context} : holds c → c.Filed F True
  quiet {c c' : Context} : holds c → c'.Filed F True → c'.memo = c.memo → c.Before c' → holds c'
  keeps {c : Context} : fits c → c.table.Keeps number
  before {c c' : Context} : fits c' → c.Before c' → fits c
  forest {c : Context} : ref c → c.forest = F
  table {c : Context} (t : Table) : ref c → ref { c with table := t }
  inhabited : ∃ c, ref c

section

variable {σ α α' β β' : Type} {F : Forest} {number : Value → Nat} {frame : Frame F number} {view : σ → Context}
  {same : σ → σ → Prop} {s : σ} {r : α → α'} {r' : β → β'} {P Q : Context → α → Prop} {R : Context → β → Prop}

/-- A computation with a context leads to a later one and its answer satisfies the condition. If the context fits in
    the end, the mirrored computation gives the mirrored answer, from every state that is the same apart from the
    context. -/
structure Mirrors (frame : Frame F number) (view : σ → Context) (same : σ → σ → Prop) (s : σ) (m : StateM σ α)
    (m' : StateM σ α') (r : α → α') (P : Context → α → Prop) : Prop where
  holds : frame.holds (view (m s).2)
  before : (view s).Before (view (m s).2)
  answer : P (view (m s).2) (m s).1
  mirrored : frame.fits (view (m s).2) → ∀ s', frame.ref (view s') → same s s' →
    frame.ref (view (m' s').2) ∧ same (m s).2 (m' s').2 ∧ (m' s').1 = r (m s).1

theorem mirrors_pure (holds : frame.holds (view s)) {x : α} {x' : α'} (mirror : x' = r x) (answer : P (view s) x) :
    Mirrors frame view same s (pure x) (pure x') r P :=
  ⟨holds, .refl _, answer, fun _ _ isRef isSame => ⟨isRef, isSame, mirror⟩⟩

theorem Mirrors.mono {m : StateM σ α} {m' : StateM σ α'} (mirrors : Mirrors frame view same s m m' r P)
    (weaker : ∀ c x, P c x → Q c x) : Mirrors frame view same s m m' r Q :=
  ⟨mirrors.holds, mirrors.before, weaker _ _ mirrors.answer, mirrors.mirrored⟩

theorem Mirrors.bind {m : StateM σ α} {m' : StateM σ α'} {k : α → StateM σ β} {k' : α' → StateM σ β'}
    (first : Mirrors frame view same s m m' r P)
    (rest : ∀ x s₁, frame.holds (view s₁) → (view s).Before (view s₁) → P (view s₁) x →
      Mirrors frame view same s₁ (k x) (k' (r x)) r' R) :
    Mirrors frame view same s (m >>= k) (m' >>= k') r' R := by
  have later := rest (m s).1 (m s).2 first.holds first.before first.answer
  refine ⟨later.holds, first.before.trans later.before, later.answer, fun fits s' isRef isSame => ?_⟩
  obtain ⟨isRef₁, isSame₁, answer⟩ := first.mirrored (frame.before fits later.before) s' isRef isSame
  have next := later.mirrored fits (m' s').2 isRef₁ isSame₁
  rw [← answer] at next
  exact next

theorem mirrors_get {k : σ → StateM σ α} {k' : σ → StateM σ α'} (some : ∃ s', frame.ref (view s') ∧ same s s')
    (rest : ∀ s', frame.ref (view s') → same s s' → Mirrors frame view same s (k s) (k' s') r P) :
    Mirrors frame view same s (get >>= k) (get >>= k') r P := by
  obtain ⟨s', isRef, isSame⟩ := some
  have here := rest s' isRef isSame
  exact ⟨here.holds, here.before, here.answer, fun fits s' isRef isSame => (rest s' isRef isSame).mirrored fits s' isRef isSame⟩

end

/-! ### Questions -/

section

variable {α α' : Type} {F : Forest} {number : Value → Nat} {frame : Frame F number} {c : Context} {r : α → α'}
  {P : Context → α → Prop}

/-- A question and its mirror. -/
abbrev Query.Mirrors (frame : Frame F number) (c : Context) (q : Query α) (q' : Query α') (r : α → α')
    (P : Context → α → Prop) : Prop :=
  Evolution.Mirrors frame id (fun _ _ => True) c q q' r P

namespace Query

variable (holds : frame.holds c)
include holds

theorem mirrors_context {k : Context → Query α} {k' : Context → Query α'}
    (rest : ∀ c', c.forest = F → c'.forest = F → Mirrors frame c (k c) (k' c') r P) :
    Mirrors frame c (get >>= k) (get >>= k') r P := by
  obtain ⟨c', isRef⟩ := frame.inhabited
  exact mirrors_get ⟨c', isRef, trivial⟩ fun c' isRef _ => rest c' (frame.filed holds).forest (frame.forest isRef)

/-- All recurrences are known not to wrap around; it does not matter what the mirror knows. -/
theorem mirrors_noWrap {e e' : Expr} (recorded : c.Records e) (recurs : e.loop?.isSome = true) {k : Bool → Query α}
    {k' : Bool → Query α'} (rest : ∀ noWrap', Mirrors frame c (k true) (k' noWrap') r P) :
    Mirrors frame c (noWrap e >>= k) (noWrap e' >>= k') r P := by
  change Mirrors frame c (get >>= fun c => k (c.table.noWrap e)) (get >>= fun c => k' (c.table.noWrap e')) r P
  refine mirrors_context holds fun c' _ _ => ?_
  rw [recorded.noWrap (frame.filed holds).tidy trivial recurs]
  exact rest _

/-- Making an expression. -/
theorem mirrors_build {plain plain' e : Expr} {plan plan' : Plan Expr} {t : Table}
    (made : plan.Leads (together F) c.table e t)
    (files : Files c.unknowns True number c.table t (t.Holds e) fun s s' =>
      plan'.Leads (together F) s (e.renumber number) s') :
    Mirrors frame c (build plain plan) (build plain' plan') (Expr.renumber number) Context.Records := by
  have filed := frame.filed holds
  rw [← filed.forest] at made
  have leads : Leads _ _ c (build plain plan) _ := leads_build filed made files
  have memo := (quiet_build plain plan).memo c
  have before : c.Before (build plain plan c).2 := ⟨.of_eq ((quiet_build plain plan).forest c) memo, leads.stays⟩
  refine ⟨frame.quiet holds leads.holds memo before, before, leads.answer, fun fits c' isRef _ => ?_⟩
  rw [build_of_run made] at fits ⊢
  obtain ⟨s, made'⟩ := files.mirrored (frame.keeps fits) c'.table
  have forest : c'.forest = F := frame.forest isRef
  rw [← forest] at made'
  rw [build_of_run made']
  exact ⟨frame.table s isRef, trivial, rfl⟩

/-- A value that has its number in the mirror is not looked into there, either. -/
theorem mirrors_unknown {v : Value} (numbered : ∀ c', frame.ref c' → c'.unknowns.idxOf? v = some (number v)) :
    Mirrors frame c (unknown v) (unknown v) (Expr.renumber number) Context.Records := by
  have leads := leads_unknown (frame.filed holds) v
  have memo := (quiet_unknown v).memo c
  have before : c.Before (unknown v c).2 := ⟨.of_eq ((quiet_unknown v).forest c) memo, leads.stays⟩
  refine ⟨frame.quiet holds leads.holds memo before, before, leads.answer, fun _ c' isRef _ => ?_⟩
  have same : unknown v c' = (.unknown (number v) v, c') := by simp only [unknown, numbered c' isRef]
  obtain ⟨i, answer⟩ := exists_unknown v c
  rw [same, answer]
  exact ⟨isRef, trivial, rfl⟩

theorem mirrors_const (n : Int64) :
    Mirrors frame c (const n) (const n) (Expr.renumber number) fun c' e => e = .const n ∧ c'.Records e := by
  have mirrors : Mirrors frame c (const n) (const n) (Expr.renumber number) Context.Records := by
    refine mirrors_build holds (Plan.leads_constant.mpr ⟨rfl, rfl⟩) ?_
    refine (files_constant number (frame.filed holds).tidy n).imp id fun s s' same => ?_
    exact Plan.leads_constant.mpr ⟨rfl, same⟩
  exact ⟨mirrors.holds, mirrors.before, ⟨const_fst n c, mirrors.answer⟩, mirrors.mirrored⟩

theorem mirrors_recur {start step : Expr} (isStart : c.Records start) (isStep : c.Records step) (l : LoopId)
    (noWrap' : Bool) :
    Mirrors frame c (recur l start step true) (recur l (start.renumber number) (step.renumber number) noWrap')
      (Expr.renumber number) Context.Records := by
  obtain ⟨e, t, made⟩ := Plan.exists_recurrence (together F) l start step (fun _ => true) c.table
  exact mirrors_build holds made
    (files_recurrence number (frame.filed holds).tidy isStart isStep (fun _ => rfl) made fun _ => noWrap')

theorem mirrors_combine (op : Combination) {ops : List Expr} (ready : ∀ e ∈ ops, c.Records e ∨ ∃ n, e = .const n) :
    Mirrors frame c (combine op ops) (combine op (ops.map (Expr.renumber number))) (Expr.renumber number)
      Context.Records := by
  have filed := frame.filed holds
  obtain ⟨e, t, found, _⟩ := exists_combine op ops c
  rw [filed.forest] at found
  refine mirrors_build holds (Plan.leads_request.mpr found) ?_
  refine (keepsFiled_together filed.distinct True number F found filed.tidy ready).imp id fun s s' found' => ?_
  exact Plan.leads_request.mpr found'

theorem mirrors_two (op : Combination) {x y : Expr} (first : c.Records x) (second : c.Records y) :
    Mirrors frame c (combine op [x, y]) (combine op [x.renumber number, y.renumber number]) (Expr.renumber number)
      Context.Records :=
  mirrors_combine holds op (by simp [first, second])

theorem mirrors_negate {e : Expr} (recorded : c.Records e) :
    Mirrors frame c (negate e) (negate (e.renumber number)) (Expr.renumber number) Context.Records :=
  (mirrors_const holds (-1)).bind fun _ _ holds later isK => mirrors_two holds .product isK.2 (later.records e recorded)

theorem mirrors_difference {x y : Expr} (first : c.Records x) (second : c.Records y) :
    Mirrors frame c (difference x y) (difference (x.renumber number) (y.renumber number)) (Expr.renumber number)
      Context.Records :=
  (mirrors_negate holds second).bind fun _ _ holds later isN => mirrors_two holds .sum (later.records x first) isN

end Query

end

/-! ### Evolutions of operands -/

/-- The values that are asked for to find the evolution of the result of an operation. -/
def asked (F : Forest) (p : Place) : Operation → List Value
  | .binary _ x y => [x, y]
  | .convert x => [x]
  | .changeType x => [x]
  | .phi edges _ => ((counting? F p edges).map fun k => [k.step, k.start]).getD []
  | _ => []

/-- The first value is asked for to find the evolution of the second one. -/
inductive Asks (F : Forest) : Value → Value → Prop where
  | operand {p : Place} {operation : Operation} {w : Value} (here : F.function.operation? p = some operation)
    (member : w ∈ asked F p operation) : Asks F w (.result p)

section

variable {F : Forest} {number : Value → Nat} {frame : Frame F number} {c : Context} {self self' : Value → Query Expr}

theorem mirrors_evolutionOfCounting {p : Place} {k : Counting}
    (finds : ∀ w ∈ [k.step, k.start], ∀ c, frame.holds c →
      Query.Mirrors frame c (self w) (self' w) (Expr.renumber number) Context.Records)
    (unknowns : ∀ c, frame.holds c → Query.Mirrors frame c (Query.unknown (.result p)) (Query.unknown (.result p))
      (Expr.renumber number) Context.Records) (holds : frame.holds c) :
    Query.Mirrors frame c (evolutionOfCounting self p k) (evolutionOfCounting self' p k) (Expr.renumber number)
      Context.Records := by
  have recurs : ∀ step c, frame.holds c → c.Records step → Query.Mirrors frame c
      (do
        if ← Query.isInvariant k.loop step then
          let start ← self k.start
          Query.recur k.loop start step true
        else Query.unknown (.result p))
      (do
        if ← Query.isInvariant k.loop (step.renumber number) then
          let start ← self' k.start
          Query.recur k.loop start (step.renumber number) true
        else Query.unknown (.result p)) (Expr.renumber number) Context.Records := by
    intro step c holds isStep
    refine Query.mirrors_context holds fun c' here there => ?_
    rw [here, there, Expr.isInvariant_renumber]
    split
    · exact (finds k.start (by simp) c holds).bind fun start c₁ holds later isStart =>
        Query.mirrors_recur holds isStart (later.records step isStep) k.loop true
    · exact unknowns c holds
  refine (finds k.step (by simp) c holds).bind fun step c₁ holds _ isStep => ?_
  dsimp only
  split
  · exact (Query.mirrors_negate holds isStep).bind fun step c₂ holds _ isStep => recurs step c₂ holds isStep
  · refine (mirrors_pure holds ?_ isStep).bind fun step c₂ holds _ isStep => recurs step c₂ holds isStep
    rfl

theorem mirrors_evolutionOfOperation {p : Place} {operation : Operation}
    (finds : ∀ w ∈ asked F p operation, ∀ c, frame.holds c →
      Query.Mirrors frame c (self w) (self' w) (Expr.renumber number) Context.Records)
    (unknowns : ∀ c, frame.holds c → Query.Mirrors frame c (Query.unknown (.result p)) (Query.unknown (.result p))
      (Expr.renumber number) Context.Records) (holds : frame.holds c) :
    Query.Mirrors frame c (evolutionOfOperation self F p operation) (evolutionOfOperation self' F p operation)
      (Expr.renumber number) Context.Records := by
  unfold evolutionOfOperation
  dsimp only
  split
  · exact (finds _ (by simp [asked]) c holds).bind fun a c₁ holds _ isA =>
      (finds _ (by simp [asked]) c₁ holds).bind fun b c₂ holds later isB =>
        Query.mirrors_two holds .sum (later.records a isA) isB
  · exact (finds _ (by simp [asked]) c holds).bind fun a c₁ holds _ isA =>
      (finds _ (by simp [asked]) c₁ holds).bind fun b c₂ holds later isB =>
        Query.mirrors_difference holds (later.records a isA) isB
  · exact (finds _ (by simp [asked]) c holds).bind fun a c₁ holds _ isA =>
      (finds _ (by simp [asked]) c₁ holds).bind fun b c₂ holds later isB =>
        Query.mirrors_two holds .product (later.records a isA) isB
  · split
    · split
      · exact (finds _ (by simp [asked]) c holds).bind fun a c₁ holds _ isA =>
          (Query.mirrors_const holds _).bind fun b c₂ holds later isB =>
            Query.mirrors_two holds .product (later.records a isA) isB.2
      · exact unknowns c holds
    · exact unknowns c holds
  · split
    · exact finds _ (by simp [asked]) c holds
    · exact unknowns c holds
  · split
    · exact finds _ (by simp [asked]) c holds
    · exact unknowns c holds
  · split
    · rename_i k found
      exact mirrors_evolutionOfCounting (fun w member => finds w (by simpa [asked, found] using member)) unknowns holds
    · exact unknowns c holds
  · exact unknowns c holds

/-- The evolution of a value is mirrored, if the evolutions of those that are asked for are. -/
theorem mirrors_findEvolution {v : Value}
    (finds : ∀ w, Asks F w v → ∀ c, frame.holds c →
      Query.Mirrors frame c (self w) (self' w) (Expr.renumber number) Context.Records)
    (unknowns : ∀ c, frame.holds c → Query.Mirrors frame c (Query.unknown v) (Query.unknown v) (Expr.renumber number)
      Context.Records) (holds : frame.holds c) :
    Query.Mirrors frame c (findEvolution self v) (findEvolution self' v) (Expr.renumber number) Context.Records := by
  refine Query.mirrors_context holds fun c' here there => ?_
  rw [here, there]
  dsimp only
  split
  · split
    · split
      · exact (Query.mirrors_const holds _).mono fun _ _ both => both.2
      · exact unknowns c holds
    · split
      · rename_i here
        exact mirrors_evolutionOfOperation (fun w member => finds w (.operand here member)) unknowns holds
      · exact unknowns c holds
    · exact unknowns c holds
  · exact unknowns c holds

end

/-! ### Trip counts and scopes -/

theorem against?_renumber {number : Value → Nat} (l : LoopId) (x y : Expr) :
    against? l (x.renumber number) (y.renumber number) =
      (against? l x y).map fun p => (p.1.renumber number, p.2.1.renumber number, p.2.2) := by
  cases x with
  | recur m s t =>
    cases y with
    | const n => by_cases isLoop : m = l <;> simp [against?, isLoop]
    | _ => rfl
  | _ => rfl

theorem oriented?_renumber {number : Value → Nat} (l : LoopId) (c : Program.Comparison) (x y : Expr) :
    oriented? l c (x.renumber number) (y.renumber number) =
      (oriented? l c x y).map fun p => (p.1, p.2.1.renumber number, p.2.2.1.renumber number, p.2.2.2) := by
  rw [oriented?, oriented?, against?_renumber, against?_renumber]
  cases against? l x y with
  | some p => rfl
  | none => cases against? l y x <;> rfl

/-- The evolutions of all values are mirrored. -/
def Frame.Finds {F : Forest} {number : Value → Nat} (frame : Frame F number) : Prop :=
  ∀ v c, frame.holds c →
    Query.Mirrors frame c (Query.evolution v) (Query.evolution v) (Expr.renumber number) Context.Records

namespace Query

variable {F : Forest} {number : Value → Nat} {frame : Frame F number} {c : Context} (finds : frame.Finds)
include finds

theorem mirrors_exitIteration? (l : LoopId) (b : Nat) (holds : frame.holds c) :
    Mirrors frame c (exitIteration? l b) (exitIteration? l b) id fun _ _ => True := by
  refine mirrors_context holds fun c' here there => ?_
  rw [here, there]
  cases stayCondition? F l b with
  | none => exact mirrors_pure holds rfl trivial
  | some condition =>
    obtain ⟨k, x, y⟩ := condition
    refine (finds x c holds).bind fun x c₁ holds _ _ => (finds y c₁ holds).bind fun y c₂ holds _ _ => ?_
    rw [oriented?_renumber]
    cases oriented? l k x y with
    | none => exact mirrors_pure holds rfl trivial
    | some p =>
      obtain ⟨k, s, t, n⟩ := p
      cases s <;> cases t <;> exact mirrors_pure holds rfl trivial

theorem mirrors_tripCountFrom (l : LoopId) (x : NaturalLoop) (candidates : List Nat) (holds : frame.holds c) :
    Mirrors frame c (tripCountFrom l x candidates) (tripCountFrom l x candidates) id fun _ _ => True := by
  induction candidates generalizing c with
  | nil => exact mirrors_pure holds rfl trivial
  | cons b rest ih =>
    refine (mirrors_exitIteration? finds l b holds).bind fun exit c₁ holds _ _ => ?_
    cases exit with
    | some n => exact mirrors_pure holds rfl trivial
    | none => exact ih holds

theorem mirrors_tripCount (l : LoopId) (holds : frame.holds c) :
    Mirrors frame c (tripCount l) (tripCount l) id fun _ _ => True := by
  refine mirrors_context holds fun c' here there => ?_
  rw [here, there]
  dsimp only
  cases F.loop? l with
  | none => exact mirrors_pure holds rfl trivial
  | some x => exact mirrors_tripCountFrom finds l x _ holds

omit finds

mutual

theorem mirrors_atScope (finds : frame.Finds) (scope : Option LoopId) :
    ∀ (e : Expr) {c : Context}, frame.holds c → c.Records e →
      Mirrors frame c (atScope scope e) (atScope scope (e.renumber number)) (Expr.renumber number) Context.Records
  | .recur l s t, c, holds, recorded => by
    rw [Expr.renumber, atScope, atScope]
    have isS := recorded.operand (frame.filed holds).tidy (p := s) (by simp [Expr.operands])
    have isT := recorded.operand (frame.filed holds).tidy (p := t) (by simp [Expr.operands])
    refine mirrors_noWrap holds recorded rfl fun noWrap' => ?_
    refine (mirrors_atScope finds scope s holds isS).bind fun start c₁ holds later₁ isStart => ?_
    refine (mirrors_atScope finds scope t holds (later₁.records t isT)).bind fun step c₂ holds later₂ isStep => ?_
    have isStart := later₂.records start isStart
    refine mirrors_context holds fun c' here there => ?_
    rw [here, there]
    split
    · exact mirrors_recur holds isStart isStep l noWrap'
    · refine (mirrors_tripCount finds l holds).bind fun count c₃ holds later₃ _ => ?_
      cases count with
      | none => exact mirrors_recur holds (later₃.records _ isStart) (later₃.records _ isStep) l noWrap'
      | some count =>
        refine (mirrors_const holds count.backedges).bind fun n c₄ holds later₄ isN => ?_
        have later := later₃.trans later₄
        refine (mirrors_two holds .product (later.records _ isStep) isN.2).bind fun growth c₅ holds later₅ isGrowth => ?_
        exact mirrors_two holds .sum ((later.trans later₅).records _ isStart) isGrowth
  | .sum k ts, c, holds, recorded => by
    rw [Expr.renumber, Expr.renumberAll_eq, atScope, atScope]
    refine (mirrors_allAtScope finds scope ts holds fun e member =>
      recorded.operand (frame.filed holds).tidy (Expr.mem_withConstant member)).bind fun terms c₁ holds _ isTerms => ?_
    refine mirrors_combine holds .sum (List.forall_mem_cons.mpr ⟨.inr ⟨k, rfl⟩, fun e member => ?_⟩)
    exact .inl (isTerms e member)
  | .product k ts, c, holds, recorded => by
    rw [Expr.renumber, Expr.renumberAll_eq, atScope, atScope]
    refine (mirrors_allAtScope finds scope ts holds fun e member =>
      recorded.operand (frame.filed holds).tidy (Expr.mem_withConstant member)).bind fun factors c₁ holds _ isFactors => ?_
    refine mirrors_combine holds .product
      (List.forall_mem_cons.mpr ⟨.inr ⟨k, rfl⟩, fun e member => ?_⟩)
    exact .inl (isFactors e member)
  | .const n, c, holds, recorded => by
    rw [Expr.renumber, atScope]
    · exact mirrors_pure holds rfl recorded
    all_goals simp
  | .unknown i v, c, holds, recorded => by
    rw [Expr.renumber, atScope, atScope]
    · exact mirrors_pure holds rfl recorded
    all_goals simp

theorem mirrors_allAtScope (finds : frame.Finds) (scope : Option LoopId) :
    ∀ (es : List Expr) {c : Context}, frame.holds c → (∀ e ∈ es, c.Records e) →
      Mirrors frame c (allAtScope scope es) (allAtScope scope (es.map (Expr.renumber number)))
        (List.map (Expr.renumber number)) fun c' seen => ∀ e ∈ seen, c'.Records e
  | [], c, holds, _ => by
    rw [allAtScope]
    exact mirrors_pure holds rfl (by simp)
  | e :: es, c, holds, recorded => by
    rw [List.map_cons, allAtScope, allAtScope]
    refine (mirrors_atScope finds scope e holds (recorded e (by simp))).bind fun first c₁ holds later₁ isFirst => ?_
    refine (mirrors_allAtScope finds scope es holds fun e member => later₁.records e (recorded e (by simp [member]))).bind
      fun rest c₂ holds later₂ isRest => mirrors_pure holds rfl ?_
    exact List.forall_mem_cons.mpr ⟨later₂.records first isFirst, isRest⟩

end

end Query

end LoopConflict.Evolution
