import LoopConflict.Proofs.Evolution.Keys
import LoopConflict.Proofs.Evolution.Meaning
import LoopConflict.Proofs.Evolution.Memory

/-!
Sessions with a context: questions that are asked one after the other about what earlier answers gave
(`Session`). A kind of expressions is closed if each way to make an expression out of such expressions gives one
again (`Closed`), and then all answers of a session are of that kind (`Closed.session`). How evolutions and
expressions seen from a scope are put together from these ways is followed here, once for all kinds.
-/
namespace LoopConflict.Evolution

open Loop (Forest LoopId NaturalLoop)
open Program (Function Value Place Operation)

/-! ### Questions that keep a kind of expressions -/

section

variable {α β : Type} {I : Context → Prop} {J : Context → Expr → Prop} {c : Context} {q : Query α}
  {P Q : Context → α → Prop} {R : Context → β → Prop}

/-- The question leads to a context with the invariant, in which all expressions of the kind are still of it
    and the answer satisfies the condition. -/
structure Leads (I : Context → Prop) (J : Context → Expr → Prop) (c : Context) (q : Query α)
    (P : Context → α → Prop) : Prop where
  holds : I (q c).2
  stays : ∀ e, J c e → J (q c).2 e
  answer : P (q c).2 (q c).1

theorem leads_pure (holds : I c) {x : α} (answer : P c x) : Leads I J c (pure x) P :=
  ⟨holds, fun _ good => good, answer⟩

theorem Leads.mono (leads : Leads I J c q P) (weaker : ∀ c' x, P c' x → Q c' x) : Leads I J c q Q :=
  ⟨leads.holds, leads.stays, weaker _ _ leads.answer⟩

theorem Leads.bind {k : α → Query β} (first : Leads I J c q P)
    (rest : ∀ x c', I c' → (∀ e, J c e → J c' e) → P c' x → Leads I J c' (k x) R) : Leads I J c (q >>= k) R := by
  have later := rest (q c).1 (q c).2 first.holds first.stays first.answer
  exact ⟨later.holds, fun e good => later.stays e (first.stays e good), later.answer⟩

theorem Leads.also (leads : Leads I J c q P) {S : α → Prop} (holds : S (q c).1) :
    Leads I J c q fun c' x => P c' x ∧ S x :=
  ⟨leads.holds, leads.stays, leads.answer, holds⟩

theorem leads_get {k : Context → Query α} (rest : Leads I J c (k c) P) : Leads I J c (get >>= k) P :=
  ⟨rest.holds, rest.stays, rest.answer⟩

theorem leads_noWrap {e : Expr} {k : Bool → Query α} (rest : ∀ noWrap, Leads I J c (k noWrap) P) :
    Leads I J c (Query.noWrap e >>= k) P :=
  ⟨(rest _).holds, (rest _).stays, (rest _).answer⟩

end

namespace Query

variable {L : LoopId → Prop} {V : Value → Prop} (c : Context)

theorem over_combine (op : Combination) {ops : List Expr} (uses : Expr.AllOver L V ops) : (combine op ops c).1.Over L V :=
  (means_combine (a := ⟨fun _ => 0, fun _ => 0⟩) c op uses).uses

theorem over_recur {l : LoopId} {start step : Expr} (loop : L l) (overStart : start.Over L V) (overStep : step.Over L V)
    (noWrap : Bool) : (recur l start step noWrap c).1.Over L V :=
  (means_recur (a := ⟨fun _ => 0, fun _ => 0⟩) c ⟨rfl, overStart⟩ ⟨rfl, overStep⟩ loop noWrap).uses

end Query

/-- Each way to make an expression out of expressions of the kind `J` gives one again, in contexts with the
    invariant `I`. Recurrences are made of start and step as allowed, for a phi that counts, and again for what
    is seen from a scope; `D` is what is known of a value's evolution. -/
structure Closed (F : Forest) (allowed : LoopId → Expr → Expr → Prop) (I : Context → Prop) (J : Context → Expr → Prop)
    (D : Value → Expr → Prop) : Prop where
  forest {c : Context} : I c → c.forest = F
  operand {c : Context} {e p : Expr} : I c → J c e → p ∈ e.operands → J c p
  constant {c : Context} (n : Int64) : I c → Leads I J c (Query.const n) J
  unknown {c : Context} (v : Value) : I c → Leads I J c (Query.unknown v) fun c' e => J c' e ∧ D v e
  combination {c : Context} (op : Combination) {ops : List Expr} :
    I c → (∀ e ∈ ops, J c e ∨ ∃ n, e = .const n) → Leads I J c (Query.combine op ops) J
  remembered {c : Context} {v : Value} {e : Expr} : I c → c.memo.lookup v = some e → J c e ∧ D v e
  remember {c : Context} {v : Value} {e : Expr} :
    I c → J c e → D v e → Leads I J c (remember v e) fun _ _ => True
  described {c : Context} (depth : Nat) (v : Value) : I c → D v (findEvolution (evolutionWithin depth) v c).1
  recurrence {c : Context} {l : LoopId} {start step : Expr} (noWrap : Bool) :
    I c → allowed l start step → J c start → J c step → Leads I J c (Query.recur l start step noWrap) J
  counting {c : Context} {phi : Place} {edges : List Value} {comment : String} {k : Counting} {start step : Expr} :
    I c → F.function.operation? phi = some (.phi edges comment) → counting? F phi edges = some k →
      J c start → D k.start start → J c step → step.isInvariant F k.loop = true →
        Leads I J c (Query.recur k.loop start step true) J
  seen {c : Context} {l : LoopId} {s t start step : Expr} (noWrap : Bool) :
    I c → J c (.recur l s t) → J c start → J c step → (∀ L V, s.Over L V → start.Over L V) →
      (∀ L V, t.Over L V → step.Over L V) → Leads I J c (Query.recur l start step noWrap) J

namespace Closed

variable {F : Forest} {allowed : LoopId → Expr → Expr → Prop} {I : Context → Prop} {J : Context → Expr → Prop}
  {D : Value → Expr → Prop} (closed : Closed F allowed I J D) {c : Context}
include closed

/-! ### Sums and products -/

theorem combine_two (op : Combination) {x y : Expr} (holds : I c) (first : J c x) (second : J c y) :
    Leads I J c (Query.combine op [x, y]) J := by
  refine closed.combination op holds fun e member => .inl ?_
  rcases List.mem_cons.mp member with rfl | rest
  · exact first
  · exact List.mem_singleton.mp rest ▸ second

theorem combine_after (op : Combination) (k : Int64) {ops : List Expr} (holds : I c) (good : ∀ e ∈ ops, J c e) :
    Leads I J c (Query.combine op (.const k :: ops)) J :=
  closed.combination op holds (List.forall_mem_cons.mpr ⟨.inr ⟨k, rfl⟩, fun e member => .inl (good e member)⟩)

theorem negate {e : Expr} (holds : I c) (good : J c e) : Leads I J c (Query.negate e) J :=
  (closed.constant (-1) holds).bind fun _ _ holds stays isK => closed.combine_two .product holds isK (stays e good)

theorem difference {x y : Expr} (holds : I c) (first : J c x) (second : J c y) :
    Leads I J c (Query.difference x y) J :=
  (closed.negate holds second).bind fun _ _ holds stays isN => closed.combine_two .sum holds (stays x first) isN

/-! ### Evolutions -/

theorem unknown_good (v : Value) (holds : I c) : Leads I J c (Query.unknown v) J :=
  (closed.unknown v holds).mono fun _ _ both => both.1

section

variable {self : Value → Query Expr} (finds : ∀ v c, I c → Leads I J c (self v) fun c' e => J c' e ∧ D v e)
include finds

theorem evolutionOfCounting {phi : Place} {edges : List Value} {comment : String} {k : Counting} (holds : I c)
    (isPhi : F.function.operation? phi = some (.phi edges comment)) (found : counting? F phi edges = some k) :
    Leads I J c (evolutionOfCounting self phi k) J := by
  have recurs : ∀ step c, I c → J c step → Leads I J c (do
      if ← Query.isInvariant k.loop step then
        let start ← self k.start
        Query.recur k.loop start step true
      else Query.unknown (.result phi)) J := by
    intro step c holds good
    refine leads_get ?_
    rw [closed.forest holds]
    split
    · rename_i invariant
      refine (finds k.start c holds).bind fun start c' holds stays isStart => ?_
      exact closed.counting holds isPhi found isStart.1 isStart.2 (stays step good) invariant
    · exact closed.unknown_good _ holds
  refine (finds k.step c holds).bind fun step c' holds _ isStep => ?_
  dsimp only
  split
  · exact (closed.negate holds isStep.1).bind fun step' c'' holds _ good => recurs step' c'' holds good
  · exact (leads_pure holds isStep.1).bind fun step' c'' holds _ good => recurs step' c'' holds good

theorem evolutionOfOperation {p : Place} {operation : Operation} (holds : I c)
    (here : F.function.operation? p = some operation) : Leads I J c (evolutionOfOperation self F p operation) J := by
  unfold Evolution.evolutionOfOperation
  dsimp only
  split
  · exact (finds _ c holds).bind fun a _ holds _ isA => (finds _ _ holds).bind fun b _ holds stays isB =>
      closed.combine_two .sum holds (stays a isA.1) isB.1
  · exact (finds _ c holds).bind fun a _ holds _ isA => (finds _ _ holds).bind fun b _ holds stays isB =>
      closed.difference holds (stays a isA.1) isB.1
  · exact (finds _ c holds).bind fun a _ holds _ isA => (finds _ _ holds).bind fun b _ holds stays isB =>
      closed.combine_two .product holds (stays a isA.1) isB.1
  · split
    · split
      · exact (finds _ c holds).bind fun a _ holds _ isA => (closed.constant _ holds).bind fun b _ holds stays isB =>
          closed.combine_two .product holds (stays a isA.1) isB
      · exact closed.unknown_good _ holds
    · exact closed.unknown_good _ holds
  · split
    · exact (finds _ c holds).mono fun _ _ both => both.1
    · exact closed.unknown_good _ holds
  · split
    · exact (finds _ c holds).mono fun _ _ both => both.1
    · exact closed.unknown_good _ holds
  · split
    · rename_i found
      exact closed.evolutionOfCounting finds holds here found
    · exact closed.unknown_good _ holds
  · exact closed.unknown_good _ holds

theorem findEvolution (v : Value) (holds : I c) : Leads I J c (findEvolution self v) J := by
  refine leads_get ?_
  rw [closed.forest holds]
  dsimp only
  split
  · split
    · split
      · exact closed.constant _ holds
      · exact closed.unknown_good _ holds
    · split
      · rename_i here
        exact closed.evolutionOfOperation finds holds here
      · exact closed.unknown_good _ holds
    · exact closed.unknown_good _ holds
  · exact closed.unknown_good _ holds

end

theorem evolutionWithin (depth : Nat) (v : Value) (c : Context) (holds : I c) :
    Leads I J c (evolutionWithin depth v) fun c' e => J c' e ∧ D v e := by
  induction depth generalizing v c with
  | zero => exact closed.unknown v holds
  | succ depth ih =>
    refine leads_get ?_
    split
    · rename_i e known
      exact leads_pure holds (closed.remembered holds known)
    · refine (closed.unknown v holds).bind fun u c₁ holds _ isU =>
        (closed.remember holds isU.1 isU.2).bind fun _ c₂ holds _ _ => ?_
      -- What is found is remembered, and stays of the kind when it is.
      have found := (closed.findEvolution ih v holds).also (closed.described depth v holds)
      exact found.bind fun e c₃ holds _ isE => (closed.remember holds isE.1 isE.2).bind fun _ c₄ holds stays _ =>
        leads_pure holds ⟨stays e isE.1, isE.2⟩

theorem evolution (v : Value) (holds : I c) : Leads I J c (Query.evolution v) J :=
  leads_get ((closed.evolutionWithin _ v c holds).mono fun _ _ both => both.1)

/-! ### Trip counts and scopes -/

theorem exitIteration? (l : LoopId) (b : Nat) (holds : I c) :
    Leads I J c (Query.exitIteration? l b) fun _ _ => True := by
  refine leads_get ?_
  cases stayCondition? c.forest l b with
  | none => exact leads_pure holds trivial
  | some condition =>
    refine (closed.evolution _ holds).bind fun x c₁ holds _ _ => (closed.evolution _ holds).bind fun y c₂ holds _ _ => ?_
    split <;> exact leads_pure holds trivial

theorem tripCountFrom (l : LoopId) (x : NaturalLoop) (candidates : List Nat) (holds : I c) :
    Leads I J c (Query.tripCountFrom l x candidates) fun _ _ => True := by
  induction candidates generalizing c with
  | nil => exact leads_pure holds trivial
  | cons b rest ih =>
    refine (closed.exitIteration? l b holds).bind fun exit c' holds _ _ => ?_
    cases exit with
    | some n => exact leads_pure holds trivial
    | none => exact ih holds

theorem tripCount (l : LoopId) (holds : I c) : Leads I J c (Query.tripCount l) fun _ _ => True := by
  refine leads_get ?_
  dsimp only
  cases c.forest.loop? l with
  | none => exact leads_pure holds trivial
  | some x => exact closed.tripCountFrom l x _ holds

omit closed

mutual

theorem atScope (closed : Closed F allowed I J D) (scope : Option LoopId) : ∀ (e : Expr) {c : Context}, I c → J c e →
    Leads I J c (Query.atScope scope e) fun c' seen => J c' seen ∧ ∀ L V, e.Over L V → seen.Over L V
  | .recur l s t, c, holds, good => by
    rw [Query.atScope]
    refine leads_noWrap fun noWrap =>
      (closed.atScope scope s holds (closed.operand holds good (by simp [Expr.operands]))).bind
        fun start c₁ holds₁ stays₁ isStart => ?_
    have goodStep := stays₁ t (closed.operand holds good (by simp [Expr.operands]))
    refine (closed.atScope scope t holds₁ goodStep).bind fun step c₂ holds₂ stays₂ isStep => leads_get ?_
    have goodStart := stays₂ start isStart.1
    have unchanged : ∀ {c}, I c → (∀ e, J c₂ e → J c e) → Leads I J c (Query.recur l start step noWrap)
        fun c' seen => J c' seen ∧ ∀ L V, (Expr.recur l s t).Over L V → seen.Over L V := by
      intro c holds stays
      have whole := stays _ (stays₂ _ (stays₁ _ good))
      refine (closed.seen noWrap holds whole (stays _ goodStart) (stays _ isStep.1) isStart.2 isStep.2).also ?_
      intro L V uses
      exact Query.over_recur c uses.1 (isStart.2 L V uses.2.1) (isStep.2 L V uses.2.2) noWrap
    split
    · exact unchanged holds₂ fun _ good => good
    · refine (closed.tripCount l holds₂).bind fun count c₃ holds₃ stays₃ _ => ?_
      cases count with
      | none => exact unchanged holds₃ stays₃
      | some count =>
        refine ((closed.constant count.backedges holds₃).also (S := fun n => ∀ L V, n.Over L V) fun L V => ?_).bind
          fun n c₄ holds₄ stays₄ isN => ?_
        · exact (Query.means_const (a := ⟨fun _ => 0, fun _ => 0⟩) c₃ _).uses
        refine ((closed.combine_two .product holds₄ (stays₄ _ (stays₃ _ isStep.1)) isN.1).also
          (S := fun growth => ∀ L V, step.Over L V → growth.Over L V) fun L V uses => ?_).bind
            fun growth c₅ holds₅ stays₅ isGrowth => ?_
        · exact Query.over_combine c₄ .product ⟨uses, isN.2 L V, trivial⟩
        refine (closed.combine_two .sum holds₅ (stays₅ _ (stays₄ _ (stays₃ _ goodStart))) isGrowth.1).also ?_
        intro L V uses
        exact Query.over_combine c₅ .sum
          ⟨isStart.2 L V uses.2.1, isGrowth.2 L V (isStep.2 L V uses.2.2), trivial⟩
  | .sum k ts, c, holds, good => by
    rw [Query.atScope]
    refine (closed.allAtScope scope ts holds fun e member => closed.operand holds good (Expr.mem_withConstant member)).bind
      fun terms c₁ holds₁ _ isTerms => ?_
    exact (closed.combine_after .sum k holds₁ isTerms.1).also
      fun L V uses => Query.over_combine c₁ .sum ⟨trivial, isTerms.2 L V uses⟩
  | .product k ts, c, holds, good => by
    rw [Query.atScope]
    refine (closed.allAtScope scope ts holds fun e member =>
      closed.operand holds good (Expr.mem_withConstant member)).bind fun factors c₁ holds₁ _ isFactors => ?_
    exact (closed.combine_after .product k holds₁ isFactors.1).also
      fun L V uses => Query.over_combine c₁ .product ⟨trivial, isFactors.2 L V uses⟩
  | .const n, c, holds, good => by
    rw [Query.atScope]
    · exact leads_pure holds ⟨good, fun _ _ uses => uses⟩
    all_goals simp
  | .unknown number v, c, holds, good => by
    rw [Query.atScope]
    · exact leads_pure holds ⟨good, fun _ _ uses => uses⟩
    all_goals simp

theorem allAtScope (closed : Closed F allowed I J D) (scope : Option LoopId) : ∀ (es : List Expr) {c : Context}, I c →
    (∀ e ∈ es, J c e) → Leads I J c (Query.allAtScope scope es) fun c' seen =>
      (∀ e ∈ seen, J c' e) ∧ ∀ L V, Expr.AllOver L V es → Expr.AllOver L V seen
  | [], c, holds, _ => by
    rw [Query.allAtScope]
    exact leads_pure holds ⟨by simp, fun _ _ uses => uses⟩
  | e :: es, c, holds, good => by
    rw [Query.allAtScope]
    refine (closed.atScope scope e holds (good e (by simp))).bind fun first c₁ holds₁ stays₁ isFirst => ?_
    refine (closed.allAtScope scope es holds₁ fun e member => stays₁ e (good e (by simp [member]))).bind
      fun rest c₂ holds₂ stays₂ isRest => leads_pure holds₂ ⟨?_, fun L V uses => ?_⟩
    · exact List.forall_mem_cons.mpr ⟨stays₂ first isFirst.1, isRest.1⟩
    · exact ⟨isFirst.2 L V uses.1, isRest.2 L V uses.2⟩

end

end Closed

/-! ### Sessions -/

namespace Question

/-- The expressions that are asked about. -/
def operands : Question → List Expr
  | .recurrence _ start step _ => [start, step]
  | .sum ops => ops
  | .product ops => ops
  | .negation e => [e]
  | .difference x y => [x, y]
  | .invariance _ e => [e]
  | .atScope _ e => [e]
  | _ => []

/-- The expression that is the answer, if it is one. -/
def answer? (c : Context) : Question → Option Expr
  | .evolution v => some (Query.evolution v c).1
  | .constant n => some (Query.const n c).1
  | .unknown v => some (Query.unknown v c).1
  | .recurrence l start step noWrap => some (Query.recur l start step noWrap c).1
  | .sum ops => some (Query.sum ops c).1
  | .product ops => some (Query.product ops c).1
  | .negation e => some (Query.negate e c).1
  | .difference x y => some (Query.difference x y c).1
  | .atScope scope e => some (Query.atScope scope e c).1
  | .invariance _ _ => none
  | .tripCount _ => none

/-- If a recurrence is asked for, its loop, start and step are as allowed. -/
def Allowed (allowed : LoopId → Expr → Expr → Prop) : Question → Prop
  | .recurrence l start step _ => allowed l start step
  | _ => True

end Question

/-- Questions that were asked in turn about expressions that were at hand, and the expressions that are at hand
    after them: the answers, and the terms of what is at hand. -/
inductive Session (f : Function) (allowed : LoopId → Expr → Expr → Prop) : List Question → List Expr → Prop where
  | start : Session f allowed [] []
  | ask {questions : List Question} {es : List Expr} (question : Question) :
    Session f allowed questions es → question.Allowed allowed → (∀ e ∈ question.operands, e ∈ es) →
      Session f allowed (questions ++ [question]) ((question.answer? (.asked f questions)).toList ++ es)
  | part {questions : List Question} {es : List Expr} {e p : Expr} :
    Session f allowed questions es → e ∈ es → p ∈ e.operands → Session f allowed questions (p :: es)

theorem Session.answer {f : Function} {allowed : LoopId → Expr → Expr → Prop} {questions : List Question} {es : List Expr}
    (session : Session f allowed questions es) (question : Question) (e : Expr) (admitted : question.Allowed allowed)
    (atHand : ∀ e ∈ question.operands, e ∈ es) (answers : question.answer? (.asked f questions) = some e) :
    Session f allowed (questions ++ [question]) (e :: es) := by
  have asked := session.ask question admitted atHand
  rw [answers] at asked
  exact asked

namespace Closed

variable {F : Forest} {allowed : LoopId → Expr → Expr → Prop} {I : Context → Prop} {J : Context → Expr → Prop}
  {D : Value → Expr → Prop} (closed : Closed F allowed I J D)
include closed

/-- A question about expressions of the kind keeps the kind. -/
theorem ask {c : Context} {question : Question} (holds : I c) (admitted : question.Allowed allowed)
    (good : ∀ e ∈ question.operands, J c e) :
    I (question.ask c) ∧ (∀ e, J c e → J (question.ask c) e) ∧ ∀ e ∈ question.answer? c, J (question.ask c) e := by
  have answers : ∀ {q : Query Expr}, Leads I J c q J →
      I (q c).2 ∧ (∀ e, J c e → J (q c).2 e) ∧ ∀ e ∈ some (q c).1, J (q c).2 e := by
    intro q leads
    exact ⟨leads.holds, leads.stays, fun e same => Option.mem_some.mp same ▸ leads.answer⟩
  cases question with
  | evolution v => exact answers (closed.evolution v holds)
  | constant n => exact answers (closed.constant n holds)
  | unknown v => exact answers (closed.unknown_good v holds)
  | recurrence l start step noWrap =>
    exact answers (closed.recurrence noWrap holds admitted (good start (by simp [Question.operands]))
      (good step (by simp [Question.operands])))
  | sum ops => exact answers (closed.combination .sum holds fun e member => .inl (good e member))
  | product ops => exact answers (closed.combination .product holds fun e member => .inl (good e member))
  | negation e => exact answers (closed.negate holds (good e (by simp [Question.operands])))
  | difference x y =>
    exact answers (closed.difference holds (good x (by simp [Question.operands])) (good y (by simp [Question.operands])))
  | invariance l e => exact ⟨holds, fun _ good => good, fun _ none => by cases none⟩
  | tripCount l =>
    have leads := closed.tripCount l holds
    exact ⟨leads.holds, leads.stays, fun _ none => by cases none⟩
  | atScope scope e =>
    exact answers ((closed.atScope scope e holds (good e (by simp [Question.operands]))).mono fun _ _ both => both.1)

/-- All expressions of a session are of the kind. -/
theorem session {f : Function} (fresh : I (.ofForest (.ofFunction f))) {questions : List Question} {es : List Expr}
    (session : Session f allowed questions es) : I (.asked f questions) ∧ ∀ e ∈ es, J (.asked f questions) e := by
  induction session with
  | start => exact ⟨fresh, by simp⟩
  | @ask questions es question _ admitted atHand ih =>
    obtain ⟨holds, stays, answers⟩ := closed.ask ih.1 admitted fun e member => ih.2 e (atHand e member)
    rw [Context.asked_append]
    refine ⟨holds, fun e member => ?_⟩
    rcases List.mem_append.mp member with isAnswer | earlier
    · exact answers e (Option.mem_toList.mp isAnswer)
    · exact stays e (ih.2 e earlier)
  | part _ member isPart ih =>
    exact ⟨ih.1, List.forall_mem_cons.mpr ⟨closed.operand ih.1 (ih.2 _ member) isPart, ih.2⟩⟩

end Closed

end LoopConflict.Evolution
