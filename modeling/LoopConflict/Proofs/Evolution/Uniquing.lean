import LoopConflict.Proofs.Evolution.Depth
import LoopConflict.Proofs.Evolution.Describes
import LoopConflict.Proofs.Evolution.Filing
import LoopConflict.Proofs.Evolution.Sessions

/-!
Each expression has one entry. In the context of a function the table is tidy and unknown values are numbered
without repetition, whatever is asked (`Context.Filed`). So the expressions of a session are the same exactly if they
have the same key, and exactly if they are alike (`session_uniqued`). An expression that is made again is the one that
was recorded under its key (`made_eq_interned`).
-/
namespace LoopConflict.Evolution

open Loop (Forest LoopId)
open Program (Function Value)

/-! ### Contexts -/

/-- The table is tidy, unknown values are numbered without repetition, and what is numbered or remembered is
    recorded. -/
structure Context.Filed (F : Forest) (marked : Prop) (c : Context) : Prop where
  forest : c.forest = F
  tidy : c.table.Tidy c.unknowns marked
  distinct : c.unknowns.Nodup
  numbered : ∀ number v, c.unknowns[number]? = some v → c.table.Holds (.unknown number v)
  memo : ∀ v e, c.memo.lookup v = some e → c.table.Holds e

/-- The expression is recorded in the context. -/
def Context.Records (c : Context) (e : Expr) : Prop :=
  c.table.Holds e

section

variable {F : Forest} {marked : Prop} {c : Context}

theorem filed_ofForest (F : Forest) : (Context.ofForest F).Filed F marked where
  forest := rfl
  tidy := by constructor <;> simp [Context.ofForest]
  distinct := .nil
  numbered := by simp [Context.ofForest]
  memo := by simp [Context.ofForest]

theorem leads_build (filed : c.Filed F marked) {plain e : Expr} {plan : Plan Expr} {t : Table}
    (made : plan.Leads (together c.forest) c.table e t) {number : Value → Nat} {again : Table → Table → Prop}
    (files : Files c.unknowns marked number c.table t (t.Holds e) again) :
    Leads (Context.Filed F marked) Context.Records c (build plain plan) Context.Records := by
  refine ⟨?_, ?_, ?_⟩ <;> rw [build_of_run made]
  · exact ⟨filed.forest, files.tidy, filed.distinct, fun number v found => (filed.numbered number v found).later files.later,
      fun v e known => (filed.memo v e known).later files.later⟩
  · exact fun e recorded => recorded.later files.later
  · exact files.holds

theorem leads_const (filed : c.Filed F marked) (n : Int64) :
    Leads (Context.Filed F marked) Context.Records c (Query.const n) Context.Records :=
  leads_build filed (Plan.leads_constant.mpr ⟨rfl, rfl⟩) (files_constant (fun _ => 0) filed.tidy n)

theorem leads_recur (filed : c.Filed F marked) {start step : Expr} (isStart : c.Records start) (isStep : c.Records step)
    (l : LoopId) {noWrap : Bool} (marks : marked → noWrap = true) :
    Leads (Context.Filed F marked) Context.Records c (Query.recur l start step noWrap) Context.Records := by
  obtain ⟨e, t, made⟩ := Plan.exists_recurrence (together c.forest) l start step (fun _ => noWrap) c.table
  exact leads_build filed made (files_recurrence (fun _ => 0) filed.tidy isStart isStep marks made fun _ => noWrap)

theorem leads_combine (filed : c.Filed F marked) (op : Combination) {ops : List Expr}
    (ready : ∀ e ∈ ops, c.Records e ∨ ∃ n, e = .const n) :
    Leads (Context.Filed F marked) Context.Records c (Query.combine op ops) Context.Records := by
  obtain ⟨e, t, found, _⟩ := Query.exists_combine op ops c
  have keeps := keepsFiled_together filed.distinct marked (fun _ => 0) c.forest
  exact leads_build filed (Plan.leads_request.mpr found) (keeps found filed.tidy ready)

theorem leads_unknown (filed : c.Filed F marked) (v : Value) :
    Leads (Context.Filed F marked) Context.Records c (Query.unknown v) Context.Records := by
  cases position : c.unknowns.idxOf? v with
  | some number =>
    have known : c.unknowns[number]? = some v := by
      obtain ⟨small, here, _⟩ := List.idxOf?_eq_some_iff.mp position
      exact List.getElem?_eq_some_iff.mpr ⟨small, here⟩
    have same : Query.unknown v c = (.unknown number v, c) := by simp only [Query.unknown, position]
    refine ⟨?_, ?_, ?_⟩ <;> rw [same]
    · exact filed
    · exact fun _ recorded => recorded
    · exact filed.numbered number v known
  | none =>
    have fresh : v ∉ c.unknowns := List.idxOf?_eq_none_iff.mp position
    have grown : Query.unknown v c = (.unknown c.unknowns.length v, { c with
        unknowns := c.unknowns ++ [v], table := c.table.record (.unknown c.unknowns.length v) false }) := by
      simp only [Query.unknown, position]
    have later := c.table.extends_record (.unknown c.unknowns.length v) false
    have formed : (Expr.unknown c.unknowns.length v).Formed (c.unknowns ++ [v]) := List.getElem?_concat_length
    obtain ⟨tidy, holds⟩ := (filed.tidy.later [v]).record formed (by simp [Expr.operands]) .nil (by simp [Expr.loop?])
    refine ⟨?_, ?_, ?_⟩ <;> rw [grown]
    · refine ⟨filed.forest, tidy, ?_, fun number w found => ?_, fun w e known => (filed.memo w e known).later later⟩
      · exact List.nodup_append.mpr ⟨filed.distinct, by simp, by simpa using fun w member => ne_of_mem_of_not_mem member fresh⟩
      · by_cases small : number < c.unknowns.length
        · rw [List.getElem?_append_left small] at found
          exact (filed.numbered number w found).later later
        · have last : number = c.unknowns.length ∧ v = w := by
            rw [List.getElem?_append_right (by omega), List.getElem?_singleton] at found
            split at found
            · cases found
              exact ⟨by omega, rfl⟩
            · cases found
          obtain ⟨rfl, rfl⟩ := last
          exact holds
    · exact fun _ recorded => recorded.later later
    · exact holds

theorem leads_remember (filed : c.Filed F marked) {v : Value} {e : Expr} (recorded : c.Records e) :
    Leads (Context.Filed F marked) Context.Records c (remember v e) fun _ _ => True := by
  refine ⟨⟨filed.forest, filed.tidy, filed.distinct, filed.numbered, fun w e' known => ?_⟩, fun _ kept => kept, trivial⟩
  change ((v, e) :: c.memo).lookup w = some e' at known
  rw [List.lookup_cons] at known
  split at known
  · cases known
    exact recorded
  · exact filed.memo w e' known

/-- Recorded expressions are a closed kind, whatever recurrences are asked for. -/
theorem closed_records (F : Forest) :
    Closed F (fun _ _ _ => True) (Context.Filed F False) Context.Records (fun _ _ => True) where
  forest filed := filed.forest
  operand filed recorded isPart := recorded.operand filed.tidy isPart
  constant n filed := leads_const filed n
  unknown v filed := (leads_unknown filed v).mono fun _ _ recorded => ⟨recorded, trivial⟩
  combination op _ filed ready := leads_combine filed op ready
  remembered filed known := ⟨filed.memo _ _ known, trivial⟩
  remember filed recorded _ := leads_remember filed recorded
  described _ _ _ := trivial
  recurrence _ filed _ isStart isStep := leads_recur filed isStart isStep _ False.elim
  counting filed _ _ isStart _ isStep _ := leads_recur filed isStart isStep _ False.elim
  seen _ filed _ isStart isStep _ _ := leads_recur filed isStart isStep _ False.elim

end

/-! ### One entry for each expression -/

/-- Records an expression, and gives the one that is recorded under its key, whichever that is. -/
def interned (e : Expr) (noWrap : Bool) : Build Expr := do
  modify fun t => t.record e noWrap
  return (((← get).find? e.key).map (·.expr)).getD e

/-- In a tidy table an expression that is made is the recorded one. -/
theorem made_eq_interned {numbers : List Value} {marked : Prop} {t : Table} (tidy : t.Tidy numbers marked) {e : Expr}
    (formed : e.Formed numbers) (self : Callee) (noWrap : Table → Bool) :
    (made e noWrap).run self t = interned e (noWrap t) t := by
  have stored : (((t.record e (noWrap t)).find? e.key).map (·.expr)).getD e = e := by
    rcases t.record_cases e (noWrap t) with ⟨entry, found, same⟩ | ⟨_, grown⟩
    · rw [same, found, tidy.eq_of_find? formed found]
      rfl
    · rw [grown]
      simp [Table.find?]
  change some (e, t.record e (noWrap t)) = some ((((t.record e (noWrap t)).find? e.key).map (·.expr)).getD e, _)
  rw [stored]

/-- Expressions at hand are told apart by their keys, under which they are recorded. -/
structure Uniqued (c : Context) (es : List Expr) : Prop where
  recorded : ∀ e ∈ es, ∃ entry, c.table.find? e.key = some entry ∧ entry.expr = e
  /-- They are the same exactly if they have one key. -/
  identical : ∀ e ∈ es, ∀ e' ∈ es, e = e' ↔ e.key = e'.key
  /-- What is made of them is the expression recorded under its key, if there is one. -/
  interned : ∀ e, e.Formed c.unknowns → ∀ self noWrap, (made e noWrap).run self c.table = interned e (noWrap c.table) c.table
  /-- They have one key exactly if they are alike. -/
  structural : ∀ e ∈ es, ∀ e' ∈ es, e.key = e'.key ↔ e.Alike e'
  /-- Values have one number exactly if they are equal. -/
  numbered : ∀ m n v w, .unknown m v ∈ es → .unknown n w ∈ es → (m = n ↔ v = w)
  distinct : (c.table.map (·.key)).Nodup
  own : ∀ entry ∈ c.table, entry.key = entry.expr.key
  parts : ∀ entry ∈ c.table, ∀ p : Expr, p.Part entry.expr → ∃ entry' ∈ c.table, entry'.expr = p

theorem Context.Filed.uniqued {F : Forest} {marked : Prop} {c : Context} (filed : c.Filed F marked) {es : List Expr}
    (recorded : ∀ e ∈ es, c.Records e) : Uniqued c es := by
  have formed : ∀ e ∈ es, e.Formed c.unknowns := fun e member => (recorded e member).formed filed.tidy
  refine ⟨fun e member => ?_, fun e member e' member' => ⟨fun same => by rw [same], fun same => ?_⟩,
    fun e formed self noWrap => made_eq_interned filed.tidy formed self noWrap,
    fun e member e' member' => ⟨fun same => ?_, fun alike => ?_⟩, fun m n v w first second => ?_,
    filed.tidy.distinct, filed.tidy.own, fun entry member p isPart => ?_⟩
  · obtain ⟨noWrap, found⟩ := recorded e member
    exact ⟨_, found, rfl⟩
  · exact Expr.key_injective (formed e member) (formed e' member') same
  · rw [Expr.key_injective (formed e member) (formed e' member') same]
    exact Expr.alike_refl e'
  · rw [Expr.eq_of_alike filed.distinct (formed e member) (formed e' member') alike]
  · have here : c.unknowns[m]? = some v := formed _ first
    have there : c.unknowns[n]? = some w := formed _ second
    constructor
    · rintro rfl
      exact Option.some.inj (here.symm.trans there)
    · rintro rfl
      exact (List.getElem?_inj (List.getElem?_eq_some_iff.mp here).1 filed.distinct).mp (here.trans there.symm)
  · cases isPart with
    | self => exact ⟨entry, member, rfl⟩
    | inside isOperand isPart =>
      exact ((filed.tidy.operands entry member _ isOperand).part filed.tidy isPart).mem

/-- Whatever was asked of the context of a function, the expressions that it gave are recorded once each: they
    are the same exactly if they have one key, and exactly if they are alike. What is made again is what was recorded.
    Different unknown values have different numbers, and each entry is found under its own key with all its parts in
    the table. -/
theorem session_uniqued {f : Function} {questions : List Question} {es : List Expr}
    (session : Session f (fun _ _ _ => True) questions es) : Uniqued (.asked f questions) es := by
  obtain ⟨filed, recorded⟩ := (closed_records (.ofFunction f)).session (filed_ofForest _) session
  exact filed.uniqued recorded

/-- Two terms that are added in either order give one expression. -/
theorem grid_uniqued : ∃ questions x u s, Session grid (fun _ _ _ => True) questions [s, s, u, x] ∧
    s = .sum 0 [u, x] ∧ Uniqued (.asked grid questions) [s, s, u, x] := by
  have fresh : Session grid (fun _ _ _ => True) [] [] := .start
  have evolution := fresh.answer (.evolution (.result ⟨3, 2⟩)) (.recur 1 (.recur 0 (.const 0) (.const 10)) (.const 1))
    trivial (by simp [Question.operands]) (by decide +kernel)
  have unknown := evolution.answer (.unknown (.result ⟨3, 1⟩)) (.unknown 1 (.result ⟨3, 1⟩))
    trivial (by simp [Question.operands]) (by decide +kernel)
  have sum := unknown.answer
    (.sum [.unknown 1 (.result ⟨3, 1⟩), .recur 1 (.recur 0 (.const 0) (.const 10)) (.const 1)])
    (.sum 0 [.unknown 1 (.result ⟨3, 1⟩), .recur 1 (.recur 0 (.const 0) (.const 10)) (.const 1)])
    trivial (by simp [Question.operands]) (by decide +kernel)
  have reversed := sum.answer
    (.sum [.recur 1 (.recur 0 (.const 0) (.const 10)) (.const 1), .unknown 1 (.result ⟨3, 1⟩)])
    (.sum 0 [.unknown 1 (.result ⟨3, 1⟩), .recur 1 (.recur 0 (.const 0) (.const 10)) (.const 1)])
    trivial (by simp [Question.operands]) (by decide +kernel)
  exact ⟨_, _, _, _, reversed, rfl, session_uniqued reversed⟩

end LoopConflict.Evolution
