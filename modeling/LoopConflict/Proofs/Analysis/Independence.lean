import LoopConflict.Proofs.Access.Chain
import LoopConflict.Proofs.Analysis.Verdict

/-!
What an infeasible pair says about the accessed addresses. Two accesses whose addresses are chains of one
length from one root have the same address if they add the same at every link. But the model of a pair
also makes the further address computations agree that the two accesses depend on, and these need not
have anything to do with the addresses. So an infeasible pair is independent exactly if the further
computations agree wherever the links do (`infeasible_iff_further_agree`), as they do where the chains are
all that is computed. In `sharedStarts` a pair is called infeasible although its addresses can be equal.
-/
namespace LoopConflict

open Program (Function Place Value)
open Evolution (Context)
open Access

namespace Access

/-- What the address computation at a position adds to its base: the number of a field, or the value of
    an index. -/
def MemoryAccess.offset? (f : Function) (a : MemoryAccess) (x : InductionVariable → Int) (k : Nat) : Option Int :=
  match (a.steps[k]?).bind f.operation? with
  | some (.fieldAddress _ n) => some (Int64.ofNat n).toInt
  | _ => (a.equations[k]?).map (Affine.value x)

/-- The two accesses add the same at the positions from `i` up to `j`. -/
def AgreeFrom (f : Function) (a b : MemoryAccess) (x y : InductionVariable → Int) (i j : Nat) : Prop :=
  ∀ k, i ≤ k → k < j → ∃ n, a.offset? f x k = some n ∧ b.offset? f y k = some n

theorem AgreeFrom.append {f : Function} {a b : MemoryAccess} {x y : InductionVariable → Int} {i j k : Nat}
    (first : AgreeFrom f a b x y i j) (second : AgreeFrom f a b x y j k) : AgreeFrom f a b x y i k := by
  intro n lower upper
  by_cases before : n < j
  · exact first n lower before
  · exact second n (by omega) upper

theorem MemoryAccess.Described.index {f : Function} {wide : Bool} {ivs : Variables} {a : MemoryAccess}
    (described : a.Described f wide ivs) {k : Nat} {e : Affine} (here : a.equations[k]? = some e) :
    ∃ step, a.steps[k]? = some step ∧ IndexOf f ivs step e := by
  obtain ⟨_, equations⟩ := described
  generalize a.steps = steps at equations ⊢
  generalize a.equations = es at equations here
  induction equations generalizing k with
  | nil => simp at here
  | cons index _ ih =>
    cases k with
    | zero =>
      simp at here
      subst here
      exact ⟨_, rfl, index⟩
    | succ k => exact ih (by simpa using here)

/-- The index of a step is what it adds, also for a field. -/
theorem MemoryAccess.Described.offset?_eq {f : Function} {wide : Bool} {ivs : Variables} {a : MemoryAccess}
    (described : a.Described f wide ivs) (x : InductionVariable → Int) {k : Nat} {e : Affine}
    (here : a.equations[k]? = some e) : a.offset? f x k = some (e.value x) := by
  obtain ⟨step, found, index⟩ := described.index here
  unfold MemoryAccess.offset?
  rw [found, Option.bind_some]
  split
  · rename_i base n field
    rw [index.field base n field]
    simp [Affine.value]
  · rw [here, Option.map_some]

end Access

section

variable {f : Function} {o : Options} {p : Pair}

/-- Accesses that add the same at all positions conflict. -/
theorem Pair.Settled.conflict (settled : p.Settled (analyze f o).context o (inductionVariables f))
    {x y : InductionVariable → Int} (ranges : InRanges (analyze f o).context p.a p.b x y)
    (agree : AgreeFrom f p.a p.b x y 0 p.a.equations.length) : Conflict (analyze f o).context p.a p.b x y := by
  have first := settled.first
  have second := settled.second
  rw [analyze_function] at first second
  refine ⟨ranges, fun k e e' left right => ?_⟩
  obtain ⟨n, added, added'⟩ := agree k (Nat.zero_le k) (List.getElem?_eq_some_iff.mp left).1
  rw [first.offset?_eq x left] at added
  rw [second.offset?_eq y right] at added'
  rw [← added'] at added
  exact Option.some.inj added

/-- The accesses of an infeasible pair do not add the same at all positions. -/
theorem Pair.Settled.not_agree (settled : p.Settled (analyze f o).context o (inductionVariables f)) (named : f.PhisNamed)
    (infeasible : p.result.status = .infeasible) {x y : InductionVariable → Int}
    (ranges : InRanges (analyze f o).context p.a p.b x y) : ¬ AgreeFrom f p.a p.b x y 0 p.a.steps.length := by
  intro agree
  have arity := settled.first.equations.length_eq
  rw [arity] at agree
  exact not_conflict_of_infeasible settled named infeasible ⟨x, y, settled.conflict ranges agree⟩

/-- The chain of the accessed address stands at the front of the address computations. -/
theorem Access.MemoryAccess.Described.exists_steps_eq {wide : Bool} {ivs : Variables} {a : MemoryAccess}
    (described : a.Described f wide ivs) (narrow : wide = false) {v root : Value} {links : List Place}
    (accessed : accessedAddress? f a.place = some v) (chain : Chain f v links root) :
    ∃ more, a.steps = links ++ more := by
  rw [described.steps, narrow]
  exact chain.exists_addressSteps_eq accessed

end

/-- Where the links of an infeasible pair agree, some computation behind the chains does not. So the pair is
    independent exactly if the computations behind the chains agree wherever the links do, and in particular if there
    are none. -/
theorem infeasible_iff_further_agree (f : Function) (o : Options) (named : f.PhisNamed) (narrow : o.wide = false)
    (r : LoopResult) (inLoops : r ∈ (analyze f o).loops) (p : Pair) (inPairs : p ∈ r.pairs)
    (infeasible : p.result.status = .infeasible) (v v' root : Value) (links links' : List Place)
    (accessed : accessedAddress? f p.a.place = some v) (accessed' : accessedAddress? f p.b.place = some v')
    (chain : Chain f v links root) (chain' : Chain f v' links' root) (length : links.length = links'.length) :
    ∃ more more', p.a.steps = links ++ more ∧ p.b.steps = links' ++ more' ∧ more.length = more'.length ∧
      (∀ x y, InRanges (analyze f o).context p.a p.b x y → AgreeFrom f p.a p.b x y 0 links.length →
        ∃ k, links.length ≤ k ∧ k < links.length + more.length ∧ p.a.offset? f x k ≠ p.b.offset? f y k) ∧
      ((∀ x y, InRanges (analyze f o).context p.a p.b x y → ¬ AgreeFrom f p.a p.b x y 0 links.length) ↔
        ∀ x y, InRanges (analyze f o).context p.a p.b x y → AgreeFrom f p.a p.b x y 0 links.length →
          AgreeFrom f p.a p.b x y links.length (links.length + more.length)) ∧
      (more = [] → ∀ x y, InRanges (analyze f o).context p.a p.b x y → ¬ AgreeFrom f p.a p.b x y 0 links.length) := by
  have settled := analyze_settled inLoops inPairs
  have first := settled.first
  have second := settled.second
  rw [analyze_function] at first second
  obtain ⟨more, steps⟩ := first.exists_steps_eq narrow accessed chain
  obtain ⟨more', steps'⟩ := second.exists_steps_eq narrow accessed' chain'
  have arity := first.equations.length_eq
  have arity' := second.equations.length_eq
  rw [steps, List.length_append] at arity
  rw [steps', List.length_append] at arity'
  have same := settled.arity
  have independent : ∀ x y, InRanges (analyze f o).context p.a p.b x y →
      ¬ AgreeFrom f p.a p.b x y 0 (links.length + more.length) := by
    intro x y ranges
    have apart := settled.not_agree named infeasible ranges
    rwa [steps, List.length_append] at apart
  refine ⟨more, more', steps, steps', by omega, ?_, ?_, ?_⟩
  · intro x y ranges agree
    by_contra equal
    push Not at equal
    refine independent x y ranges (agree.append fun k lower upper => ?_)
    have inside : k < p.a.equations.length := by omega
    obtain ⟨e, here⟩ : ∃ e, p.a.equations[k]? = some e := ⟨_, List.getElem?_eq_getElem inside⟩
    refine ⟨e.value x, first.offset?_eq x here, ?_⟩
    rw [← equal k lower upper, first.offset?_eq x here]
  · constructor
    · intro apart x y ranges agree
      exact absurd agree (apart x y ranges)
    · intro further x y ranges agree
      exact independent x y ranges (agree.append (further x y ranges agree))
  · rintro rfl x y ranges
    exact independent x y ranges

/-- Two nested loops start at different elements of one list and go through another: the inner one reads
    where the outer one writes. That the starts are different elements says nothing about what they are. -/
def sharedStarts : Function where
  name := "sharedStarts"
  receiver := none
  types := []
  params := [⟨"a", .slice (.basic .int), 0⟩, ⟨"starts", .slice (.basic .int), 0⟩, ⟨"n", .basic .int, 0⟩]
  free := []
  globals := []
  constants := [⟨.int 0, .basic .int⟩, ⟨.int 1, .basic .int⟩]
  blocks := [
    ⟨"entry", [], [1], [
      ⟨.indexAddress (.param 1) (.const 0), some ("t0", .pointer (.basic .int)), 0⟩,
      ⟨.load (.result ⟨0, 0⟩), some ("t1", .basic .int), 0⟩,
      ⟨.jump, none, 0⟩]⟩,
    ⟨"for.loop", [0, 5], [2, 6], [
      ⟨.phi [.result ⟨0, 1⟩, .result ⟨5, 0⟩] "i", some ("t2", .basic .int), 0⟩,
      ⟨.binary (.compare .lt) (.result ⟨1, 0⟩) (.param 2), some ("t3", .basic .bool), 0⟩,
      ⟨.branch (.result ⟨1, 1⟩), none, 0⟩]⟩,
    ⟨"for.body", [1], [3], [
      ⟨.indexAddress (.param 1) (.const 1), some ("t4", .pointer (.basic .int)), 0⟩,
      ⟨.load (.result ⟨2, 0⟩), some ("t5", .basic .int), 0⟩,
      ⟨.jump, none, 0⟩]⟩,
    ⟨"for.loop", [2, 4], [4, 5], [
      ⟨.phi [.result ⟨2, 1⟩, .result ⟨4, 4⟩] "j", some ("t6", .basic .int), 0⟩,
      ⟨.binary (.compare .lt) (.result ⟨3, 0⟩) (.param 2), some ("t7", .basic .bool), 0⟩,
      ⟨.branch (.result ⟨3, 1⟩), none, 0⟩]⟩,
    ⟨"for.body", [3], [3], [
      ⟨.indexAddress (.param 0) (.result ⟨3, 0⟩), some ("t8", .pointer (.basic .int)), 0⟩,
      ⟨.load (.result ⟨4, 0⟩), some ("t9", .basic .int), 0⟩,
      ⟨.indexAddress (.param 0) (.result ⟨1, 0⟩), some ("t10", .pointer (.basic .int)), 0⟩,
      ⟨.store (.result ⟨4, 2⟩) (.result ⟨4, 1⟩), none, 0⟩,
      ⟨.binary .add (.result ⟨3, 0⟩) (.const 1), some ("t11", .basic .int), 0⟩,
      ⟨.jump, none, 0⟩]⟩,
    ⟨"for.done", [3], [1], [
      ⟨.binary .add (.result ⟨1, 0⟩) (.const 1), some ("t12", .basic .int), 0⟩,
      ⟨.jump, none, 0⟩]⟩,
    ⟨"for.done", [1], [], [⟨.leave [], none, 0⟩]⟩]
  recover := none

theorem sharedStarts_may_conflict :
    sharedStarts.definitionsDominate = true ∧
      ∃ r ∈ (analyze sharedStarts {}).loops, ∃ p ∈ r.pairs, p.result.status = .infeasible ∧
        (∃ x y, InRanges (analyze sharedStarts {}).context p.a p.b x y ∧ AgreeFrom sharedStarts p.a p.b x y 0 1) ∧
        ∃ more, p.a.steps = ⟨4, 0⟩ :: more ∧
          ¬ ∀ x y, InRanges (analyze sharedStarts {}).context p.a p.b x y → AgreeFrom sharedStarts p.a p.b x y 0 1 →
            AgreeFrom sharedStarts p.a p.b x y 1 (1 + more.length) := by
  have named : sharedStarts.PhisNamed := ⟨by decide +kernel, by decide +kernel⟩
  have found : ∃ r ∈ (analyze sharedStarts {}).loops, ∃ p ∈ r.pairs, p.result.status = .infeasible ∧
      p.a.place = ⟨4, 1⟩ ∧ p.b.place = ⟨4, 3⟩ ∧
      (∀ iv ∈ p.a.variables ++ p.b.variables, (bounds iv (analyze sharedStarts {}).context).1 = (none, none)) ∧
      p.a.offset? sharedStarts (fun _ => 0) 0 = some 0 ∧ p.b.offset? sharedStarts (fun _ => 0) 0 = some 0 := by
    decide +kernel
  obtain ⟨r, inLoops, p, inPairs, infeasible, load, store, unbounded, read, written⟩ := found
  have unlimited : ∀ iv ∈ p.a.variables ++ p.b.variables, InRange (analyze sharedStarts {}).context iv 0 := by
    intro iv used
    refine ⟨fun lo present => ?_, fun hi present => ?_⟩
    · rw [unbounded iv used] at present
      cases present
    · rw [unbounded iv used] at present
      cases present
  have ranges : InRanges (analyze sharedStarts {}).context p.a p.b (fun _ => 0) fun _ => 0 :=
    ⟨fun iv used => unlimited iv (List.mem_append_left _ used), fun iv used => unlimited iv (List.mem_append_right _ used)⟩
  have agree : AgreeFrom sharedStarts p.a p.b (fun _ => 0) (fun _ => 0) 0 1 := by
    intro k _ upper
    obtain rfl : k = 0 := by omega
    exact ⟨0, read, written⟩
  have chain : Chain sharedStarts (.result ⟨4, 0⟩) [⟨4, 0⟩] (.param 0) := .link rfl (.root rfl)
  have chain' : Chain sharedStarts (.result ⟨4, 2⟩) [⟨4, 2⟩] (.param 0) := .link rfl (.root rfl)
  obtain ⟨more, _, steps, _, _, _, exactly, _⟩ := infeasible_iff_further_agree sharedStarts {} named rfl r inLoops p inPairs
    infeasible _ _ _ _ _ (by rw [load]; rfl) (by rw [store]; rfl) chain chain' rfl
  refine ⟨by decide +kernel, r, inLoops, p, inPairs, infeasible, ⟨_, _, ranges, agree⟩, more, steps, ?_⟩
  intro further
  exact exactly.mpr further _ _ ranges agree

end LoopConflict
