import LoopConflict.Proofs.Access.Memory
import LoopConflict.Proofs.Access.Renumbering

/-!
Questions about accesses in two contexts. Each question is mirrored by the one with other numbers for unknown values:
variables are recognized, expressions are decomposed and models are made alike, if evolutions are found alike.
-/
namespace LoopConflict.Access

open Loop (Forest LoopId)
open Program (Function Place Value)
open Evolution (Expr Context Query Frame renumberPair mirrors_pure)

variable {F : Forest} {number : Value → Nat} {c : Context} {frame : Frame F number}

/-! ### Variables -/

section

variable (finds : frame.Finds)
include finds

theorem mirrors_firstCounting (l : LoopId) (phis : List Place) (holds : frame.holds c) :
    Query.Mirrors frame c (firstCounting l phis) (firstCounting l phis) (Option.map (·.renumber number))
      fun c' found => ∀ iv ∈ found, c'.Records iv.recurrence := by
  induction phis generalizing c with
  | nil => exact mirrors_pure holds rfl (by simp)
  | cons phi rest ih =>
    refine Query.mirrors_context holds fun c' here there => ?_
    rw [Context.function, Context.function, here, there]
    dsimp only
    split
    · refine (finds _ c holds).bind fun e c₁ holds _ isE => ?_
      rw [asVariable?_renumber]
      cases isVariable : asVariable? l phi e with
      | none => exact ih holds
      | some iv =>
        obtain ⟨_, recurs⟩ := recurrence_of_asVariable? isVariable
        simp only [Option.map_some, InductionVariable.renumber, Expr.const?_renumber]
        split
        · exact mirrors_pure holds rfl (by simpa [recurs] using isE)
        · exact ih holds
    · exact ih holds

theorem mirrors_recognize (l : LoopId) (holds : frame.holds c) :
    Query.Mirrors frame c (recognize l) (recognize l) (Option.map (·.renumber number))
      fun c' found => ∀ iv ∈ found, c'.Records iv.recurrence := by
  refine Query.mirrors_context holds fun c' here there => ?_
  rw [here, there]
  dsimp only
  split
  · exact mirrors_pure holds rfl (by simp)
  · rename_i x _
    have others : ∀ c, frame.holds c → Query.Mirrors frame c
        (if x.latch?.isSome && (x.entry? F.function).isSome then firstCounting l (x.phis F.function) else pure none)
        (if x.latch?.isSome && (x.entry? F.function).isSome then firstCounting l (x.phis F.function) else pure none)
        (Option.map (·.renumber number)) fun c' found => ∀ iv ∈ found, c'.Records iv.recurrence := by
      intro c holds
      split
      · exact mirrors_firstCounting finds l _ holds
      · exact mirrors_pure holds rfl (by simp)
    split
    · exact others c holds
    · rename_i phi _
      refine (finds _ c holds).bind fun e c₁ holds _ isE => ?_
      rw [asVariable?_renumber]
      cases isVariable : asVariable? l phi e with
      | none => exact others c₁ holds
      | some iv =>
        obtain ⟨_, recurs⟩ := recurrence_of_asVariable? isVariable
        exact mirrors_pure holds rfl (by simpa [recurs] using isE)

theorem mirrors_recognizeEach (loops : List LoopId) (holds : frame.holds c) :
    Query.Mirrors frame c (recognizeEach loops) (recognizeEach loops) (List.map (·.renumber number))
      fun c' ivs => ∀ iv ∈ ivs, c'.Records iv.recurrence := by
  induction loops generalizing c with
  | nil => exact mirrors_pure holds rfl (by simp)
  | cons l rest ih =>
    refine (mirrors_recognize finds l holds).bind fun iv c₁ holds _ isIv => (ih holds).bind fun ivs c₂ holds later isIvs => ?_
    refine mirrors_pure holds (by cases iv <;> simp) fun iv' member => ?_
    rcases List.mem_append.mp member with first | others
    · exact later.records _ (isIv iv' (by simpa using first))
    · exact isIvs iv' others

theorem mirrors_recognizeAll (holds : frame.holds c) :
    Query.Mirrors frame c recognizeAll recognizeAll (List.map (·.renumber number))
      fun c' ivs => ∀ iv ∈ ivs, c'.Records iv.recurrence := by
  refine Query.mirrors_context holds fun c' here there => ?_
  rw [here, there]
  exact mirrors_recognizeEach finds F.ids holds

end

/-! ### Affine forms -/

theorem renumber_ne (holds : frame.holds c) {e e' : Expr} (isE : c.Records e) (isE' : c.Records e') (differs : e ≠ e') :
    e.renumber number ≠ e'.renumber number :=
  ((frame.filed holds).renumber_inj isE isE').not.mpr differs

/-- The quotient and the remainder are recorded, if there are any. -/
def RecordsBoth (c : Context) (answer : Option (Expr × Expr)) : Prop :=
  ∀ p ∈ answer, c.Records p.1 ∧ c.Records p.2

theorem mirrors_factorConst (holds : frame.holds c) (n : Int64) (divisor : Option Int64) {rem : Expr}
    (isRem : c.Records rem) :
    Query.Mirrors frame c (factorConst n divisor rem) (factorConst n divisor (rem.renumber number))
      (Option.map (renumberPair number)) RecordsBoth := by
  unfold factorConst
  split
  · exact mirrors_pure holds rfl (by simp [RecordsBoth])
  · split
    · exact mirrors_pure holds rfl (by simp [RecordsBoth])
    · refine (Query.mirrors_const holds _).bind fun q c₁ holds later₁ isQ => ?_
      refine (Query.mirrors_const holds _).bind fun r c₂ holds later₂ isR => ?_
      have isRem := later₂.records _ (later₁.records _ isRem)
      refine (Query.mirrors_two holds .sum isRem isR.2).bind fun sum c₃ holds later₃ isSum => ?_
      have isQ := later₃.records _ (later₂.records _ isQ.2)
      exact mirrors_pure holds rfl (by simpa [RecordsBoth] using ⟨isQ, isSum⟩)

theorem mirrors_factorProduct (holds : frame.holds c) (k : Int64) {factors : List Expr}
    (recorded : ∀ e ∈ factors, c.Records e) (divisor : Option Int64) {rem : Expr} (isRem : c.Records rem) :
    Query.Mirrors frame c (factorProduct k factors divisor rem)
      (factorProduct k (factors.map (Expr.renumber number)) divisor (rem.renumber number))
      (Option.map (renumberPair number)) RecordsBoth := by
  unfold factorProduct
  split
  · exact mirrors_pure holds rfl (by simp [RecordsBoth])
  · split
    · exact mirrors_pure holds rfl (by simp [RecordsBoth])
    · refine (Query.mirrors_const holds _).bind fun q c₁ holds later₁ isQ => ?_
      have ready : ∀ e ∈ q :: factors, c₁.Records e ∨ ∃ n, e = .const n :=
        List.forall_mem_cons.mpr ⟨.inl isQ.2, fun e member => .inl (later₁.records e (recorded e member))⟩
      refine (Query.mirrors_combine holds .product ready).bind fun product c₂ holds later₂ isProduct => ?_
      have isRem := later₂.records _ (later₁.records _ isRem)
      exact mirrors_pure holds rfl (by simpa [RecordsBoth] using ⟨isProduct, isRem⟩)

theorem mirrors_factor (holds : frame.holds c) {divisor e rem : Expr} (isDivisor : c.Records divisor) (isE : c.Records e)
    (isRem : c.Records rem) :
    Query.Mirrors frame c (factor divisor e rem)
      (factor (divisor.renumber number) (e.renumber number) (rem.renumber number))
      (Option.map (renumberPair number)) RecordsBoth := by
  fun_induction factor divisor e rem generalizing c with
    (rw [factor.eq_def (divisor.renumber number)]; dsimp only)
  | case1 e rem one =>
    rw [if_pos (renumber_eq_const.mpr one)]
    exact mirrors_pure holds rfl (by simpa [RecordsBoth] using ⟨isE, isRem⟩)
  | case2 rem other =>
    rw [if_neg (renumber_eq_const.not.mpr other), if_pos rfl]
    refine (Query.mirrors_const holds 1).bind fun q c₁ holds later isQ => ?_
    exact mirrors_pure holds rfl (by simpa [RecordsBoth] using ⟨isQ.2, later.records _ isRem⟩)
  | case3 rem other differs =>
    rw [if_neg (renumber_eq_const.not.mpr other), if_neg (renumber_ne holds isE isDivisor differs)]
    refine (Query.mirrors_const holds 0).bind fun q c₁ holds later isQ => ?_
    exact mirrors_pure holds rfl (by simpa [RecordsBoth] using ⟨isQ.2, later.records _ isRem⟩)
  | case4 rem other n notZero differs =>
    rw [if_neg (renumber_eq_const.not.mpr other), if_neg (renumber_ne holds isE isDivisor differs)]
    simp only [Expr.renumber, if_neg notZero, Expr.const?_renumber]
    exact mirrors_factorConst holds n divisor.const? isRem
  | case5 rem other k factors differs =>
    rw [if_neg (renumber_eq_const.not.mpr other), if_neg (renumber_ne holds isE isDivisor differs)]
    simp only [Expr.renumber, Expr.renumberAll_eq, Expr.const?_renumber]
    refine mirrors_factorProduct holds k (fun e member => ?_) divisor.const? isRem
    exact isE.operand (frame.filed holds).tidy (Expr.mem_withConstant member)
  | case6 rem other l s t differs ihStep ihStart =>
    rw [if_neg (renumber_eq_const.not.mpr other), if_neg (renumber_ne holds isE isDivisor differs)]
    have isS := isE.operand (frame.filed holds).tidy (p := s) (by simp [Expr.operands])
    have isT := isE.operand (frame.filed holds).tidy (p := t) (by simp [Expr.operands])
    refine Query.mirrors_noWrap holds isE rfl fun noWrap' => ?_
    refine (Query.mirrors_const holds 0).bind fun zero c₁ holds later₁ isZero => ?_
    refine (ihStep zero holds (later₁.records _ isDivisor) (later₁.records _ isT) isZero.2).bind
      fun stepPair c₂ holds later₂ isStep => ?_
    cases stepPair with
    | none => exact mirrors_pure holds rfl (by simp [RecordsBoth])
    | some stepPair =>
      have later := later₁.trans later₂
      simp only [Option.map_some, renumberPair, Expr.isZero_renumber]
      split
      · refine (ihStart holds (later.records _ isDivisor) (later.records _ isS) (later.records _ isRem)).bind
          fun startPair c₃ holds later₃ isStart => ?_
        cases startPair with
        | none => exact mirrors_pure holds rfl (by simp [RecordsBoth])
        | some startPair =>
          have isStart := isStart startPair rfl
          have isStep := later₃.records _ (isStep stepPair rfl).1
          refine (Query.mirrors_recur holds isStart.1 isStep l noWrap').bind fun q c₄ holds later₄ isQ => ?_
          exact mirrors_pure holds rfl (by simpa [RecordsBoth] using ⟨isQ, later₄.records _ isStart.2⟩)
      · exact mirrors_pure holds rfl (by simp [RecordsBoth])
  | case7 e rem other differs notConst notProduct notRecur =>
    rw [if_neg (renumber_eq_const.not.mpr other), if_neg (renumber_ne holds isE isDivisor differs)]
    cases e with
    | const n => exact (notConst n rfl).elim
    | product k factors => exact (notProduct k factors rfl).elim
    | recur l s t => exact (notRecur l s t rfl).elim
    | _ => exact mirrors_pure holds rfl (by simp [RecordsBoth])

theorem mirrors_peel (holds : frame.holds c) {ivs : Variables} (recorded : RecordsAll c (ivs.map (·.recurrence)))
    {l : LoopId} {start step : Expr} (isRecur : c.Records (.recur l start step)) :
    Query.Mirrors frame c (peel ivs l start step)
      (peel (ivs.map (·.renumber number)) l (start.renumber number) (step.renumber number)) (renumberPeeled number)
      fun c' peeled => RecordsAll c' (listBoth AffineError.exprs (fun p => [p.1.iv.recurrence, p.2]) peeled) := by
  have filed := frame.filed holds
  have isStart := isRecur.operand filed.tidy (p := start) (by simp [Expr.operands])
  have isStep := isRecur.operand filed.tidy (p := step) (by simp [Expr.operands])
  have own : ∀ iv ∈ ivs, c.Records iv.recurrence := fun iv member => recorded _ (List.mem_map_of_mem member)
  unfold peel
  rw [Variables.ofLoop?_renumber]
  cases found : Variables.ofLoop? ivs l with
  | none => exact mirrors_pure holds rfl (by simp [RecordsAll, listBoth, AffineError.exprs])
  | some iv =>
    have isIv : c.Records iv.recurrence := own iv (List.mem_of_find?_eq_some found)
    have isIvStart : c.Records iv.start := isIv.operand filed.tidy (by simp [InductionVariable.recurrence, Expr.operands])
    have isIvStep : c.Records iv.step := isIv.operand filed.tidy (by simp [InductionVariable.recurrence, Expr.operands])
    -- A recurrence that is not the variable's own does not become it.
    have same : Variables.withRecurrence? (ivs.map (·.renumber number))
        (.recur l (start.renumber number) (step.renumber number)) = some (iv.renumber number) ↔
        Variables.withRecurrence? ivs (.recur l start step) = some iv := by
      rw [← Expr.renumber, Variables.withRecurrence?_renumber filed own isRecur]
      cases known : Variables.withRecurrence? ivs (.recur l start step) with
      | none => simp
      | some iv' =>
        have isIv' := own iv' (List.mem_of_find?_eq_some known)
        simpa using InductionVariable.renumber_inj filed isIv' isIv
    simp only [Option.map_some, same]
    split
    · refine (Query.mirrors_const holds 0).bind fun zero c₁ holds later isZero => mirrors_pure holds rfl ?_
      simpa [RecordsAll, listBoth] using ⟨later.records _ isIv, isZero.2⟩
    · refine (Query.mirrors_const holds 0).bind fun zero c₁ holds later₁ isZero => ?_
      refine (mirrors_factor holds (later₁.records _ isIvStep) (later₁.records _ isStep) isZero.2).bind
        fun factored c₂ holds later₂ isFactored => ?_
      have later := later₁.trans later₂
      cases factored with
      | none =>
        refine mirrors_pure holds rfl ?_
        simpa [RecordsAll, listBoth, AffineError.exprs] using ⟨later.records _ isStep, later.records _ isIvStep⟩
      | some factored =>
        obtain ⟨q, rem⟩ := factored
        have isQ := (isFactored _ rfl).1
        simp only [Option.map_some, renumberPair, Expr.isZero_renumber]
        split
        · cases q with
          | const k =>
            refine (Query.mirrors_two holds .product isQ (later.records _ isIvStart)).bind
              fun scaledStart c₃ holds later₃ isScaled => ?_
            have later := later.trans later₃
            refine (Query.mirrors_difference holds (later.records _ isStart) isScaled).bind
              fun rest c₄ holds later₄ isRest => mirrors_pure holds rfl ?_
            simpa [RecordsAll, listBoth] using ⟨(later.trans later₄).records _ isIv, isRest⟩
          | _ =>
            refine mirrors_pure holds rfl ?_
            simpa [RecordsAll, listBoth, AffineError.exprs] using ⟨isQ, later.records _ isIv⟩
        · refine mirrors_pure holds rfl ?_
          simpa [RecordsAll, listBoth, AffineError.exprs] using ⟨later.records _ isStep, later.records _ isIvStep⟩

theorem mirrors_peelAll (peelings : Nat) (holds : frame.holds c) {ivs : Variables}
    (recorded : RecordsAll c (ivs.map (·.recurrence))) {e : Expr} (isE : c.Records e) :
    Query.Mirrors frame c (peelAll ivs peelings e) (peelAll (ivs.map (·.renumber number)) peelings (e.renumber number))
      (Option.map (renumberForm number)) fun c' answer => ∀ form ∈ answer, RecordsAll c' (formExprs form) := by
  fun_induction peelAll ivs peelings e generalizing c with
  | case1 peelings l start step ih =>
    rw [Expr.renumber, peelAll]
    refine (mirrors_peel holds recorded isE).bind fun peeled c₁ holds later₁ isPeeled => ?_
    cases peeled with
    | error e => exact mirrors_pure holds rfl (by simpa [formExprs, listBoth] using isPeeled)
    | ok peeled =>
      obtain ⟨k, rest⟩ := peeled
      obtain ⟨isK, isRest⟩ : c₁.Records k.iv.recurrence ∧ c₁.Records rest := by
        simpa [RecordsAll, listBoth] using isPeeled
      refine (ih rest holds (recorded.later later₁) isRest).bind fun others c₂ holds later₂ isOthers => ?_
      cases others with
      | none => exact mirrors_pure holds rfl (by simp)
      | some form =>
        have isForm := isOthers form rfl
        cases form with
        | error e => exact mirrors_pure holds rfl (by simpa using isForm)
        | ok a =>
          refine mirrors_pure holds rfl fun form same => ?_
          cases same
          exact List.forall_mem_cons.mpr ⟨later₂.records _ isK, isForm⟩
  | case2 => exact mirrors_pure holds rfl (by simp)
  | case3 peelings k =>
    rw [Expr.renumber, peelAll]
    · exact mirrors_pure holds rfl (by simp [RecordsAll, formExprs, listBoth, Affine.exprs])
  | case4 peelings e notConst more last =>
    have isRest : ∀ form ∈ some (Except.error (AffineError.remains e)), RecordsAll c (formExprs form) := by
      simpa [RecordsAll, formExprs, listBoth, AffineError.exprs] using isE
    cases e with
    | const k => exact (notConst k rfl).elim
    | recur l s t =>
      cases peelings with
      | zero => exact (last l s t rfl rfl).elim
      | succ peelings => exact (more peelings l s t rfl rfl).elim
    | _ =>
      rw [Expr.renumber, peelAll]
      · exact mirrors_pure holds rfl isRest
      all_goals simp

theorem enoughPeelings_renumber (number : Value → Nat) (F : Forest) (ivs : Variables) (offset : Expr) :
    enoughPeelings F (ivs.map (·.renumber number)) (offset.renumber number) = enoughPeelings F ivs offset := by
  have starts : (ivs.map (·.renumber number)).map (·.start) = Expr.renumberAll number (ivs.map (·.start)) := by
    induction ivs with
    | nil => rfl
    | cons iv rest ih => rw [List.map_cons, List.map_cons, List.map_cons, Expr.renumberAll, ih, InductionVariable.renumber]
  rw [enoughPeelings, enoughPeelings, starts, Expr.sizes_renumberAll, Expr.size_renumber]

theorem mirrors_decompose (holds : frame.holds c) {ivs : Variables} (recorded : RecordsAll c (ivs.map (·.recurrence)))
    {offset : Expr} (isOffset : c.Records offset) :
    Query.Mirrors frame c (decompose ivs offset) (decompose (ivs.map (·.renumber number)) (offset.renumber number))
      (renumberForm number) fun c' form => RecordsAll c' (formExprs form) := by
  refine Query.mirrors_context holds fun c' here there => ?_
  rw [here, there, enoughPeelings_renumber]
  refine (mirrors_peelAll _ holds recorded isOffset).bind fun answer c₁ holds later isAnswer => ?_
  cases answer with
  | none =>
    refine mirrors_pure holds rfl ?_
    simpa [RecordsAll, formExprs, listBoth, AffineError.exprs] using later.records _ isOffset
  | some form => exact mirrors_pure holds rfl (isAnswer form rfl)

/-! ### Models -/

section

variable (finds : frame.Finds)
include finds

theorem mirrors_stepIndex (holds : frame.holds c) (step : Place) :
    Query.Mirrors frame c (stepIndex step) (stepIndex step) (Expr.renumber number) Context.Records := by
  refine Query.mirrors_context holds fun c' here there => ?_
  rw [Context.function, Context.function, here, there]
  split
  · exact finds _ c holds
  · exact (Query.mirrors_const holds _).mono fun _ _ both => both.2
  · exact (Query.mirrors_const holds _).mono fun _ _ both => both.2

theorem mirrors_bounds (holds : frame.holds c) {iv : InductionVariable} (recorded : c.Records iv.recurrence) :
    Query.Mirrors frame c (bounds iv) (bounds (iv.renumber number)) id fun _ _ => True := by
  refine Query.mirrors_context holds fun c' here there => ?_
  rw [here, there, InductionVariable.recurrence_renumber]
  simp only [InductionVariable.renumber, Expr.const?_renumber]
  refine (Query.mirrors_atScope finds _ _ holds recorded).bind fun seen c₁ holds _ _ => ?_
  cases seen with
  | const exit =>
    refine (Query.mirrors_tripCount finds iv.loop holds).bind fun count c₂ holds _ _ => ?_
    cases count with
    | none => exact mirrors_pure holds rfl trivial
    | some count =>
      obtain ⟨backedges, atHeader⟩ := count
      cases atHeader <;> exact mirrors_pure holds rfl trivial
  | _ => exact mirrors_pure holds rfl trivial

theorem mirrors_declare (holds : frame.holds c) {copies : List (String × InductionVariable)}
    (recorded : RecordsAll c (copyExprs copies)) :
    Query.Mirrors frame c (declare copies) (declare (copies.map (renumberCopy number))) id fun _ _ => True := by
  induction copies generalizing c with
  | nil => exact mirrors_pure holds rfl trivial
  | cons copy rest ih =>
    obtain ⟨first, others⟩ := List.forall_mem_cons.mp recorded
    refine (mirrors_bounds finds holds first).bind fun range c₁ holds later _ => ?_
    exact (ih holds (Each.later others later)).bind fun vars c₂ holds _ _ => mirrors_pure holds rfl trivial

theorem mirrors_conflictModel? (holds : frame.holds c) (label : String) {pairs : List (MemoryAccess × MemoryAccess)}
    (recorded : RecordsAll c (pairs.flatMap accessExprs)) :
    Query.Mirrors frame c (conflictModel? label pairs) (conflictModel? label (pairs.map (renumberAccesses number))) id
      fun _ _ => True := by
  refine Query.mirrors_context holds fun c' here there => ?_
  have copies := recordsAll_copies F.function recorded
  rw [Context.function, Context.function, here, there]
  dsimp only
  rw [equalIndices_renumber, copiesUsed_renumber, firstByName_renumber, constraintsOf_renumber]
  cases used : firstByName (copiesUsed F.function (equalIndices pairs)) with
  | nil => exact mirrors_pure holds rfl trivial
  | cons copy rest =>
    rw [used] at copies
    exact (mirrors_declare finds holds copies).bind fun vars c₁ holds _ _ => mirrors_pure holds rfl trivial

theorem mirrors_pairModel (holds : frame.holds c) (label : String) {pair : MemoryAccess × MemoryAccess}
    (recorded : RecordsAll c (accessExprs pair)) :
    Query.Mirrors frame c (pairModel label pair) (pairModel label (renumberAccesses number pair)) id fun _ _ => True := by
  refine (mirrors_conflictModel? finds holds label ?_).bind fun model c₁ holds _ _ => ?_
  · simpa using recorded
  cases model with
  | some model => exact mirrors_pure holds rfl trivial
  | none =>
    refine Query.mirrors_context holds fun c' here there => ?_
    have same : equalIndices [renumberAccesses number pair] = (equalIndices [pair]).map (renumberIndices number) :=
      equalIndices_renumber [pair]
    rw [Context.function, Context.function, here, there, same, constraintsOf_renumber]
    exact mirrors_pure holds rfl trivial

end

end LoopConflict.Access
