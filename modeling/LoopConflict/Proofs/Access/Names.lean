import LoopConflict.Access.Constraints
import LoopConflict.Proofs.Linear.Name
import LoopConflict.Proofs.Program.WellFormed
import Mathlib.Data.List.Nodup

/-!
The names of variable copies. Making a name out of a text replaces all bytes that names cannot have, so
different texts can get one name. The copies of induction variables are still told apart: whatever the
comment of a phi is, its register and the mark of the side stand at the end of the copy's name, where
nothing is replaced (`eq_of_copyNameOf_eq`). This does not take the comment to be a text: it can be any bytes.
-/
namespace LoopConflict

open Program (Function Place Value)

namespace Access

/-! ### Names by their bytes -/

/-- The register of a phi, after its comment if it has one. -/
def phiBytes (comment register : List UInt8) : List UInt8 :=
  if comment = [] then register else comment ++ ".".toUTF8.toList ++ register

/-- The name of the copy for one side of a phi with the given bytes for a comment. -/
def copyNameOf (f : Function) (comment : List UInt8) (side : Side) (phi : Place) : String :=
  let register := (f.nameOf (.result phi)).toUTF8.toList
  String.ofList (Linear.nameOfBytes (phiBytes comment register ++ "_".toUTF8.toList ++ side.mark.toUTF8.toList))

theorem exists_phiBytes_eq (comment register : List UInt8) : ∃ front, phiBytes comment register = front ++ register := by
  unfold phiBytes
  split
  · exact ⟨[], rfl⟩
  · exact ⟨_, rfl⟩

theorem bytes_eq_nil_iff (s : String) : s.toUTF8.toList = [] ↔ s = "" := by
  constructor
  · intro empty
    have none : s.toList = [] := by
      cases text : s.toList with
      | nil => rfl
      | cons c rest =>
        rw [Linear.toUTF8_toList, text, List.flatMap_cons, List.append_eq_nil_iff] at empty
        exact absurd empty.1 String.utf8EncodeChar_ne_nil
    rw [← String.toList_inj, none]
    rfl
  · rintro rfl
    rw [Linear.toUTF8_toList]
    rfl

/-- The copies that are made have the names that belong to the comments of their phis. -/
theorem copyName_eq_copyNameOf {f : Function} {iv : InductionVariable} {edges : List Value} {comment : String}
    (isPhi : f.operation? iv.phi = some (.phi edges comment)) (side : Side) :
    copyName f side iv = copyNameOf f comment.toUTF8.toList side iv.phi := by
  have definition : f.definition? (.result iv.phi) = some (.phi edges comment) := isPhi
  have name : iv.name f = if comment = "" then f.nameOf (.result iv.phi)
      else comment ++ "." ++ f.nameOf (.result iv.phi) := by
    rw [InductionVariable.name, Function.sourceName, Function.sourceNameWithin, definition]
  have bytes : (iv.name f).toUTF8.toList = phiBytes comment.toUTF8.toList (f.nameOf (.result iv.phi)).toUTF8.toList := by
    rw [name, phiBytes]
    by_cases none : comment = ""
    · rw [if_pos none, if_pos ((bytes_eq_nil_iff comment).mpr none)]
    · rw [if_neg none, if_neg (mt (bytes_eq_nil_iff comment).mp none), Linear.toUTF8_toList_append,
        Linear.toUTF8_toList_append]
  rw [copyName, Linear.nameOf, Linear.toUTF8_toList_append, Linear.toUTF8_toList_append, bytes]
  rfl

/-! ### Copies told apart -/

theorem Side.exists_mark (side : Side) : ∃ c, side.mark.toList = [c] ∧ c.isAlphanum = true := by
  cases side with
  | first => exact ⟨'a', rfl, by decide⟩
  | second => exact ⟨'B', rfl, by decide⟩

/-- What a copy is told apart by stands at the end of its name. -/
theorem exists_copyNameOf_toList {f : Function} (named : f.PhisNamed) {phi : Place} (isPhi : f.IsPhi phi)
    (comment : List UInt8) (side : Side) :
    ∃ front digits, (copyNameOf f comment side phi).toList = front ++ 't' :: digits ++ '_' :: side.mark.toList ∧
      (f.nameOf (.result phi)).toList = 't' :: digits ∧ ∀ d ∈ digits, d.isDigit = true := by
  obtain ⟨before, form⟩ := exists_phiBytes_eq comment (f.nameOf (.result phi)).toUTF8.toList
  obtain ⟨digits, spelled, decimal⟩ :=
    Program.exists_digits_of_isRegister (named.register phi isPhi.mem_phis)
  have ending : (f.nameOf (.result phi) ++ "_" ++ side.mark).toList = 't' :: digits ++ '_' :: side.mark.toList := by
    simp [String.toList_append, spelled]
  have allowed : ∀ c ∈ (f.nameOf (.result phi) ++ "_" ++ side.mark).toList, Linear.IsNameChar c := by
    intro c member
    rw [ending, List.mem_append, List.mem_cons, List.mem_cons] at member
    rcases member with (rfl | inDigits) | rfl | inMark
    · exact .inl (by decide)
    · exact .inl (by rw [Char.isAlphanum, decimal c inDigits, Bool.or_true])
    · exact .inr rfl
    · obtain ⟨mark, spelled, alphanumeric⟩ := side.exists_mark
      rw [spelled, List.mem_singleton] at inMark
      exact .inl (inMark ▸ alphanumeric)
  obtain ⟨front, name⟩ := Linear.exists_nameOfBytes_append before allowed
  rw [Linear.toUTF8_toList_append, Linear.toUTF8_toList_append, ← List.append_assoc, ← List.append_assoc, ← form,
    ending, ← List.append_assoc] at name
  refine ⟨front, digits, ?_, spelled, decimal⟩
  rw [copyNameOf, String.toList_ofList, name]

/-- Two copies have one name only if they are copies of the same phi for the same side. -/
theorem eq_of_copyNameOf_eq {f : Function} (named : f.PhisNamed) {phi phi' : Place} (isPhi : f.IsPhi phi)
    (isPhi' : f.IsPhi phi') {comment comment' : List UInt8} {side side' : Side}
    (same : copyNameOf f comment side phi = copyNameOf f comment' side' phi') : side = side' ∧ phi = phi' := by
  obtain ⟨front, digits, form, register, decimal⟩ := exists_copyNameOf_toList named isPhi comment side
  obtain ⟨front', digits', form', register', decimal'⟩ := exists_copyNameOf_toList named isPhi' comment' side'
  obtain ⟨c, mark, _⟩ := side.exists_mark
  obtain ⟨c', mark', _⟩ := side'.exists_mark
  -- Read from its end, a name is the mark, an underscore, and digits down to the letter of the register.
  have reversed : c :: '_' :: (digits.reverse ++ 't' :: front.reverse) =
      c' :: '_' :: (digits'.reverse ++ 't' :: front'.reverse) := by
    have reversed := congrArg List.reverse (form.symm.trans ((congrArg String.toList same).trans form'))
    rw [mark, mark'] at reversed
    simpa using reversed
  obtain ⟨sameMark, rest⟩ := List.cons.inj reversed
  have sameDigits : digits = digits' := by
    have taken := congrArg (List.takeWhile Char.isDigit) (List.cons.inj rest).2
    rw [List.takeWhile_append_of_pos (fun d member => decimal d (List.mem_reverse.mp member)),
      List.takeWhile_append_of_pos (fun d member => decimal' d (List.mem_reverse.mp member)),
      List.takeWhile_cons_of_neg (by decide), List.takeWhile_cons_of_neg (by decide)] at taken
    simpa using taken
  refine ⟨?_, ?_⟩
  · have spelled : side.mark.toList = side'.mark.toList := by rw [mark, mark', sameMark]
    revert spelled
    cases side <;> cases side' <;> decide
  · have sameName : f.nameOf (.result phi) = f.nameOf (.result phi') := by
      rw [← String.toList_inj, register, register', sameDigits]
    exact List.inj_on_of_nodup_map named.distinct isPhi.mem_phis isPhi'.mem_phis sameName

theorem eq_of_copyName_eq {f : Function} (named : f.PhisNamed) {iv iv' : InductionVariable} (phi : f.IsPhi iv.phi)
    (phi' : f.IsPhi iv'.phi) {side side' : Side} (same : copyName f side iv = copyName f side' iv') :
    side = side' ∧ iv.phi = iv'.phi := by
  obtain ⟨_, _, isPhi⟩ := phi
  obtain ⟨_, _, isPhi'⟩ := phi'
  rw [copyName_eq_copyNameOf isPhi, copyName_eq_copyNameOf isPhi'] at same
  exact eq_of_copyNameOf_eq named ⟨_, _, isPhi⟩ ⟨_, _, isPhi'⟩ same

/-- The copies of phis with registers of their own have names that are accepted, and different names for different phis
    and sides, whatever bytes the comments are. This is not so because names kept all bytes apart. -/
theorem copyNames_valid_apart {f : Function} (named : f.PhisNamed) :
    (∀ comment side phi, Linear.IsVariable (copyNameOf f comment side phi)) ∧
      (∀ comment comment' side side' phi phi', f.IsPhi phi → f.IsPhi phi' →
        copyNameOf f comment side phi = copyNameOf f comment' side' phi' → phi = phi' ∧ side = side') ∧
      (∀ side iv edges comment, f.operation? iv.phi = some (.phi edges comment) →
        copyName f side iv = copyNameOf f comment.toUTF8.toList side iv.phi) ∧
      ∀ front rest b, Linear.isNameByte b = false →
        Linear.nameOfBytes (front ++ b :: rest) = Linear.nameOfBytes (front ++ 95 :: rest) := by
  refine ⟨fun comment side phi => Linear.isVariable_nameOfBytes _, ?_,
    fun side iv edges comment isPhi => copyName_eq_copyNameOf isPhi side,
    fun front rest b foreign => Linear.nameOfBytes_replace foreign front rest⟩
  intro comment comment' side side' phi phi' isPhi isPhi' same
  exact (eq_of_copyNameOf_eq named isPhi isPhi' same).symm

/-- Two counters with registers that begin alike. -/
def alike : Function where
  name := "alike"
  receiver := none
  types := []
  params := []
  free := []
  globals := []
  constants := [⟨.int 0, .basic .int⟩, ⟨.int 1, .basic .int⟩, ⟨.int 10, .basic .int⟩]
  blocks := [
    ⟨"entry", [], [1], [⟨.jump, none, 0⟩]⟩,
    ⟨"for.body", [0, 1], [2, 1], [
      ⟨.phi [.const 0, .result ⟨1, 2⟩] "i", some ("t1", .basic .int), 0⟩,
      ⟨.phi [.const 1, .result ⟨1, 3⟩] "j", some ("t12", .basic .int), 0⟩,
      ⟨.binary .add (.result ⟨1, 0⟩) (.const 1), some ("t2", .basic .int), 0⟩,
      ⟨.binary .add (.result ⟨1, 1⟩) (.const 1), some ("t3", .basic .int), 0⟩,
      ⟨.binary (.compare .ge) (.result ⟨1, 2⟩) (.const 2), some ("t4", .basic .bool), 0⟩,
      ⟨.branch (.result ⟨1, 4⟩), none, 0⟩]⟩,
    ⟨"for.done", [1], [], [⟨.leave [], none, 0⟩]⟩]
  recover := none

/-- The comment of the first one ends like the copy of the second one, after a byte that no text starts with. -/
theorem alike_apart : alike.PhisNamed ∧ alike.IsPhi ⟨1, 0⟩ ∧ alike.IsPhi ⟨1, 1⟩ ∧
    copyNameOf alike (255 :: ".t12_a".toUTF8.toList) .first ⟨1, 0⟩ = "__t12_a_t1_a" ∧ Linear.IsVariable "__t12_a_t1_a" ∧
    "__t12_a_t1_a" ≠ copyNameOf alike [255] .first ⟨1, 1⟩ := by
  have named : alike.PhisNamed := ⟨by decide +kernel, by decide +kernel⟩
  have first : alike.IsPhi ⟨1, 0⟩ := ⟨_, _, rfl⟩
  have second : alike.IsPhi ⟨1, 1⟩ := ⟨_, _, rfl⟩
  have name : copyNameOf alike (255 :: ".t12_a".toUTF8.toList) .first ⟨1, 0⟩ = "__t12_a_t1_a" := by decide +kernel
  obtain ⟨valid, apart, _⟩ := copyNames_valid_apart named
  refine ⟨named, first, second, name, name ▸ valid _ _ _, fun same => ?_⟩
  exact absurd (apart _ _ _ _ _ _ first second (name.trans same)).1 (by decide)

end Access

end LoopConflict
