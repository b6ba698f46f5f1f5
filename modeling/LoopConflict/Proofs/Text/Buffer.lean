import LoopConflict.Text.Buffer
import LoopConflict.Text.Decimal

/-!
What arrives behind a buffer. As long as the writer takes everything, what it has taken and what is kept back are the
bytes so far, and all of them are counted. When it fails it has taken as many bytes as it has room for, and what is
counted is no less (`Buffer.Sound`). Each piece keeps this up (`Buffer.Sound.write`), and so does a list of pieces
behind a counter (`Counter.Sound.foldl`).
-/
namespace LoopConflict.Text

/-- What comes later is not among the first bytes. -/
theorem extract_zero_append {bytes more : ByteArray} {n : Nat} (inside : n ≤ bytes.size) :
    (bytes ++ more).extract 0 n = bytes.extract 0 n := by
  have none : more.extract (0 - bytes.size) (n - bytes.size) = .empty := by
    rw [← ByteArray.size_eq_zero_iff, ByteArray.size_extract]
    omega
  rw [ByteArray.extract_append, none, ByteArray.append_empty]

/-- Bytes are the first of them and the others. -/
theorem extract_append_rest {bytes : ByteArray} {n : Nat} (inside : n ≤ bytes.size) :
    bytes.extract 0 n ++ bytes.extract n bytes.size = bytes := by
  rw [ByteArray.extract_append_extract, Nat.zero_min, Nat.max_eq_right inside, ByteArray.extract_zero_size]

theorem extract_zero_of_size_le {bytes : ByteArray} {n : Nat} (enough : bytes.size ≤ n) : bytes.extract 0 n = bytes := by
  apply ByteArray.ext
  rw [ByteArray.data_extract, Array.extract_eq_self_of_le enough]

theorem decoded_toUTF8 (s : String) : decoded s.toUTF8 = s := by
  rw [decoded, String.fromUTF8?, String.toUTF8_eq_toByteArray, dif_pos s.isValidUTF8]
  rfl

/-! ### Writers with a limit -/

theorem Sink.write_le (s : Sink) (bytes : ByteArray) : (s.write bytes).2 ≤ bytes.size := by
  obtain ⟨limit, taken⟩ := s
  cases limit with
  | none => exact Nat.le_refl _
  | some room => exact Nat.min_le_left _ _

/-- A writer takes all bytes, or it takes the first ones up to its limit. -/
theorem Sink.write_cases (s : Sink) (bytes : ByteArray) :
    ((s.write bytes).2 = bytes.size ∧ (s.write bytes).1.taken = s.taken ++ bytes ∧
      ∀ room, s.limit = some room → s.taken.size ≤ room → s.taken.size + bytes.size ≤ room) ∨
    ∃ room n, (s.write bytes).2 = n ∧ n < bytes.size ∧ s.limit = some room ∧ n = room - s.taken.size ∧
      (s.write bytes).1.taken = s.taken ++ bytes.extract 0 n := by
  obtain ⟨limit, taken⟩ := s
  cases limit with
  | none =>
    refine .inl ⟨rfl, ?_, fun room absent => by cases absent⟩
    exact congrArg (taken ++ ·) ByteArray.extract_zero_size
  | some room =>
    rcases Nat.lt_or_ge (room - taken.size) bytes.size with less | fits
    · refine .inr ⟨room, _, rfl, ?_, rfl, Nat.min_eq_right (Nat.le_of_lt less), rfl⟩
      exact Nat.lt_of_le_of_lt (Nat.min_le_right _ _) less
    · have all : min bytes.size (room - taken.size) = bytes.size := Nat.min_eq_left fits
      refine .inl ⟨all, ?_, fun room' same within => ?_⟩
      · change taken ++ bytes.extract 0 (min bytes.size (room - taken.size)) = _
        rw [all, ByteArray.extract_zero_size]
      · cases same
        change taken.size + bytes.size ≤ room
        change taken.size ≤ room at within
        omega

/-! ### Buffers -/

namespace Buffer

/-- Of the bytes that were handed over to a buffer, `count` are counted as taken. -/
structure Sound (limit : Option Nat) (b : Buffer) (count : Nat) (handed : ByteArray) : Prop where
  limited : b.sink.limit = limit
  counted : count ≤ handed.size
  /-- Nothing is lost before the writer fails, -/
  working : b.failed = false → b.sink.taken ++ b.pending = handed ∧ count = handed.size ∧
    ∀ room, limit = some room → b.sink.taken.size ≤ room
  /-- and then it has taken what it has room for. -/
  broken : b.failed = true → ∃ room, limit = some room ∧ room < handed.size ∧ room ≤ count ∧
    b.sink.taken = handed.extract 0 room

variable {limit : Option Nat} {b : Buffer} {count : Nat} {handed : ByteArray}

theorem sound_empty (limit : Option Nat) : Sound limit { sink := { limit } } 0 .empty where
  limited := rfl
  counted := Nat.le_refl _
  working _ := ⟨rfl, rfl, fun room _ => Nat.zero_le room⟩
  broken failed := by cases failed

namespace Sound

/-- A writer that has failed takes nothing of what comes later. -/
theorem append_of_failed (sound : Sound limit b count handed) (failed : b.failed = true) (bytes : ByteArray) :
    Sound limit b count (handed ++ bytes) where
  limited := sound.limited
  counted := by
    rw [ByteArray.size_append]
    exact Nat.le_add_right_of_le sound.counted
  working works := by
    rw [failed] at works
    cases works
  broken _ := by
    obtain ⟨room, isLimit, less, counted, taken⟩ := sound.broken failed
    refine ⟨room, isLimit, ?_, counted, ?_⟩
    · rw [ByteArray.size_append]
      omega
    · rw [extract_zero_append (Nat.le_of_lt less), taken]

theorem store (sound : Sound limit b count handed) (works : b.failed = false) (bytes : ByteArray) :
    Sound limit (b.store bytes) (count + bytes.size) (handed ++ bytes) where
  limited := sound.limited
  counted := by
    rw [ByteArray.size_append]
    exact Nat.add_le_add_right sound.counted _
  working _ := by
    obtain ⟨content, counted, within⟩ := sound.working works
    refine ⟨?_, by rw [ByteArray.size_append, counted], within⟩
    rw [← content, ByteArray.append_assoc]
    rfl
  broken failed := by
    rw [Buffer.store, works] at failed
    cases failed

end Sound

/-- Bytes are passed on behind those that were taken before. -/
theorem sound_pass {s : Sink} {bytes pending : ByteArray} (limited : s.limit = limit)
    (within : ∀ room, limit = some room → s.taken.size ≤ room)
    (kept : (s.write bytes).2 = bytes.size → pending = .empty)
    (least : s.taken.size + (s.write bytes).2 ≤ count) (most : count ≤ s.taken.size + bytes.size) :
    Sound limit ⟨(s.write bytes).1, pending, decide ((s.write bytes).2 < bytes.size)⟩ count (s.taken ++ bytes) := by
  rcases s.write_cases bytes with ⟨all, taken, fits⟩ | ⟨room, n, some, less, isLimit, isRest, taken⟩
  · refine ⟨limited, by rw [ByteArray.size_append]; exact most, fun _ => ⟨?_, ?_, fun room isLimit => ?_⟩, fun failed => ?_⟩
    · rw [taken, kept all, ByteArray.append_empty]
    · rw [ByteArray.size_append]
      omega
    · rw [taken, ByteArray.size_append]
      exact fits room (limited.trans isLimit) (within room isLimit)
    · simp [all] at failed
  · have enough := within room (limited.symm.trans isLimit)
    refine ⟨limited, by rw [ByteArray.size_append]; exact most, fun works => ?_,
      fun _ => ⟨room, limited.symm.trans isLimit, ?_, by omega, ?_⟩⟩
    · simp [some, less] at works
    · rw [ByteArray.size_append]
      omega
    · rw [taken, ByteArray.extract_append, Nat.zero_sub, ← isRest, extract_zero_of_size_le enough]

/-- Nothing is kept back after a flush, unless the writer fails. -/
theorem pending_flush (works : b.flush.failed = false) : b.flush.pending = .empty := by
  rw [Buffer.flush] at works ⊢
  split at works
  · rename_i failed
    rw [failed] at works
    cases works
  · rename_i notFailed
    rw [if_neg notFailed]
    have most := b.sink.write_le b.pending
    have all : ¬ (b.sink.write b.pending).2 < b.pending.size := of_decide_eq_false works
    exact ByteArray.extract_eq_empty_iff.mpr (by omega)

namespace Sound

theorem flush (sound : Sound limit b count handed) : Sound limit b.flush count handed := by
  rw [Buffer.flush]
  cases failed : b.failed with
  | true => exact sound
  | false =>
    obtain ⟨content, counted, within⟩ := sound.working failed
    rw [← content] at counted ⊢
    rw [ByteArray.size_append] at counted
    have most := b.sink.write_le b.pending
    refine sound_pass sound.limited within (fun all => ?_) (by omega) (by omega)
    change b.pending.extract (b.sink.write b.pending).2 _ = _
    rw [all, ByteArray.extract_same]

/-- A buffer in which nothing is kept back takes bytes. -/
theorem writeEmpty (sound : Sound limit b count handed) (works : b.failed = false) (empty : b.pending = .empty)
    (bytes : ByteArray) : Sound limit (b.writeEmpty bytes).1 (count + (b.writeEmpty bytes).2) (handed ++ bytes) := by
  rw [Buffer.writeEmpty]
  split
  · exact sound.store works bytes
  · obtain ⟨content, counted, within⟩ := sound.working works
    rw [empty, ByteArray.append_empty] at content
    have most := b.sink.write_le bytes
    rw [← content] at counted ⊢
    exact sound_pass sound.limited within (fun _ => empty) (Nat.le_of_eq (congrArg (· + _) counted.symm))
      (by dsimp only; omega)

/-- Whatever a buffer is handed, it takes it or the writer behind it fails. -/
theorem write (sound : Sound limit b count handed) (bytes : ByteArray) :
    Sound limit (b.write bytes).1 (count + (b.write bytes).2) (handed ++ bytes) := by
  rw [Buffer.write]
  cases failed : b.failed with
  | true =>
    rw [if_pos rfl]
    exact sound.append_of_failed failed bytes
  | false =>
    rw [if_neg Bool.false_ne_true]
    split
    · exact sound.store failed bytes
    · rename_i large
      split
      · rename_i empty
        exact sound.writeEmpty failed (ByteArray.size_eq_zero_iff.mp empty) bytes
      · -- The buffer is filled up first.
        have inside : b.available ≤ bytes.size := by omega
        have filled := (sound.store failed (bytes.extract 0 b.available)).flush
        have size : (bytes.extract 0 b.available).size = b.available := by
          rw [ByteArray.size_extract]
          omega
        rw [size] at filled
        have rest := fun works => filled.writeEmpty works (pending_flush works) (bytes.extract b.available bytes.size)
        rw [ByteArray.append_assoc, extract_append_rest inside] at rest
        have lost := fun failed => filled.append_of_failed failed (bytes.extract b.available bytes.size)
        rw [ByteArray.append_assoc, extract_append_rest inside] at lost
        dsimp only
        generalize (b.store (bytes.extract 0 b.available)).flush = flushed at rest lost ⊢
        cases broken : flushed.failed with
        | true =>
          rw [if_pos rfl]
          exact lost broken
        | false =>
          rw [if_neg Bool.false_ne_true]
          dsimp only
          rw [← Nat.add_assoc]
          exact rest broken

end Sound

end Buffer

/-! ### Counters -/

namespace Counter

/-- Of the bytes handed over to a counter, it counts those that the buffer behind it takes. -/
structure Sound (limit : Option Nat) (c : Counter) (handed : ByteArray) : Prop where
  buffer : c.buffer.Sound limit c.count handed
  failed : c.failed = c.buffer.failed

variable {limit : Option Nat} {c : Counter} {handed : ByteArray}

theorem Sound.write (sound : c.Sound limit handed) (piece : String) :
    (c.write piece).Sound limit (handed ++ piece.toUTF8) := by
  rw [Counter.write]
  cases failed : c.failed with
  | true => exact ⟨sound.buffer.append_of_failed (sound.failed.symm.trans failed) _, sound.failed⟩
  | false => exact ⟨sound.buffer.write _, rfl⟩

/-- The pieces are taken one after the other. -/
theorem Sound.foldl (sound : c.Sound limit handed) (pieces : List String) :
    (pieces.foldl Counter.write c).Sound limit (handed ++ (concat pieces).toUTF8) := by
  induction pieces generalizing c handed with
  | nil =>
    change c.Sound limit (handed ++ "".toByteArray)
    rw [String.toByteArray_empty, ByteArray.append_empty]
    exact sound
  | cons piece rest ih =>
    have later := ih (sound.write piece)
    rw [ByteArray.append_assoc, String.toUTF8_eq_toByteArray, String.toUTF8_eq_toByteArray,
      ← String.toByteArray_append] at later
    exact later

end Counter

end LoopConflict.Text
