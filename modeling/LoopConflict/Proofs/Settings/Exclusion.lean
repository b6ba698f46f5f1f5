import LoopConflict.Proofs.Linear.Name
import LoopConflict.Proofs.Settings.Precedence

/-!
Which functions are left out. The lists of the files are spliced, so a pattern counts if it stands in a list and all
nearer lists take up what is below them (`mem_exclude_ofLayers`). No mark is left when the list is put in order, and
the order is that of the bytes of the patterns, although it is characters that are compared (`bytesBefore_of_lt`). So
there are always settings where all files can be read, and their list is resolved (`exclusion_resolved`).
-/
namespace LoopConflict

/-! ### Bytes -/

/-- The bytes of the first text come before those of the second one. -/
def BytesBefore (x y : String) : Prop :=
  List.Lex (· < ·) x.toUTF8.toList y.toUTF8.toList

/-- A number without its last `k` digits to the base 64. -/
def leadingDigits : (k : Nat) → Nat → Nat
  | 0, n => n
  | k + 1, n => leadingDigits k (n / 64)

/-- The last `k` digits of a number to the base 64, as the bytes after the first one of a character. -/
def laterBytes : (k : Nat) → Nat → List UInt8
  | 0, _ => []
  | k + 1, n => laterBytes k (n / 64) ++ [UInt8.ofNat (n % 64 + 128)]

theorem leadingDigits_mono (k : Nat) {m n : Nat} (le : m ≤ n) : leadingDigits k m ≤ leadingDigits k n := by
  induction k generalizing m n with
  | zero => exact le
  | succ k ih => exact ih (Nat.div_le_div_right le)

theorem lex_ofNat {a b : Nat} (less : a < b) (small : b < 256) (r r' : List UInt8) :
    List.Lex (· < ·) (UInt8.ofNat a :: r) (UInt8.ofNat b :: r') := by
  refine .rel ?_
  rw [UInt8.lt_iff_toNat_lt, UInt8.toNat_ofNat', UInt8.toNat_ofNat']
  omega

/-- Of numbers that only differ in their last digits, the smaller one has the lower bytes. -/
theorem lex_laterBytes (k : Nat) {m n : Nat} (less : m < n) (same : leadingDigits k m = leadingDigits k n)
    (r r' : List UInt8) : List.Lex (· < ·) (laterBytes k m ++ r) (laterBytes k n ++ r') := by
  induction k generalizing m n r r' with
  | zero => exact absurd same (Nat.ne_of_lt less)
  | succ k ih =>
    rw [laterBytes, laterBytes, List.append_assoc, List.append_assoc]
    by_cases higher : m / 64 < n / 64
    · exact ih higher same _ _
    · have front : m / 64 = n / 64 := by omega
      rw [front]
      exact List.append_left_lt (lex_ofNat (by omega) (by omega) r r')

/-- A first byte with the leading digits, and the others. -/
theorem lex_leadingDigits {k first m n : Nat} (less : m < n) (small : leadingDigits k n + first < 256)
    (r r' : List UInt8) :
    List.Lex (· < ·) (UInt8.ofNat (leadingDigits k m + first) :: laterBytes k m ++ r)
      (UInt8.ofNat (leadingDigits k n + first) :: laterBytes k n ++ r') := by
  rcases Nat.lt_or_eq_of_le (leadingDigits_mono k (Nat.le_of_lt less)) with lower | same
  · exact lex_ofNat (by omega) small _ _
  · rw [same]
    exact .cons (lex_laterBytes k less same r r')

theorem utf8EncodeChar_cases (c : Char) :
    (c.toNat < 128 ∧ String.utf8EncodeChar c = UInt8.ofNat (leadingDigits 0 c.toNat + 0) :: laterBytes 0 c.toNat) ∨
    (128 ≤ c.toNat ∧ c.toNat < 2048 ∧
      String.utf8EncodeChar c = UInt8.ofNat (leadingDigits 1 c.toNat + 192) :: laterBytes 1 c.toNat) ∨
    (2048 ≤ c.toNat ∧ c.toNat < 65536 ∧
      String.utf8EncodeChar c = UInt8.ofNat (leadingDigits 2 c.toNat + 224) :: laterBytes 2 c.toNat) ∨
    (65536 ≤ c.toNat ∧ c.toNat < 1114112 ∧
      String.utf8EncodeChar c = UInt8.ofNat (leadingDigits 3 c.toNat + 240) :: laterBytes 3 c.toNat) := by
  have valid : c.toNat < 1114112 := by
    rcases c.valid with low | high
    · exact Nat.lt_trans low (by decide)
    · exact high.2
  have encoded : String.utf8EncodeChar c = if c.val.toNat ≤ 127 then _ else
      if c.val.toNat ≤ 2047 then _ else if c.val.toNat ≤ 65535 then _ else _ := rfl
  rw [encoded]
  simp only [Char.toNat] at valid ⊢
  generalize c.val.toNat = n at valid ⊢
  simp only [leadingDigits, laterBytes, List.nil_append, List.cons_append, Nat.add_zero]
  rcases Nat.lt_or_ge n 128 with one | several
  · exact .inl ⟨one, if_pos (by omega)⟩
  rcases Nat.lt_or_ge n 2048 with two | several
  · refine .inr (.inl ⟨by omega, two, ?_⟩)
    have digit : n / 64 % 32 = n / 64 := by omega
    rw [if_neg (by omega), if_pos (by omega), digit]
  rcases Nat.lt_or_ge n 65536 with three | several
  · refine .inr (.inr (.inl ⟨several, three, ?_⟩))
    have digit : n / 4096 % 16 = n / 64 / 64 := by omega
    rw [if_neg (by omega), if_neg (by omega), if_pos (by omega), digit]
  · refine .inr (.inr (.inr ⟨several, valid, ?_⟩))
    have digits : n / 262144 % 8 = n / 64 / 64 / 64 ∧ n / 4096 % 64 = n / 64 / 64 % 64 := by omega
    rw [if_neg (by omega), if_neg (by omega), if_neg (by omega), digits.1, digits.2]

/-- The bytes of a lower character come before those of a higher one, whatever follows. -/
theorem lex_utf8EncodeChar {c d : Char} (less : c < d) (r r' : List UInt8) :
    List.Lex (· < ·) (String.utf8EncodeChar c ++ r) (String.utf8EncodeChar d ++ r') := by
  have less : c.toNat < d.toNat := UInt32.lt_iff_toNat_lt.mp (Char.lt_def.mp less)
  -- Either the two have as many bytes, or the lower one has fewer of them and a lower first byte.
  rcases utf8EncodeChar_cases c with ⟨_, bytes⟩ | ⟨_, _, bytes⟩ | ⟨_, _, bytes⟩ | ⟨_, _, bytes⟩ <;>
    rcases utf8EncodeChar_cases d with ⟨_, bytes'⟩ | ⟨_, _, bytes'⟩ | ⟨_, _, bytes'⟩ | ⟨_, _, bytes'⟩ <;>
    rw [bytes, bytes'] <;>
    first
      | omega
      | exact lex_leadingDigits less (by simp only [leadingDigits]; omega) r r'
      | exact lex_ofNat (by simp only [leadingDigits]; omega) (by simp only [leadingDigits]; omega) _ _

theorem utf8EncodeChar_ne_nil (c : Char) : String.utf8EncodeChar c ≠ [] := by
  rcases utf8EncodeChar_cases c with ⟨_, bytes⟩ | ⟨_, _, bytes⟩ | ⟨_, _, bytes⟩ | ⟨_, _, bytes⟩ <;> simp [bytes]

theorem lex_flatMap_utf8EncodeChar {cs ds : List Char} (less : List.Lex (· < ·) cs ds) :
    List.Lex (· < ·) (cs.flatMap String.utf8EncodeChar) (ds.flatMap String.utf8EncodeChar) := by
  induction less with
  | @nil d ds =>
    rw [List.flatMap_nil, List.flatMap_cons]
    cases bytes : String.utf8EncodeChar d with
    | nil => exact absurd bytes (utf8EncodeChar_ne_nil d)
    | cons b rest => exact .nil
  | rel less => exact lex_utf8EncodeChar less _ _
  | cons _ ih => exact List.append_left_lt ih

/-- Texts are in the order of their bytes. -/
theorem bytesBefore_of_lt {x y : String} (less : x < y) : BytesBefore x y := by
  rw [BytesBefore, Linear.toUTF8_toList, Linear.toUTF8_toList]
  exact lex_flatMap_utf8EncodeChar (String.lt_iff.mp less)

/-! ### Lists -/

theorem mem_splice {x : String} {below list : List String} :
    x ∈ splice below list ↔ (x ≠ inheritMark ∧ x ∈ list) ∨ (inheritMark ∈ list ∧ x ∈ below) := by
  rw [splice, List.mem_flatMap]
  constructor
  · rintro ⟨y, member, here⟩
    split at here
    · rename_i mark
      exact .inr ⟨mark ▸ member, here⟩
    · rename_i notMark
      rw [List.mem_singleton.mp here]
      exact .inl ⟨notMark, member⟩
  · rintro (⟨notMark, member⟩ | ⟨mark, member⟩)
    · exact ⟨x, member, by simp [notMark]⟩
    · exact ⟨inheritMark, mark, by simpa using member⟩

/-- The lists that layers define, the uppermost first, and the default below all of them. -/
def definedLists (layers : List SettingsLayer) : List (List String) :=
  layers.filterMap (·.exclude) ++ [Settings.defaults.exclude]

/-- The pattern is no mark, and it is in one of the lists, where all those above take up what is below them. -/
def TakenUp (lists : List (List String)) (x : String) : Prop :=
  x ≠ inheritMark ∧ ∃ near list far, lists = near ++ list :: far ∧ x ∈ list ∧ ∀ l ∈ near, inheritMark ∈ l

theorem takenUp_cons {list : List String} {below : List (List String)} {x : String} :
    TakenUp (list :: below) x ↔ (x ≠ inheritMark ∧ x ∈ list) ∨ (inheritMark ∈ list ∧ TakenUp below x) := by
  constructor
  · rintro ⟨notMark, near, l, far, split, member, marks⟩
    cases near with
    | nil =>
      cases split
      exact .inl ⟨notMark, member⟩
    | cons first near =>
      cases split
      exact .inr ⟨marks _ (by simp), notMark, near, l, far, rfl, member,
        fun l' above => marks l' (List.mem_cons_of_mem _ above)⟩
  · rintro (⟨notMark, member⟩ | ⟨mark, notMark, near, l, far, rfl, member, marks⟩)
    · exact ⟨notMark, [], list, below, rfl, member, by simp⟩
    · exact ⟨notMark, list :: near, l, far, rfl, member, by simpa [mark] using marks⟩

theorem mem_exclude_ofLayers {layers : List SettingsLayer} {x : String} :
    x ∈ (Settings.ofLayers layers).exclude ↔ TakenUp (definedLists layers) x := by
  induction layers with
  | nil =>
    -- Only the default is left, and it has no mark.
    change x ∈ Settings.defaults.exclude ↔ TakenUp [Settings.defaults.exclude] x
    rw [takenUp_cons]
    simp [Settings.defaults]
  | cons l rest ih =>
    have step : Settings.ofLayers (l :: rest) = (Settings.ofLayers rest).override l := rfl
    rw [step]
    cases defined : l.exclude with
    | none =>
      have lists : definedLists (l :: rest) = definedLists rest := by simp [definedLists, defined]
      rw [lists, Settings.override, defined]
      exact ih
    | some list =>
      have lists : definedLists (l :: rest) = list :: definedLists rest := by simp [definedLists, defined]
      rw [lists, Settings.override, defined]
      change x ∈ splice (Settings.ofLayers rest).exclude list ↔ _
      rw [mem_splice, takenUp_cons, ih]

/-- The list has the patterns that count, in the order of their bytes and each once. -/
structure Resolves (layers : List SettingsLayer) (names : List String) : Prop where
  ordered : names.Pairwise BytesBefore
  member : ∀ x, x ∈ names ↔ TakenUp (definedLists layers) x

theorem resolves_final (layers : List SettingsLayer) : Resolves layers (Settings.final layers).exclude := by
  refine ⟨(pairwise_sortedNames _).imp bytesBefore_of_lt, fun x => ?_⟩
  rw [Settings.final, mem_sortedNames, mem_exclude_ofLayers]

/-! ### Files -/

section
variable {files : Settings.Files} {decode : Settings.Decoder}

theorem layerOf_ne_unresolved (decode : Settings.Decoder) (file : SettingsFile) (text : String) :
    Settings.layerOf decode file text ≠ .error .unresolved := by
  rw [Settings.layerOf]
  cases decode text <;> simp

/-- Whatever is wrong with a file, it is not the list in it. -/
theorem layerWithin_ne_unresolved (dir : Directory) : Settings.layerWithin decode files dir ≠ .error .unresolved := by
  rw [Settings.layerWithin]
  cases files (.within dir) with
  | ok text =>
    have layer := layerOf_ne_unresolved decode (.within dir) text
    cases result : Settings.layerOf decode (.within dir) text with
    | ok _ => simp [result, Except.map]
    | error e => simpa [result, Except.map] using layer
  | error cause => cases cause <;> simp

/-- An answer that there is exactly if all is fine, and that never fails for a mark. -/
theorem answered {answer : Except SettingsError Settings} {fine : Prop} {P : Settings → Prop}
    (accepts : fine → ∃ s, answer = .ok s ∧ P s) (refuses : ¬ fine → ∃ e, answer = .error e ∧ e ≠ .unresolved) :
    answer ≠ .error .unresolved ∧ ((∃ s, answer = .ok s) ↔ fine) ∧ ∀ s, answer = .ok s → P s := by
  by_cases holds : fine
  · obtain ⟨s, rfl, resolves⟩ := accepts holds
    refine ⟨by simp, ⟨fun _ => holds, fun _ => ⟨s, rfl⟩⟩, fun s' same => ?_⟩
    cases same
    exact resolves
  · obtain ⟨e, rfl, other⟩ := refuses holds
    refine ⟨by simpa using other, ⟨?_, fun all => absurd all holds⟩, fun s found => by cases found⟩
    rintro ⟨s, found⟩
    cases found

theorem load_of_not_isFine {dir : Directory} (wrong : ¬ ∀ d ∈ dir.ancestors, files.IsFine decode d) :
    ∃ e, Settings.load files dir decode = .error e ∧ e ≠ .unresolved := by
  obtain ⟨near, d, far, path, fine, notFine⟩ := exists_nearest wrong
  obtain ⟨e, refused⟩ := exists_error_of_not_isFine notFine
  refine ⟨e, ?_, ?_⟩
  · rw [Settings.load, path, layersWithin_of_error fine refused]
    rfl
  · rintro rfl
    exact layerWithin_ne_unresolved d refused

theorem loadFile_cases (files : Settings.Files) (decode : Settings.Decoder) (name : String) :
    (∃ text layer, files (.named name) = .ok text ∧ decode text = some layer) ∨
      ∃ e, Settings.loadFile files name decode = .error e ∧ e ≠ .unresolved := by
  rw [Settings.loadFile]
  cases found : files (.named name) with
  | error cause => exact .inr ⟨.unreadable (.named name) cause, rfl, by simp⟩
  | ok text =>
    cases parsed : decode text with
    | some layer => exact .inl ⟨text, layer, rfl, parsed⟩
    | none =>
      refine .inr ⟨.malformed (.named name), ?_, by simp⟩
      dsimp only
      rw [Settings.layerOf, parsed]
      rfl

end

/-- The settings of a directory and those of a named file never fail for a mark that is left in a list. There are
    settings iff the files can be read, and their list has the patterns that count, in the order of their bytes. -/
theorem exclusion_resolved (files : Settings.Files) (decode : Settings.Decoder) :
    (∀ dir : Directory,
      Settings.load files dir decode ≠ .error .unresolved ∧
      ((∃ s, Settings.load files dir decode = .ok s) ↔ ∀ d ∈ dir.ancestors, files.IsFine decode d) ∧
      ∀ s, Settings.load files dir decode = .ok s → Resolves (dir.ancestors.filterMap (files.layerAt decode)) s.exclude) ∧
    ∀ name : String,
      Settings.loadFile files name decode ≠ .error .unresolved ∧
      ((∃ s, Settings.loadFile files name decode = .ok s) ↔
        ∃ text layer, files (.named name) = .ok text ∧ decode text = some layer) ∧
      ∀ s text layer, Settings.loadFile files name decode = .ok s → files (.named name) = .ok text →
        decode text = some layer → Resolves [layer] s.exclude := by
  refine ⟨fun dir => answered (fun fine => ⟨_, load_of_isFine fine, resolves_final _⟩) load_of_not_isFine, fun name => ?_⟩
  obtain ⟨marked, read, _⟩ := answered (P := fun _ => True)
    (fun ⟨text, layer, found, parsed⟩ => ⟨_, loadFile_of_layer found parsed, trivial⟩)
    (loadFile_cases files decode name).resolve_left
  refine ⟨marked, read, fun s text layer loaded found parsed => ?_⟩
  rw [loadFile_of_layer found parsed] at loaded
  cases loaded
  exact resolves_final [layer]

/-- The nearest list takes up the one below it twice; a file without a list is between them, and the list of the
    root is cut off. -/
def cutLists : Settings.Files := fun file =>
  if file = .within [] then .ok "exclude = [\"gone\", \"inherit\"]\n"
  else if file = .within ["a"] then .ok "exclude = [\"kept.*\", \"Ω\"]\n"
  else if file = .within ["b", "a"] then .ok "trace = true\n"
  else if file = .within ["c", "b", "a"] then .ok "exclude = [\"inherit\", \"z\", \"inherit\", \"Ω\"]\n"
  else .error .missing

theorem cutLists_resolved :
    ∃ s, Settings.load cutLists ["c", "b", "a"] = .ok s ∧ s.exclude.Pairwise BytesBefore ∧
      ∀ x, x ∈ s.exclude ↔ x = "z" ∨ x = "Ω" ∨ x = "kept.*" := by
  have fine : ∀ dir ∈ Directory.ancestors ["c", "b", "a"], cutLists.IsFine SettingsLayer.ofText? dir := by
    intro dir member
    simp only [Directory.ancestors, List.mem_cons, List.not_mem_nil, or_false] at member
    rcases member with rfl | rfl | rfl | rfl
    · exact .inr ⟨_, { exclude := some ["inherit", "z", "inherit", "Ω"] }, rfl, by decide +kernel⟩
    · exact .inr ⟨_, { trace := some true }, rfl, by decide +kernel⟩
    · exact .inr ⟨_, { exclude := some ["kept.*", "Ω"] }, rfl, by decide +kernel⟩
    · exact .inr ⟨_, { exclude := some ["gone", "inherit"] }, rfl, by decide +kernel⟩
  have lists : definedLists ((Directory.ancestors ["c", "b", "a"]).filterMap (cutLists.layerAt SettingsLayer.ofText?)) =
      [["inherit", "z", "inherit", "Ω"], ["kept.*", "Ω"], ["gone", "inherit"], []] := by
    decide +kernel
  obtain ⟨_, loads, resolves⟩ := (exclusion_resolved cutLists SettingsLayer.ofText?).1 ["c", "b", "a"]
  obtain ⟨s, loaded⟩ := loads.mpr fine
  have resolved := resolves s loaded
  refine ⟨s, loaded, resolved.ordered, fun x => ?_⟩
  rw [resolved.member, lists, takenUp_cons, takenUp_cons]
  constructor
  · rintro (⟨notMark, member⟩ | ⟨_, ⟨_, member⟩ | ⟨mark, _⟩⟩)
    · simp only [List.mem_cons, List.not_mem_nil, or_false] at member
      rcases member with rfl | rfl | rfl | rfl
      · exact absurd rfl notMark
      · exact .inl rfl
      · exact absurd rfl notMark
      · exact .inr (.inl rfl)
    · simp only [List.mem_cons, List.not_mem_nil, or_false] at member
      rcases member with rfl | rfl
      · exact .inr (.inr rfl)
      · exact .inr (.inl rfl)
    · exact absurd mark (by decide)
  · rintro (rfl | rfl | rfl)
    · exact .inl ⟨by decide, by simp⟩
    · exact .inl ⟨by decide, by simp⟩
    · exact .inr ⟨by decide, .inl ⟨by decide, by simp⟩⟩

end LoopConflict
