import LoopConflict.Command.Run
import LoopConflict.Proofs.Settings.Merging

/-!
Which settings are in effect. A flag that is given counts, also if it only repeats the default; otherwise the
nearest file that sets the key does, also if it sets it to nothing or to zero; otherwise the default. The
nearest file that cannot be read as settings ends the look-up, and then there are no settings at all
(`settings_precedence`). A named file stands for all others.
-/
namespace LoopConflict

open Command (Flags settings)

/-- The settings that files and flags have in common. -/
inductive Setting where
  | output
  | objective
  | trace
  | wide
  | budget
deriving DecidableEq, Repr

namespace Setting

/-- What the setting can be set to. -/
def Value : Setting → Type
  | .output => String
  | .objective => String
  | .trace => Bool
  | .wide => Bool
  | .budget => Int64

def ofSettings : (k : Setting) → Settings → k.Value
  | .output, s => s.output
  | .objective, s => s.objective
  | .trace, s => s.trace
  | .wide, s => s.wide
  | .budget, s => s.budget

/-- What a file sets it to. -/
def ofLayer : (k : Setting) → SettingsLayer → Option k.Value
  | .output, l => l.output
  | .objective, l => l.objective
  | .trace, l => l.trace
  | .wide, l => l.wide
  | .budget, l => l.budget

/-- The value of its flag, if that was given. -/
def ofFlags : (k : Setting) → Flags → Option k.Value
  | .output, f => f.output
  | .objective, f => f.objective
  | .trace, f => f.trace
  | .wide, f => f.wide
  | .budget, f => f.budget

theorem ofSettings_override (k : Setting) (s : Settings) (l : SettingsLayer) :
    k.ofSettings (s.override l) = (k.ofLayer l).getD (k.ofSettings s) := by
  cases k <;> rfl

theorem ofLayer_layer (k : Setting) (flags : Flags) : k.ofLayer flags.layer = k.ofFlags flags := by
  cases k <;> rfl

theorem ofSettings_exclude (k : Setting) (s : Settings) (names : List String) :
    k.ofSettings { s with exclude := names } = k.ofSettings s := by
  cases k <;> rfl

/-- The uppermost layer that sets something counts. -/
theorem ofSettings_ofLayers (k : Setting) (layers : List SettingsLayer) :
    k.ofSettings (Settings.ofLayers layers) = (layers.findSome? k.ofLayer).getD (k.ofSettings .defaults) := by
  induction layers with
  | nil => rfl
  | cons l rest ih =>
    have step : Settings.ofLayers (l :: rest) = (Settings.ofLayers rest).override l := rfl
    rw [step, ofSettings_override, ih, List.findSome?_cons]
    cases k.ofLayer l <;> rfl

end Setting

/-- Every setting has the value of its flag, or of the first layer that sets it, or its default. -/
def InEffect (flags : Flags) (layers : List SettingsLayer) (s : Settings) : Prop :=
  ∀ k : Setting, k.ofSettings s = (k.ofFlags flags).getD ((layers.findSome? k.ofLayer).getD (k.ofSettings .defaults))

/-! ### Lists are always resolved -/

/-- A mark is replaced by the list below, which has none. -/
theorem mark_not_mem_ofLayers (layers : List SettingsLayer) : inheritMark ∉ (Settings.ofLayers layers).exclude := by
  induction layers with
  | nil => simp [Settings.ofLayers, Settings.defaults]
  | cons l rest ih =>
    have step : Settings.ofLayers (l :: rest) = (Settings.ofLayers rest).override l := rfl
    rw [step, Settings.override]
    cases l.exclude with
    | none => exact ih
    | some list =>
      intro member
      obtain ⟨x, _, here⟩ := List.mem_flatMap.mp member
      split at here
      · exact ih here
      · rename_i other
        exact other (List.mem_singleton.mp here).symm

namespace Settings

/-- The settings of layers, the uppermost first, with the patterns in order. -/
def final (layers : List SettingsLayer) : Settings :=
  { ofLayers layers with exclude := sortedNames (ofLayers layers).exclude }

theorem finish_of_merged {sources : List SettingsSource} {nonempty : sources ≠ []} {layers : List SettingsLayer}
    (merges : SettingsSource.merged sources nonempty = ofLayers layers) : finish sources nonempty = .ok (final layers) := by
  have absent : inheritMark ∉ sortedNames (ofLayers layers).exclude := by
    rw [mem_sortedNames]
    exact mark_not_mem_ofLayers layers
  simp [finish, final, resolved?, merges, normalized_eq_sortedNames, absent]

theorem finish_ofLayers (layers : List SettingsLayer) :
    finish (SettingsSource.ofLayers layers) (SettingsSource.ofLayers_ne_nil layers) = .ok (final layers) :=
  finish_of_merged (SettingsSource.merged_ofLayers layers)

/-- A single layer over the defaults. -/
theorem finish_named (layer : SettingsLayer) (nonempty : [SettingsSource.defaults, .ofLayer layer] ≠ []) :
    finish [.defaults, .ofLayer layer] nonempty = .ok (final [layer]) :=
  finish_of_merged rfl

/-- Layers under the flags give settings that are in effect. -/
theorem inEffect_final (flags : Flags) (layers : List SettingsLayer) :
    InEffect flags layers ((final layers).override flags.layer) := by
  intro k
  rw [k.ofSettings_override, k.ofLayer_layer, final, k.ofSettings_exclude, k.ofSettings_ofLayers]

end Settings

/-! ### Files -/

/-- The file that an error about reading or parsing names. -/
def SettingsError.parsed? : SettingsError → Option SettingsFile
  | .unreadable file _ => some file
  | .malformed file => some file
  | .unopened _ _ => none
  | .unresolved => none

namespace Settings.Files

variable (files : Settings.Files) (decode : Settings.Decoder)

/-- The file is there, and its text cannot be had or is not one of settings. -/
def FailsToParse (file : SettingsFile) : Prop :=
  files file = .error .isDirectory ∨ ∃ text, files file = .ok text ∧ decode text = none

/-- The directory has no file of its own, or one with settings. -/
def IsFine (dir : Directory) : Prop :=
  files (.within dir) = .error .missing ∨ ∃ text layer, files (.within dir) = .ok text ∧ decode text = some layer

/-- What the directory's own file sets, if there is one. -/
def layerAt (dir : Directory) : Option SettingsLayer :=
  match files (.within dir) with
  | .ok text => decode text
  | .error _ => none

end Settings.Files

section
variable {files : Settings.Files} {decode : Settings.Decoder}

theorem layerWithin_of_isFine {dir : Directory} (fine : files.IsFine decode dir) :
    Settings.layerWithin decode files dir = .ok (files.layerAt decode dir) := by
  rcases fine with missing | ⟨text, layer, found, parsed⟩
  · simp [Settings.layerWithin, Settings.Files.layerAt, missing]
  · simp [Settings.layerWithin, Settings.Files.layerAt, found, Settings.layerOf, parsed, Except.map]

theorem layerWithin_of_failsToParse {dir : Directory} (fails : files.FailsToParse decode (.within dir)) :
    ∃ e, Settings.layerWithin decode files dir = .error e ∧ e.parsed? = some (.within dir) := by
  rcases fails with directory | ⟨text, found, malformed⟩
  · exact ⟨.unreadable (.within dir) .isDirectory, by simp [Settings.layerWithin, directory], rfl⟩
  · exact ⟨.malformed (.within dir),
      by simp [Settings.layerWithin, found, Settings.layerOf, malformed, Except.map], rfl⟩

/-- A file that is not fine is refused, whatever is the matter with it. -/
theorem exists_error_of_not_isFine {dir : Directory} (wrong : ¬ files.IsFine decode dir) :
    ∃ e, Settings.layerWithin decode files dir = .error e := by
  cases found : files (.within dir) with
  | ok text =>
    cases parsed : decode text with
    | none =>
      obtain ⟨e, refused, _⟩ := layerWithin_of_failsToParse (.inr ⟨text, found, parsed⟩)
      exact ⟨e, refused⟩
    | some layer => exact absurd (.inr ⟨text, layer, found, parsed⟩) wrong
  | error cause =>
    cases cause with
    | missing => exact absurd (.inl found) wrong
    | notDirectory => exact ⟨.unopened (.within dir) .notDirectory, by simp [Settings.layerWithin, found]⟩
    | nameTooLong => exact ⟨.unopened (.within dir) .nameTooLong, by simp [Settings.layerWithin, found]⟩
    | isDirectory => exact ⟨.unreadable (.within dir) .isDirectory, by simp [Settings.layerWithin, found]⟩

theorem layersWithin_of_isFine {dirs : List Directory} (fine : ∀ dir ∈ dirs, files.IsFine decode dir) :
    Settings.layersWithin decode files dirs = .ok (dirs.filterMap (files.layerAt decode)) := by
  induction dirs with
  | nil => rfl
  | cons dir rest ih =>
    have here := layerWithin_of_isFine (fine dir (by simp))
    have above := ih fun d member => fine d (List.mem_cons_of_mem _ member)
    rw [Settings.layersWithin, here, above, List.filterMap_cons]
    cases files.layerAt decode dir <;> rfl

/-- The nearest file that is refused ends the look-up. -/
theorem layersWithin_of_error {near far : List Directory} {dir : Directory} {e : SettingsError}
    (fine : ∀ d ∈ near, files.IsFine decode d) (refused : Settings.layerWithin decode files dir = .error e) :
    Settings.layersWithin decode files (near ++ dir :: far) = .error e := by
  induction near with
  | nil =>
    rw [List.nil_append, Settings.layersWithin, refused]
    rfl
  | cons d rest ih =>
    have here := layerWithin_of_isFine (fine d (by simp))
    have above := ih fun d' member => fine d' (List.mem_cons_of_mem _ member)
    rw [List.cons_append, Settings.layersWithin, here, above]
    rfl

/-- If not all directories are fine, then there is a nearest one that is not. -/
theorem exists_nearest {dirs : List Directory} (wrong : ¬ ∀ dir ∈ dirs, files.IsFine decode dir) :
    ∃ near dir far, dirs = near ++ dir :: far ∧ (∀ d ∈ near, files.IsFine decode d) ∧ ¬ files.IsFine decode dir := by
  induction dirs with
  | nil => exact absurd (by simp) wrong
  | cons d rest ih =>
    by_cases here : files.IsFine decode d
    · have later : ¬ ∀ dir ∈ rest, files.IsFine decode dir := by
        intro all
        exact wrong (by simpa [here] using all)
      obtain ⟨near, dir, far, rfl, fine, refused⟩ := ih later
      exact ⟨d :: near, dir, far, rfl, by simpa [here] using fine, refused⟩
    · exact ⟨[], d, rest, rfl, by simp, here⟩

variable {flags : Flags} {cwd : Directory}

theorem settings_of_path (unnamed : flags.settingsFile? = none) :
    settings flags files cwd decode = (Settings.load files cwd decode).map (·.override flags.layer) := by
  rw [settings, unnamed]
  dsimp only
  cases Settings.load files cwd decode <;> rfl

theorem settings_of_named {name : String} (named : flags.settingsFile? = some name) :
    settings flags files cwd decode = (Settings.loadFile files name decode).map (·.override flags.layer) := by
  rw [settings, named]
  dsimp only
  cases Settings.loadFile files name decode <;> rfl

theorem load_of_isFine (fine : ∀ dir ∈ cwd.ancestors, files.IsFine decode dir) :
    Settings.load files cwd decode = .ok (.final (cwd.ancestors.filterMap (files.layerAt decode))) := by
  rw [Settings.load, layersWithin_of_isFine fine]
  exact Settings.finish_ofLayers _

theorem loadFile_of_layer {name text : String} {layer : SettingsLayer} (found : files (.named name) = .ok text)
    (parsed : decode text = some layer) : Settings.loadFile files name decode = .ok (.final [layer]) := by
  rw [Settings.loadFile, found]
  dsimp only
  rw [Settings.layerOf, parsed]
  exact Settings.finish_named layer _

theorem settings_of_isFine (unnamed : flags.settingsFile? = none) (fine : ∀ dir ∈ cwd.ancestors, files.IsFine decode dir) :
    ∃ s, settings flags files cwd decode = .ok s ∧ InEffect flags (cwd.ancestors.filterMap (files.layerAt decode)) s := by
  refine ⟨_, ?_, Settings.inEffect_final flags _⟩
  rw [settings_of_path unnamed, load_of_isFine fine]
  rfl

theorem settings_of_error (unnamed : flags.settingsFile? = none) {near far : List Directory} {dir : Directory}
    {e : SettingsError} (path : cwd.ancestors = near ++ dir :: far) (fine : ∀ d ∈ near, files.IsFine decode d)
    (refused : Settings.layerWithin decode files dir = .error e) : settings flags files cwd decode = .error e := by
  rw [settings_of_path unnamed, Settings.load, path, layersWithin_of_error fine refused]
  rfl

theorem isFine_of_settings (unnamed : flags.settingsFile? = none) {s : Settings}
    (answer : settings flags files cwd decode = .ok s) : ∀ dir ∈ cwd.ancestors, files.IsFine decode dir := by
  refine Classical.byContradiction fun wrong => ?_
  obtain ⟨near, dir, far, path, fine, notFine⟩ := exists_nearest wrong
  obtain ⟨e, refused⟩ := exists_error_of_not_isFine notFine
  simp [settings_of_error unnamed path fine refused] at answer

end

/-- The settings in effect. With a named file only that file is looked at, and what it does not set is left to
    the flags and the defaults; if it cannot be read or parsed, the error names it. Without one there are
    settings iff each directory from the working directory up to the root has no file of its own or one that can
    be parsed, and then a setting has the value of its flag, or of the nearest file that sets it, or its default.
    If the nearest file that is in the way fails to parse, the error names it. -/
theorem settings_precedence (flags : Flags) (files : Settings.Files) (cwd : Directory) (decode : Settings.Decoder) :
    (∀ name, flags.settingsFile? = some name →
      (∀ others dir, others (.named name) = files (.named name) →
        settings flags others dir decode = settings flags files cwd decode) ∧
      (∀ text layer, files (.named name) = .ok text → decode text = some layer →
        ∃ s, settings flags files cwd decode = .ok s ∧ InEffect flags [layer] s) ∧
      (((∃ cause, files (.named name) = .error cause) ∨ files.FailsToParse decode (.named name)) →
        ∃ e, settings flags files cwd decode = .error e ∧ e.parsed? = some (.named name))) ∧
    (flags.settingsFile? = none →
      ((∃ s, settings flags files cwd decode = .ok s) ↔ ∀ dir ∈ cwd.ancestors, files.IsFine decode dir) ∧
      (∀ s, settings flags files cwd decode = .ok s → InEffect flags (cwd.ancestors.filterMap (files.layerAt decode)) s) ∧
      ∀ near dir far, cwd.ancestors = near ++ dir :: far → (∀ d ∈ near, files.IsFine decode d) →
        files.FailsToParse decode (.within dir) →
        ∃ e, settings flags files cwd decode = .error e ∧ e.parsed? = some (.within dir)) := by
  constructor
  · intro name named
    refine ⟨fun others dir same => ?_, fun text layer found parsed => ?_, fun failed => ?_⟩
    · rw [settings_of_named named, settings_of_named named, Settings.loadFile, Settings.loadFile, same]
    · refine ⟨_, ?_, Settings.inEffect_final flags [layer]⟩
      rw [settings_of_named named, loadFile_of_layer found parsed]
      rfl
    · rw [settings_of_named named, Settings.loadFile]
      rcases failed with ⟨cause, unread⟩ | unread | ⟨text, found, malformed⟩
      · exact ⟨.unreadable (.named name) cause, by simp [unread, Except.map], rfl⟩
      · exact ⟨.unreadable (.named name) .isDirectory, by simp [unread, Except.map], rfl⟩
      · exact ⟨.malformed (.named name),
          by simp [found, Settings.layerOf, malformed, bind, Except.bind, Except.map], rfl⟩
  · intro unnamed
    refine ⟨⟨fun ⟨s, answer⟩ => isFine_of_settings unnamed answer, fun fine => ?_⟩, fun s answer => ?_,
      fun near dir far path fine fails => ?_⟩
    · obtain ⟨s, answer, _⟩ := settings_of_isFine unnamed fine
      exact ⟨s, answer⟩
    · obtain ⟨s', answer', inEffect⟩ := settings_of_isFine unnamed (isFine_of_settings unnamed answer)
      rw [answer'] at answer
      cases answer
      exact inEffect
    · obtain ⟨e, refused, names⟩ := layerWithin_of_failsToParse fails
      exact ⟨e, settings_of_error unnamed path fine refused, names⟩

/-- Files in the root, in a directory below it and in one two levels further down; the nearest one sets a
    budget of zero. -/
def threeLayers : Settings.Files := fun file =>
  if file = .within [] then .ok "output = \"all.mod\"\nsolve_budget = 10\ntrace = true\n"
  else if file = .within ["a"] then .ok "objective = \"conflict\"\nsolve_budget = 20\n"
  else if file = .within ["c", "b", "a"] then .ok "solve_budget = 0\ntrace = true\n"
  else .error .missing

/-- The flags give the trace its default. -/
def untraced : Flags where
  trace := some false

theorem threeLayers_precedence :
    ∃ s, settings untraced threeLayers ["c", "b", "a"] = .ok s ∧ s.output = "all.mod" ∧ s.objective = "conflict" ∧
      s.trace = false ∧ s.wide = false ∧ s.budget = 0 := by
  have path := (settings_precedence untraced threeLayers ["c", "b", "a"] SettingsLayer.ofText?).2 rfl
  have fine : ∀ dir ∈ Directory.ancestors ["c", "b", "a"], threeLayers.IsFine SettingsLayer.ofText? dir := by
    intro dir member
    simp only [Directory.ancestors, List.mem_cons, List.not_mem_nil, or_false] at member
    rcases member with rfl | rfl | rfl | rfl
    · exact .inr ⟨_, { budget := some 0, trace := some true }, rfl, by decide +kernel⟩
    · exact .inl rfl
    · exact .inr ⟨_, { objective := some "conflict", budget := some 20 }, rfl, by decide +kernel⟩
    · exact .inr ⟨_, { output := some "all.mod", budget := some 10, trace := some true }, rfl, by decide +kernel⟩
  have layers : (Directory.ancestors ["c", "b", "a"]).filterMap (threeLayers.layerAt SettingsLayer.ofText?) =
      [{ budget := some 0, trace := some true }, { objective := some "conflict", budget := some 20 },
        { output := some "all.mod", budget := some 10, trace := some true }] := by
    decide +kernel
  obtain ⟨s, answer⟩ := path.1.mpr fine
  have inEffect := path.2.1 s answer
  rw [layers] at inEffect
  exact ⟨s, answer, inEffect .output, inEffect .objective, inEffect .trace, inEffect .wide, inEffect .budget⟩

end LoopConflict
