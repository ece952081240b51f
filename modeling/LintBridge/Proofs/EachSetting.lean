import LintBridge.Proofs.Meaning
import LintBridge.Settings.Layers
import Mathlib.Data.List.Nodup

/-!
# LintBridge.Proofs.EachSetting

The settings one by one. A setting has a name, a default and a check of its own (`Setting`), and a
table of fields gives settings just if every field is a setting and each setting follows from its
field (`Setting.Follows`), whatever the other fields are.

Main result: `Settings.run_check_eq_ok`.
-/

namespace LintBridge.Data.Fields

variable {fields : Fields} {key : Str}

theorem isSome_get?_iff : (fields.get? key).isSome ↔ ∃ field ∈ fields, field.1 = key := by
  simp [get?, List.find?_isSome]

end LintBridge.Data.Fields

namespace LintBridge

open LintBridge.Data LintBridge.Number

/-! ### The settings one by one -/

/-- One of the settings. -/
inductive Setting where
  | enable
  | executablePath
  | configPath
  | lintOnSave
  | lintOnOpen
  | lintOnType
  | fixOnSave
  | debounceSeconds
  | timeoutSeconds
  | excludeDirs
  deriving DecidableEq

namespace Setting

/-- The name of a setting. -/
def name : Setting → String
  | enable => "enable"
  | executablePath => "executable_path"
  | configPath => "config_path"
  | lintOnSave => "lint_on_save"
  | lintOnOpen => "lint_on_open"
  | lintOnType => "lint_on_type"
  | fixOnSave => "fix_on_save"
  | debounceSeconds => "debounce_seconds"
  | timeoutSeconds => "timeout_seconds"
  | excludeDirs => "exclude_dirs"

/-- What a setting is set to. -/
def Kind : Setting → Type
  | enable | lintOnSave | lintOnOpen | lintOnType | fixOnSave => Bool
  | executablePath | configPath => String
  | debounceSeconds => Binary64
  | timeoutSeconds => Option Binary64
  | excludeDirs => List String

/-- The check of a setting's value. -/
def check : (k : Setting) → Check k.Kind
  | enable | lintOnSave | lintOnOpen | lintOnType | fixOnSave => Check.bool
  | executablePath | configPath => Check.proper
  | debounceSeconds => Settings.delay
  | timeoutSeconds => Check.nullable Settings.patience
  | excludeDirs => Check.list Check.proper

/-- What a setting is set to among all settings. -/
def get (s : Settings) : (k : Setting) → k.Kind
  | enable => s.enable
  | executablePath => s.executablePath
  | configPath => s.configPath
  | lintOnSave => s.lintOnSave
  | lintOnOpen => s.lintOnOpen
  | lintOnType => s.lintOnType
  | fixOnSave => s.fixOnSave
  | debounceSeconds => s.debounceSeconds
  | timeoutSeconds => s.timeoutSeconds
  | excludeDirs => s.excludeDirs

/-- The settings that are set to the given values. -/
def assemble (values : (k : Setting) → k.Kind) : Settings where
  enable := values enable
  executablePath := values executablePath
  configPath := values configPath
  lintOnSave := values lintOnSave
  lintOnOpen := values lintOnOpen
  lintOnType := values lintOnType
  fixOnSave := values fixOnSave
  debounceSeconds := values debounceSeconds
  timeoutSeconds := values timeoutSeconds
  excludeDirs := values excludeDirs

@[simp] theorem get_assemble (values : (k : Setting) → k.Kind) (k : Setting) :
    k.get (assemble values) = values k := by
  cases k <;> rfl

theorem ext {s s' : Settings} (h : ∀ k : Setting, k.get s = k.get s') : s = s' := by
  have heta (s : Settings) : assemble (get s) = s := rfl
  rw [← heta s, ← heta s']
  exact congrArg assemble (funext h)

/-- All settings. -/
def all : List Setting :=
  [enable, executablePath, configPath, lintOnSave, lintOnOpen, lintOnType, fixOnSave,
    debounceSeconds, timeoutSeconds, excludeDirs]

theorem mem_all (k : Setting) : k ∈ all := by
  cases k <;> decide

theorem fieldNames_eq : Settings.fieldNames = all.map name :=
  rfl

theorem name_injective {j k : Setting} (h : j.name = k.name) : j = k := by
  have hnodup : (all.map name).Nodup := by decide
  exact List.inj_on_of_nodup_map hnodup (mem_all j) (mem_all k) h

/-- No two settings share an environment variable. -/
theorem variableName_injective {j k : Setting}
    (h : Settings.variableName j.name = Settings.variableName k.name) : j = k := by
  have hnodup : (all.map fun k => Settings.variableName k.name).Nodup := by decide +kernel
  exact List.inj_on_of_nodup_map hnodup (mem_all j) (mem_all k) h

theorem isKnown_iff {field : Str × Value} :
    Settings.isKnown field = true ↔ ∃ k : Setting, field.1 = k.name := by
  simp only [Settings.isKnown, fieldNames_eq, List.any_eq_true, List.mem_map, decide_eq_true_eq]
  constructor
  · intro h
    obtain ⟨_, ⟨k, -, rfl⟩, hk⟩ := h
    exact ⟨k, hk.symm⟩
  · intro h
    obtain ⟨k, hk⟩ := h
    exact ⟨_, ⟨k, mem_all k, rfl⟩, hk.symm⟩

/-! ### What decides about a setting -/

/-- The setting is what a value says, or its default if there is no value. -/
def Follows (value? : Option Value) (k : Setting) (s : Settings) : Prop :=
  match value? with
  | some v => k.check v = .ok (k.get s)
  | none => k.get s = k.get {}

/-- There is no value, or one that is valid for the setting. -/
def Valid (value? : Option Value) (k : Setting) : Prop :=
  ∀ v, value? = some v → ∃ a, k.check v = .ok a

theorem Follows.unique {value? : Option Value} {k : Setting} {s s' : Settings}
    (h : Follows value? k s) (h' : Follows value? k s') : k.get s = k.get s' := by
  cases value? with
  | none => exact h.trans h'.symm
  | some v => exact Except.ok.inj (h.symm.trans h')

theorem Follows.valid {value? : Option Value} {k : Setting} {s : Settings}
    (h : Follows value? k s) : Valid value? k := by
  intro v hv
  subst hv
  exact ⟨_, h⟩

/-- Valid values make settings. -/
theorem exists_follows {values : Setting → Option Value} (h : ∀ k, Valid (values k) k) :
    ∃ s, ∀ k, Follows (values k) k s := by
  have hvalue : ∀ k : Setting, ∃ a : k.Kind, match values k with
      | some v => k.check v = .ok a
      | none => a = k.get {} := by
    intro k
    cases hk : values k with
    | none => exact ⟨_, rfl⟩
    | some v => exact h k v hk
  choose a ha using hvalue
  refine ⟨assemble a, fun k => ?_⟩
  have hk := ha k
  unfold Follows
  rw [get_assemble]
  exact hk

end Setting

namespace Settings

variable {fields : Fields} {s : Settings}

theorem optional_eq_ok {α : Type} {name : String} {default a : α} {check : Check α} :
    fields.optional name default check = .ok a ↔
      match fields.get? name with
      | some v => check v = .ok a
      | none => a = default := by
  unfold Fields.optional
  cases fields.get? name with
  | some v => exact Checked.inside_eq_ok
  | none => exact ⟨fun h => (Except.ok.inj h).symm, fun h => congrArg _ h.symm⟩

/-- The fields are checked each for itself. -/
theorem ofFields_eq_ok :
    ofFields fields = .ok s ↔ ∀ k : Setting, k.Follows (fields.get? k.name) s := by
  have hoptional (k : Setting) : fields.optional k.name (k.get {}) k.check = .ok (k.get s) ↔
      k.Follows (fields.get? k.name) s := optional_eq_ok
  simp only [← hoptional]
  constructor
  · intro h
    obtain ⟨make₁₀, _, h₁₀, hexcludeDirs, rfl⟩ := Checked.and_eq_ok.1 h
    obtain ⟨make₉, _, h₉, htimeoutSeconds, rfl⟩ := Checked.and_eq_ok.1 h₁₀
    obtain ⟨make₈, _, h₈, hdebounceSeconds, rfl⟩ := Checked.and_eq_ok.1 h₉
    obtain ⟨make₇, _, h₇, hfixOnSave, rfl⟩ := Checked.and_eq_ok.1 h₈
    obtain ⟨make₆, _, h₆, hlintOnType, rfl⟩ := Checked.and_eq_ok.1 h₇
    obtain ⟨make₅, _, h₅, hlintOnOpen, rfl⟩ := Checked.and_eq_ok.1 h₆
    obtain ⟨make₄, _, h₄, hlintOnSave, rfl⟩ := Checked.and_eq_ok.1 h₅
    obtain ⟨make₃, _, h₃, hconfigPath, rfl⟩ := Checked.and_eq_ok.1 h₄
    obtain ⟨make₂, _, h₂, hexecutablePath, rfl⟩ := Checked.and_eq_ok.1 h₃
    obtain ⟨make₁, _, h₁, henable, rfl⟩ := Checked.and_eq_ok.1 h₂
    obtain rfl := Except.ok.inj h₁
    intro k
    cases k with
    | enable => exact henable
    | executablePath => exact hexecutablePath
    | configPath => exact hconfigPath
    | lintOnSave => exact hlintOnSave
    | lintOnOpen => exact hlintOnOpen
    | lintOnType => exact hlintOnType
    | fixOnSave => exact hfixOnSave
    | debounceSeconds => exact hdebounceSeconds
    | timeoutSeconds => exact htimeoutSeconds
    | excludeDirs => exact hexcludeDirs
  · intro h
    have hbuild : Checked.build mk = .ok mk := rfl
    have h₁ := Checked.and_ok hbuild (h .enable)
    have h₂ := Checked.and_ok h₁ (h .executablePath)
    have h₃ := Checked.and_ok h₂ (h .configPath)
    have h₄ := Checked.and_ok h₃ (h .lintOnSave)
    have h₅ := Checked.and_ok h₄ (h .lintOnOpen)
    have h₆ := Checked.and_ok h₅ (h .lintOnType)
    have h₇ := Checked.and_ok h₆ (h .fixOnSave)
    have h₈ := Checked.and_ok h₇ (h .debounceSeconds)
    have h₉ := Checked.and_ok h₈ (h .timeoutSeconds)
    exact Checked.and_ok h₉ (h .excludeDirs)

theorem noneUnknown_eq_ok : noneUnknown fields = .ok () ↔
    ∀ key, (fields.get? key).isSome → ∃ k : Setting, key = k.name := by
  have hnone : noneUnknown fields = .ok () ↔ ∀ field ∈ fields, isKnown field = true := by
    unfold noneUnknown
    split
    next h =>
      refine iff_of_true rfl ?_
      simpa [unknownFields] using h
    next h =>
      refine iff_of_false (by simp) ?_
      simpa [unknownFields] using h
  simp only [hnone, Setting.isKnown_iff, Fields.isSome_get?_iff]
  constructor
  · intro h key hkey
    obtain ⟨field, hfield, rfl⟩ := hkey
    exact h field hfield
  · intro h field hfield
    exact h field.1 ⟨field, hfield, rfl⟩

/-- A table of fields is checked setting by setting, and for fields that are no settings. -/
theorem run_check_eq_ok : check.run schema (.table fields) = .ok s ↔
    (∀ key, (fields.get? key).isSome → ∃ k : Setting, key = k.name) ∧
      ∀ k : Setting, k.Follows (fields.get? k.name) s := by
  rw [Check.run_eq_ok, ← noneUnknown_eq_ok, ← ofFields_eq_ok]
  constructor
  · intro h
    obtain ⟨_, _, hmade, hknown, rfl⟩ := Checked.and_eq_ok.1 h
    obtain ⟨_, _, hbuild, hsettings, rfl⟩ := Checked.and_eq_ok.1 hmade
    obtain rfl := Except.ok.inj hbuild
    exact ⟨hknown, hsettings⟩
  · intro h
    have hbuild : Checked.build (fun (settings : Settings) () => settings) = .ok _ := rfl
    exact Checked.and_ok (Checked.and_ok hbuild h.2) h.1

end Settings

end LintBridge
