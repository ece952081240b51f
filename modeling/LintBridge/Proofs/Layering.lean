import LintBridge.Proofs.EachSetting
import LintBridge.Proofs.Reading
import LintBridge.Proofs.SettingsFiles

/-!
# LintBridge.Proofs.Layering

Which layer each setting comes from. The loader merges the fields of all layers and checks them
together; told setting by setting, the highest layer that sets a setting decides about it, and no
other setting does (`Layers.Determine`). So a value that is overridden may be anything, but a field
that is no setting is refused wherever it stands.

Main result: `Settings.load_layered`.
-/

namespace LintBridge.Data.Fields

variable {fields more : Fields} {key : Str}

/-! ### Merged fields -/

theorem nodup_keys_update (h : (fields.map (·.1)).Nodup) (more : Fields) :
    ((fields.update more).map (·.1)).Nodup := by
  induction more generalizing fields with
  | nil => exact h
  | cons first rest ih => exact ih (nodup_keys_set h first.1 first.2)

theorem get?_eq_none_of_notMem (h : key ∉ fields.map (·.1)) : fields.get? key = none := by
  unfold get?
  rw [Option.map_eq_none_iff, List.find?_eq_none]
  intro field hfield heq
  exact h (of_decide_eq_true heq ▸ List.mem_map_of_mem hfield)

/-- Of the fields that are put into a table, the last one with a key counts. -/
theorem get?_update (fields more : Fields) (key : Str) : (fields.update more).get? key =
    ((more.reverse.find? (·.1 = key)).map (·.2)).or (fields.get? key) := by
  induction more using List.reverseRecOn with
  | nil => rfl
  | append_singleton more last ih =>
    have hlast : fields.update (more ++ [last]) = (fields.update more).set last.1 last.2 := by
      simp [update]
    rw [hlast, get?_set, ih, List.reverse_append, List.reverse_singleton, List.singleton_append,
      List.find?_cons]
    by_cases hkey : last.1 = key <;> simp [hkey]

/-- A table that has no key twice overrides another one key by key. -/
theorem get?_update_of_nodup (fields : Fields) (h : (more.map (·.1)).Nodup) (key : Str) :
    (fields.update more).get? key = (more.get? key).or (fields.get? key) := by
  induction more generalizing fields with
  | nil => rfl
  | cons first rest ih =>
    obtain ⟨k, v⟩ := first
    obtain ⟨hnot, hrest⟩ := List.nodup_cons.1 h
    -- the induction moves the first field over to the table that is overridden
    have hcons : fields.update ((k, v) :: rest) = (fields.set k v).update rest := rfl
    rw [hcons, ih _ hrest, get?_set, get?_cons]
    by_cases hkey : k = key
    · subst hkey
      rw [get?_eq_none_of_notMem hnot]
      simp
    · simp [hkey]

end LintBridge.Data.Fields

namespace LintBridge

open LintBridge.Data LintBridge.Number LintBridge.Text

namespace Settings

variable {fields : Fields} {s : Settings}

/-! ### The layers -/

/-- The last value that the fields of a file give to a key, hyphens counted as underscores. -/
def lastOf? (key : Str) (fields : Fields) : Option Value :=
  (fields.reverse.find? fun field => normalKey field.1 = key).map (·.2)

theorem get?_normalised (fields : Fields) (key : Str) :
    (normalised fields).get? key = lastOf? key fields := by
  unfold normalised lastOf?
  rw [Fields.get?_update, Fields.get?_nil, Option.or_none, ← List.map_reverse, List.find?_map,
    Option.map_map]
  rfl

theorem nodup_keys_normalised (fields : Fields) : ((normalised fields).map (·.1)).Nodup :=
  Fields.nodup_keys_update (by simp) _

theorem isSome_lastOf?_iff {key : Str} :
    (lastOf? key fields).isSome ↔ ∃ field ∈ fields, normalKey field.1 = key := by
  simp [lastOf?, List.find?_isSome]

theorem lastOf?_insert {key : Str} {field : Str × Value} (h : normalKey field.1 ≠ key)
    (before after : Fields) :
    lastOf? key (before ++ field :: after) = lastOf? key (before ++ after) := by
  simp [lastOf?, List.find?_append, h]

/-- The fields of the settings in the document of a project. Only tables lead to them. -/
inductive SectionOf (document : Fields) : Fields → Prop where
  | found {tool inner : Fields} (htool : document.get? "tool" = some (.table tool))
      (hinner : tool.get? "pynulint" = some (.table inner)) : SectionOf document inner
  | absent (h : ∀ tool inner : Fields, document.get? "tool" = some (.table tool) →
      tool.get? "pynulint" ≠ some (.table inner)) : SectionOf document []

theorem subtable_of_table {key : String} {inner : Fields}
    (h : fields.get? key = some (.table inner)) : subtable fields key = inner := by
  simp [subtable, h, Value.fields]

theorem subtable_of_not_table {key : String}
    (h : ∀ inner, fields.get? key ≠ some (.table inner)) : subtable fields key = [] := by
  unfold subtable
  cases hkey : fields.get? key with
  | none => rfl
  | some v =>
    cases v with
    | table inner => exact absurd hkey (h inner)
    | _ => rfl

theorem subtable_eq_iff {document : Fields} :
    subtable (subtable document "tool") "pynulint" = fields ↔ SectionOf document fields := by
  constructor
  · intro h
    subst h
    by_cases htool : ∃ tool, document.get? "tool" = some (.table tool)
    · obtain ⟨tool, htool⟩ := htool
      rw [subtable_of_table htool]
      by_cases hinner : ∃ inner, Fields.get? tool "pynulint" = some (.table inner)
      · obtain ⟨inner, hinner⟩ := hinner
        rw [subtable_of_table hinner]
        exact .found htool hinner
      · rw [subtable_of_not_table (not_exists.1 hinner)]
        refine .absent fun tool' inner htool' => ?_
        obtain rfl := Value.table.inj (Option.some.inj (htool.symm.trans htool'))
        exact not_exists.1 hinner inner
    · have hnone : Fields.get? (subtable document "tool") "pynulint" = none := by
        rw [subtable_of_not_table (not_exists.1 htool)]
        rfl
      rw [subtable_of_not_table (by simp [hnone])]
      exact .absent fun tool _ htool' => absurd htool' (not_exists.1 htool tool)
  · intro h
    cases h with
    | found htool hinner => rw [subtable_of_table htool, subtable_of_table hinner]
    | absent h =>
      refine subtable_of_not_table fun inner hinner => ?_
      by_cases htool : ∃ tool, document.get? "tool" = some (.table tool)
      · obtain ⟨tool, htool⟩ := htool
        rw [subtable_of_table htool] at hinner
        exact h tool inner htool hinner
      · rw [subtable_of_not_table (not_exists.1 htool)] at hinner
        cases hinner

theorem mem_environmentFields {env : Environment} {field : Str × Value} :
    field ∈ environmentFields env ↔ ∃ k : Setting, ∃ text,
      env.lookup (variableName k.name) = some text ∧
        (Letters.ofString k.name, variableValue k.name text) = field := by
  simp only [environmentFields, List.mem_filterMap, Option.map_eq_some_iff, Setting.fieldNames_eq,
    List.mem_map]
  constructor
  · intro h
    obtain ⟨_, ⟨k, -, rfl⟩, htext⟩ := h
    exact ⟨k, htext⟩
  · intro h
    obtain ⟨k, htext⟩ := h
    exact ⟨_, ⟨k, k.mem_all, rfl⟩, htext⟩

theorem nodup_keys_environmentFields (env : Environment) :
    ((environmentFields env).map (·.1)).Nodup := by
  have hsub (names : List String) : ((names.filterMap fun name =>
      (env.lookup (variableName name)).map fun text =>
        ((Letters.ofString name, variableValue name text) : Str × Value)).map (·.1)).Sublist
      (names.map Letters.ofString) := by
    induction names with
    | nil => exact .slnil
    | cons n rest ih =>
      rw [List.filterMap_cons]
      cases env.lookup (variableName n) with
      | none => exact ih.cons _
      | some text => exact ih.cons_cons _
  have hnodup : (fieldNames.map Letters.ofString : List Str).Nodup := by decide
  exact hnodup.sublist (hsub fieldNames)

theorem get?_environmentFields (env : Environment) (k : Setting) :
    (environmentFields env).get? k.name =
      (env.lookup (variableName k.name)).map (variableValue k.name) := by
  refine Option.ext fun v => ?_
  rw [Fields.get?_eq_some_iff (nodup_keys_environmentFields env), mem_environmentFields,
    Option.map_eq_some_iff]
  constructor
  · intro h
    obtain ⟨j, text, htext, heq⟩ := h
    obtain ⟨hname, rfl⟩ := Prod.mk.inj heq
    obtain rfl := Setting.name_injective (Letters.ofString_inj.1 hname)
    exact ⟨text, htext, rfl⟩
  · intro h
    obtain ⟨text, htext, rfl⟩ := h
    exact ⟨k, text, htext, rfl⟩

end Settings

/-- What is set in the layers above the defaults: in the project file, in the own file and in the
environment. -/
structure Layers where
  project : Fields
  own : Fields
  environment : Settings.Environment

namespace Layers

open Settings

/-- The layers that there are for a workspace, and the only one that there is without. -/
inductive In (disk : Disk) (env : Environment) : Option Path → Layers → Prop where
  | nowhere : In disk env none ⟨[], [], env⟩
  | workspace {root : Path} {document project own : Fields}
      (hproject : disk.Gives (root.child projectFile) document)
      (hsection : SectionOf document project) (hown : disk.Gives (root.child ownFile) own) :
      In disk env (some root) ⟨project, own, env⟩

/-- The value that decides about a setting, if it is set in any layer. -/
def value? (l : Layers) (k : Setting) : Option Value :=
  ((l.environment.lookup (variableName k.name)).map (variableValue k.name)).or
    ((lastOf? k.name l.own).or (lastOf? k.name l.project))

/-- No field of a file is anything but a setting. -/
def Known (l : Layers) : Prop :=
  ∀ field ∈ l.project ++ l.own, ∃ k : Setting, normalKey field.1 = Letters.ofString k.name

/-- The settings that come of the layers. -/
structure Determine (l : Layers) (s : Settings) : Prop where
  known : l.Known
  follows : ∀ k, Setting.Follows (l.value? k) k s

/-- The fields of the layers merged into one table. -/
def merged (l : Layers) : Fields :=
  Fields.update (Fields.update (normalised l.project) (normalised l.own))
    (environmentFields l.environment)

variable {disk : Disk} {env : Environment} {root : Option Path} {l l' : Layers} {s s' : Settings}

theorem mergedFields_eq_ok {fields : Fields} :
    mergedFields disk root env = .ok fields ↔ ∃ l, In disk env root l ∧ l.merged = fields := by
  cases root with
  | none =>
    constructor
    · intro h
      exact ⟨_, .nowhere, Except.ok.inj h⟩
    · intro h
      obtain ⟨l, ⟨⟩, rfl⟩ := h
      rfl
  | some r =>
    simp only [mergedFields, bind_eq_ok, Disk.fileFields_eq_ok]
    constructor
    · intro h
      obtain ⟨document, hproject, own, hown, h⟩ := h
      exact ⟨_, .workspace hproject (subtable_eq_iff.1 rfl) hown, Except.ok.inj h⟩
    · intro h
      obtain ⟨l, hin, rfl⟩ := h
      cases hin with
      | workspace hproject hsection hown =>
        refine ⟨_, hproject, _, hown, ?_⟩
        rw [subtable_eq_iff.2 hsection]
        rfl

theorem get?_merged (l : Layers) (key : Str) : l.merged.get? key =
    ((environmentFields l.environment).get? key).or
      ((lastOf? key l.own).or (lastOf? key l.project)) := by
  unfold merged
  rw [Fields.get?_update_of_nodup _ (nodup_keys_environmentFields _),
    Fields.get?_update_of_nodup _ (nodup_keys_normalised _), get?_normalised, get?_normalised]

theorem get?_merged_name (l : Layers) (k : Setting) : l.merged.get? k.name = l.value? k := by
  rw [get?_merged, get?_environmentFields, value?]

/-- The merged fields are settings just if the fields of the files are; all variables are. -/
theorem known_iff : l.Known ↔
    ∀ key, (l.merged.get? key).isSome → ∃ k : Setting, key = Letters.ofString k.name := by
  unfold Known
  constructor
  · intro h key hkey
    rw [get?_merged, Option.isSome_or, Option.isSome_or, Bool.or_eq_true, Bool.or_eq_true,
      Fields.isSome_get?_iff, isSome_lastOf?_iff, isSome_lastOf?_iff] at hkey
    rcases hkey with ⟨field, hfield, rfl⟩ | ⟨field, hfield, rfl⟩ | ⟨field, hfield, rfl⟩
    · obtain ⟨k, text, -, rfl⟩ := mem_environmentFields.1 hfield
      exact ⟨k, rfl⟩
    · exact h field (List.mem_append_right _ hfield)
    · exact h field (List.mem_append_left _ hfield)
  · intro h field hfield
    refine h (normalKey field.1) ?_
    rw [get?_merged, Option.isSome_or, Option.isSome_or, Bool.or_eq_true, Bool.or_eq_true,
      isSome_lastOf?_iff, isSome_lastOf?_iff]
    rcases List.mem_append.1 hfield with hfield | hfield
    · exact .inr (.inr ⟨field, hfield, rfl⟩)
    · exact .inr (.inl ⟨field, hfield, rfl⟩)

theorem determine_iff : l.Determine s ↔ check.run schema (.table l.merged) = .ok s := by
  rw [run_check_eq_ok, ← known_iff]
  simp only [get?_merged_name]
  exact ⟨fun h => ⟨h.known, h.follows⟩, fun h => ⟨h.1, h.2⟩⟩

theorem Determine.unique (h : l.Determine s) (h' : l.Determine s') : s = s' :=
  Setting.ext fun k => (h.follows k).unique (h'.follows k)

theorem exists_determine_iff : (∃ s, l.Determine s) ↔
    l.Known ∧ ∀ k : Setting, Setting.Valid (l.value? k) k := by
  constructor
  · intro h
    obtain ⟨s, hs⟩ := h
    exact ⟨hs.known, fun k => (hs.follows k).valid⟩
  · intro h
    obtain ⟨s, hs⟩ := Setting.exists_follows h.2
    exact ⟨s, h.1, hs⟩

/-- The layers make no settings if a field is no setting or the value of a setting is invalid. -/
theorem refuse_iff : (¬ ∃ s, l.Determine s) ↔
    (∃ field ∈ l.project ++ l.own, ∀ k : Setting, normalKey field.1 ≠ Letters.ofString k.name) ∨
      ∃ k v, l.value? k = some v ∧ ∀ a, Setting.check k v ≠ .ok a := by
  rw [exists_determine_iff, not_and_or]
  unfold Known Setting.Valid
  push Not
  exact Iff.rfl

theorem In.unique (h : In disk env root l) (h' : In disk env root l') : l = l' := by
  cases h with
  | nowhere =>
    cases h' with
    | nowhere => rfl
  | workspace hproject hsection hown =>
    cases h' with
    | workspace hproject' hsection' hown' =>
      have hdocument := (Disk.fileFields_eq_ok.2 hproject).symm.trans
        (Disk.fileFields_eq_ok.2 hproject')
      have hfields := (Disk.fileFields_eq_ok.2 hown).symm.trans (Disk.fileFields_eq_ok.2 hown')
      obtain rfl := Except.ok.inj hdocument
      obtain rfl := Except.ok.inj hfields
      rw [← subtable_eq_iff.2 hsection, ← subtable_eq_iff.2 hsection']

/-- One layer sets the setting once more, and all else is as before. -/
inductive Adds (j : Setting) : Layers → Layers → Prop where
  | project {before after own : Fields} {env : Environment} {key : Str} (v : Value)
      (hkey : normalKey key = Letters.ofString j.name) :
      Adds j ⟨before ++ after, own, env⟩ ⟨before ++ (key, v) :: after, own, env⟩
  | own {project before after : Fields} {env : Environment} {key : Str} (v : Value)
      (hkey : normalKey key = Letters.ofString j.name) :
      Adds j ⟨project, before ++ after, env⟩ ⟨project, before ++ (key, v) :: after, env⟩
  | environment {project own : Fields} {env : Environment} (text : String) :
      Adds j ⟨project, own, env⟩ ⟨project, own, (variableName j.name, text) :: env⟩

/-- A layer that sets one setting leaves the others to the layers that set them before. -/
theorem Adds.value? {j k : Setting} (h : Adds j l l') (hne : k ≠ j) :
    l'.value? k = l.value? k := by
  have hother {key : Str} (hkey : normalKey key = Letters.ofString j.name) :
      normalKey key ≠ Letters.ofString k.name := by
    rw [hkey]
    intro heq
    exact hne (Setting.name_injective (Letters.ofString_inj.1 heq)).symm
  unfold Layers.value?
  cases h with
  | project v hkey => rw [lastOf?_insert (hother hkey)]
  | own v hkey => rw [lastOf?_insert (hother hkey)]
  | environment text =>
    have hvariable : (variableName k.name == variableName j.name) = false :=
      beq_eq_false_iff_ne.2 fun heq => hne (Setting.variableName_injective heq)
    rw [List.lookup_cons, hvariable]

end Layers

/-- The file, if there is one, is a text, none of its integers is too long to be read, and it is not
nested deeper than there is room for. -/
def Disk.Legible (disk : Disk) (file : Path) : Prop :=
  ∀ bytes, disk.Holds file bytes → ∃ text, bytes = Utf8.encode text ∧
    Toml.parse disk.room text ≠ .error .oversized ∧ Toml.parse disk.room text ≠ .error .tooDeep

theorem Disk.Legible.not_garbles {disk : Disk} {file : Path} {fault : Fault}
    (h : disk.Legible file) : ¬ disk.Garbles file fault := by
  intro hgarbles
  cases hgarbles with
  | undecodable hholds hgarbled =>
    obtain ⟨text, htext, -⟩ := h _ hholds
    exact hgarbled text htext
  | oversized hholds hparse =>
    obtain ⟨text, htext, hread, -⟩ := h _ hholds
    obtain rfl := Utf8.encode_injective htext
    exact hread hparse
  | tooDeep hholds hparse =>
    obtain ⟨text, htext, -, hread⟩ := h _ hholds
    obtain rfl := Utf8.encode_injective htext
    exact hread hparse

theorem Disk.Malformed.not_gives {disk : Disk} {file : Path} (h : disk.Malformed file)
    (fields : Fields) : ¬ disk.Gives file fields := by
  intro hgives
  have hok := Disk.fileFields_eq_ok.2 hgives
  rw [Disk.fileFields_eq_lint.2 ⟨h, rfl⟩] at hok
  cases hok

/-- A file is legible if no row of its digits is too long and few brackets are opened. -/
theorem Disk.legible_of_not_hasLongInteger {disk : Disk} {file : Path}
    (h : ∀ bytes, disk.Holds file bytes → ∃ text, bytes = Utf8.encode text ∧
      ¬ Toml.HasLongInteger (Toml.joinBreaks text) ∧
      Toml.callsInTable * Toml.opens (Toml.joinBreaks text) ≤ disk.room) : disk.Legible file := by
  intro bytes hholds
  obtain ⟨text, htext, hshort, hfew⟩ := h bytes hholds
  exact ⟨text, htext, fun hparse => hshort (Toml.hasLongInteger_of_parse hparse),
    fun hparse => (Toml.lt_opens_of_parse hparse).not_ge hfew⟩

namespace Settings

open Layers

variable {disk : Disk} {root : Option Path} {env : Environment} {s : Settings}

theorem load_eq_ok :
    load disk root env = .ok s ↔ ∃ l, In disk env root l ∧ l.Determine s := by
  unfold load
  simp only [bind_eq_ok, mergedFields_eq_ok]
  constructor
  · intro h
    obtain ⟨_, ⟨l, hin, rfl⟩, h⟩ := h
    split at h
    next settings hcheck =>
      obtain rfl := Except.ok.inj h
      exact ⟨l, hin, determine_iff.2 hcheck⟩
    next => cases h
  · intro h
    obtain ⟨l, hin, hdetermine⟩ := h
    refine ⟨_, ⟨l, hin, rfl⟩, ?_⟩
    rw [determine_iff.1 hdetermine]
    rfl

section

variable (hlegible : ∀ r, root = some r →
  disk.Legible (r.child projectFile) ∧ disk.Legible (r.child ownFile))
include hlegible

theorem not_unsettles (fault : Fault) : ¬ Unsettles disk root fault := by
  intro h
  obtain ⟨r, hr, hgarbles | ⟨-, hgarbles⟩⟩ := h
  · exact (hlegible r hr).1.not_garbles hgarbles
  · exact (hlegible r hr).2.not_garbles hgarbles

/-- Nothing but settings and a reason why there are none comes of files that can be read. -/
theorem refused_iff : (∃ flaw, load disk root env = .error (.lint (.badSettings flaw))) ↔
    ¬ ∃ s, load disk root env = .ok s := by
  have hcontained := (@contained_load disk root env).2 (not_unsettles hlegible)
  cases hload : load disk root env with
  | ok s => simp
  | error failure =>
    rw [hload] at hcontained
    obtain ⟨flaw, rfl⟩ := hcontained
    simp

/-- A workspace has layers unless a file is no document. -/
theorem exists_in_iff : (∃ l, In disk env root l) ↔ ¬ ∃ r, root = some r ∧
    (disk.Malformed (r.child projectFile) ∨ disk.Malformed (r.child ownFile)) := by
  constructor
  · intro h hmalformed
    obtain ⟨l, hin⟩ := h
    obtain ⟨r, rfl, hmalformed⟩ := hmalformed
    cases hin with
    | workspace hproject hsection hown =>
      rcases hmalformed with hmalformed | hmalformed
      · exact hmalformed.not_gives _ hproject
      · exact hmalformed.not_gives _ hown
  · intro h
    cases hmerged : mergedFields disk root env with
    | ok fields =>
      obtain ⟨l, hin, -⟩ := mergedFields_eq_ok.1 hmerged
      exact ⟨l, hin⟩
    | error failure =>
      cases failure with
      | fault f => exact absurd (mergedFields_eq_fault.1 hmerged) (not_unsettles hlegible f)
      | lint e =>
        obtain ⟨r, file, hr, hfile, hmalformed, -⟩ := mergedFields_eq_lint hmerged
        refine absurd ⟨r, hr, ?_⟩ h
        rcases hfile with rfl | rfl
        · exact .inl hmalformed
        · exact .inr hmalformed

/-- Every setting comes from the highest layer that sets it, and is the default if none does.

* There are settings just if all fields of the files are settings, and then each is what its value
  says.
* There is a reason why there are none just if a file is no document, a field of a file is no
  setting, or the value of some setting is invalid; values that are overridden do not matter.
* Nothing else comes of it.
* When one layer sets one setting once more, all other settings stay as they are. -/
theorem load_layered :
    (∀ s, load disk root env = .ok s ↔ ∃ l, In disk env root l ∧ l.Determine s) ∧
    ((∃ flaw, load disk root env = .error (.lint (.badSettings flaw))) ↔
      (∃ r, root = some r ∧
        (disk.Malformed (r.child projectFile) ∨ disk.Malformed (r.child ownFile))) ∨
      ∃ l, In disk env root l ∧
        ((∃ field ∈ l.project ++ l.own,
            ∀ k : Setting, normalKey field.1 ≠ Letters.ofString k.name) ∨
          ∃ k v, l.value? k = some v ∧ ∀ a, Setting.check k v ≠ .ok a)) ∧
    ((∃ s, load disk root env = .ok s) ∨
      ∃ flaw, load disk root env = .error (.lint (.badSettings flaw))) ∧
    ∀ l l' j, In disk env root l → l.Adds j l' → ∀ disk' root' env', In disk' env' root' l' →
      ∀ s s', load disk root env = .ok s → load disk' root' env' = .ok s' →
        ∀ k ≠ j, Setting.get s' k = Setting.get s k := by
  refine ⟨fun s => load_eq_ok, ?_, ?_, ?_⟩
  · rw [refused_iff hlegible]
    have hmalformed : (∃ l, In disk env root l) ↔ _ := exists_in_iff hlegible
    constructor
    · intro h
      -- without layers a file is to blame, and with layers one of the fields
      by_cases hin : ∃ l, In disk env root l
      · obtain ⟨l, hin⟩ := hin
        refine .inr ⟨l, hin, refuse_iff.1 ?_⟩
        intro hdetermine
        obtain ⟨s, hs⟩ := hdetermine
        exact h ⟨s, load_eq_ok.2 ⟨l, hin, hs⟩⟩
      · exact .inl (not_not.1 fun hnot => hin (hmalformed.2 hnot))
    · intro h hload
      obtain ⟨s, hs⟩ := hload
      obtain ⟨l, hin, hdetermine⟩ := load_eq_ok.1 hs
      rcases h with h | ⟨l', hin', hrefuse⟩
      · exact hmalformed.1 ⟨l, hin⟩ h
      · obtain rfl := hin.unique hin'
        exact refuse_iff.2 hrefuse ⟨s, hdetermine⟩
  · rw [refused_iff hlegible]
    exact em _
  · intro l l' j hin hadds disk' root' env' hin' s s' hload hload' k hne
    obtain ⟨_, hin₀, hdetermine⟩ := load_eq_ok.1 hload
    obtain ⟨_, hin₁, hdetermine'⟩ := load_eq_ok.1 hload'
    obtain rfl := hin.unique hin₀
    obtain rfl := hin'.unique hin₁
    have hfollows := hdetermine'.follows k
    rw [hadds.value? hne] at hfollows
    exact hfollows.unique (hdetermine.follows k)

end

end Settings

namespace Sample

open Settings

/-- A project's settings. One of them is out of bounds. -/
def projectText : String :=
  "[tool.pynulint]\nlint-on-save = false\ndebounce_seconds = -1\nfix_on_save = true\n"

/-- Settings that override some of the project's, one of them given twice, in two spellings. -/
def ownText : String :=
  "debounce-seconds = 2\nfix-on-save = true\nfix_on_save = \"no\"\nlint_on_open = [ ]\n"

/-- A disk with both files in the root directory. -/
def layered : Disk where
  tree := .directory [(projectFile, .file (Utf8.encode projectText.toList) false),
    (ownFile, .file (Utf8.encode ownText.toList) false)]
  current := []
  homes := []

/-- Two variables, one of which overrides a value that is no truth value. -/
def someVariables : Environment :=
  [("PYNULINT_TIMEOUT_SECONDS", " None "), ("PYNULINT_LINT_ON_OPEN", "off")]

/-- What comes of them. -/
def chosen : Settings where
  lintOnSave := false
  lintOnOpen := false
  debounceSeconds := .ofInt 2
  timeoutSeconds := none

/-- The layers that the files and the variables make. -/
def layers : Layers where
  project := [("lint-on-save", .bool false), ("debounce_seconds", .int (-1)),
    ("fix_on_save", .bool true)]
  own := [("debounce-seconds", .int 2), ("fix-on-save", .bool true), ("fix_on_save", .string "no"),
    ("lint_on_open", .array [])]
  environment := someVariables

theorem parse_project : Toml.parse 900 projectText.toList =
    .ok [("tool", .table [("pynulint", .table layers.project)])] := by
  cbv

theorem parse_own : Toml.parse 900 ownText.toList = .ok layers.own := by
  cbv

theorem holds_project :
    layered.Holds (Path.root.child projectFile) (Utf8.encode projectText.toList) :=
  ⟨by cbv, by cbv⟩

theorem holds_own : layered.Holds (Path.root.child ownFile) (Utf8.encode ownText.toList) :=
  ⟨by cbv, by cbv⟩

theorem lookup_someVariables (k : Setting) : someVariables.lookup (variableName k.name) =
    match k with
    | .lintOnOpen => some "off"
    | .timeoutSeconds => some " None "
    | _ => none := by
  cases k <;> decide +kernel

theorem lastOf?_own (k : Setting) : lastOf? k.name layers.own =
    match k with
    | .lintOnOpen => some (.array [])
    | .fixOnSave => some (.string "no")
    | .debounceSeconds => some (.int 2)
    | _ => none := by
  cases k <;> cbv

theorem lastOf?_project (k : Setting) : lastOf? k.name layers.project =
    match k with
    | .lintOnSave => some (.bool false)
    | .fixOnSave => some (.bool true)
    | .debounceSeconds => some (.int (-1))
    | _ => none := by
  cases k <;> cbv

theorem variableValue_none : variableValue (Setting.name .timeoutSeconds) " None " = .null := by
  show variableValue "timeout_seconds" " None " = .null
  cbv

theorem follows_chosen (k : Setting) : Setting.Follows (layers.value? k) k chosen := by
  have henvironment : layers.environment = someVariables := rfl
  unfold Layers.value?
  rw [henvironment, lookup_someVariables, lastOf?_own, lastOf?_project]
  cases k with
  | timeoutSeconds =>
    show Setting.Follows (some (variableValue (Setting.name .timeoutSeconds) " None ")) _ chosen
    rw [variableValue_none]
    exact rfl
  | _ => exact rfl

theorem known_layers : layers.Known := by
  have hnames : ∀ field ∈ layers.project ++ layers.own,
      ∃ k ∈ Setting.all, normalKey field.1 = Letters.ofString k.name := by
    decide +kernel
  intro field hfield
  obtain ⟨k, -, hk⟩ := hnames field hfield
  exact ⟨k, hk⟩

theorem legible_of_short {disk : Disk} {file : Path} {text : List Char}
    (hholds : disk.Holds file (Utf8.encode text))
    (hshort : (Toml.joinBreaks text).length ≤ Toml.maxIntDigits)
    (hfew : Toml.callsInTable * Toml.opens (Toml.joinBreaks text) ≤ disk.room) :
    disk.Legible file := by
  refine Disk.legible_of_not_hasLongInteger fun bytes hbytes => ?_
  exact ⟨text, hbytes.unique hholds, Toml.not_hasLongInteger_of_length_le hshort, hfew⟩

/-- Each setting is from another layer or from another place in it. -/
theorem load_layered_chosen :
    (∀ r, some Path.root = some r →
      layered.Legible (r.child projectFile) ∧ layered.Legible (r.child ownFile)) ∧
      load layered (some .root) someVariables = .ok chosen := by
  have hlegible : ∀ r, some Path.root = some r →
      layered.Legible (r.child projectFile) ∧ layered.Legible (r.child ownFile) := by
    intro r hr
    obtain rfl := Option.some.inj hr
    exact ⟨legible_of_short holds_project (by decide +kernel) (by decide +kernel),
      legible_of_short holds_own (by decide +kernel) (by decide +kernel)⟩
  have hin : Layers.In layered someVariables (some .root) layers :=
    .workspace (.inr ⟨_, holds_project, parse_project⟩) (.found rfl rfl)
      (.inr ⟨_, holds_own, parse_own⟩)
  obtain ⟨hok, -⟩ := @load_layered layered (some .root) someVariables hlegible
  exact ⟨hlegible, (hok chosen).2 ⟨layers, hin, known_layers, follows_chosen⟩⟩

end Sample

end LintBridge
