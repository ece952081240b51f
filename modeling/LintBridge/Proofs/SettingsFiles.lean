import LintBridge.Proofs.Encoding
import LintBridge.Proofs.NormalForm
import LintBridge.Proofs.Printing
import LintBridge.Proofs.TomlReading

/-!
# LintBridge.Proofs.SettingsFiles

What can go wrong with the settings. A settings file gives fields, or is no document, or cannot be
read at all (`Disk.Gives`, `Disk.Malformed`, `Disk.Garbles`). The first two are what the loader is
prepared for: it returns settings or says why it does not, and the program ends with the status of
a failure. A file that is not UTF-8, holds an integer that is too long or is nested too deep is none
of them. It comes out as a fault, which nobody on the way handles.

Main result: `Settings.load_contained_iff`. The fault is `Sample.load_escapes`.
-/

namespace LintBridge

open LintBridge.Data LintBridge.Text LintBridge.Settings

/-! ### Single files -/

namespace Disk

variable {disk : Disk} {file : Path} {fields : Fields} {fault : Fault}

/-- There is a file at the path, with the given bytes. A name with U+0000 is the name of none. -/
def Holds (disk : Disk) (file : Path) (bytes : List UInt8) : Prop :=
  file.NulFree ∧ disk.read? file = some bytes

/-- What a settings file says: the fields of its document, or none if there is no file. -/
def Gives (disk : Disk) (file : Path) (fields : Fields) : Prop :=
  ((∀ bytes, ¬ disk.Holds file bytes) ∧ fields = []) ∨
    ∃ text, disk.Holds file (Utf8.encode text) ∧ Toml.parse disk.room text = .ok fields

/-- The file is a text, but no document. -/
def Malformed (disk : Disk) (file : Path) : Prop :=
  ∃ text, disk.Holds file (Utf8.encode text) ∧ Toml.parse disk.room text = .error .malformed

/-- The file is no text, or a text with an integer that is too long to be read, or one that is
nested deeper than there is room for. -/
inductive Garbles (disk : Disk) (file : Path) : Fault → Prop where
  | undecodable {bytes : List UInt8} (holds : disk.Holds file bytes)
      (garbled : ∀ text, bytes ≠ Utf8.encode text) : Garbles disk file .undecodable
  | oversized {text : List Char} (holds : disk.Holds file (Utf8.encode text))
      (oversized : Toml.parse disk.room text = .error .oversized) :
      Garbles disk file .oversizedInteger
  | tooDeep {text : List Char} (holds : disk.Holds file (Utf8.encode text))
      (nested : Toml.parse disk.room text = .error .tooDeep) : Garbles disk file .tooDeep

theorem Holds.unique {bytes bytes' : List UInt8} (h : disk.Holds file bytes)
    (h' : disk.Holds file bytes') : bytes = bytes' :=
  Option.some.inj (h.2.symm.trans h'.2)

/-- What becomes of a settings file. -/
inductive Reads (disk : Disk) (file : Path) : Except Failure Fields → Prop where
  | gives {fields : Fields} (h : disk.Gives file fields) : Reads disk file (.ok fields)
  | malformed (h : disk.Malformed file) :
      Reads disk file (.error (.lint (.badSettings (.unreadable file.toText))))
  | garbles {fault : Fault} (h : disk.Garbles file fault) : Reads disk file (.error (.fault fault))

theorem fileFields_of_text {text : List Char} (h : disk.Holds file (Utf8.encode text)) :
    fileFields disk file = match Toml.parse disk.room text with
      | .ok fields => .ok fields
      | .error .oversized => .error (.fault .oversizedInteger)
      | .error .tooDeep => .error (.fault .tooDeep)
      | .error .malformed => .error (.lint (.badSettings (.unreadable file.toText))) := by
  have hclean : file.parts.any (·.contains '\x00') = false := h.1
  have hdecode : Utf8.decode? (Utf8.encode text) = some text := Utf8.decode?_eq_some_iff.2 rfl
  simp only [fileFields, hclean, h.2, hdecode]
  rfl

theorem fileFields_of_garbled {bytes : List UInt8} (h : disk.Holds file bytes)
    (hgarbled : ∀ text, bytes ≠ Utf8.encode text) :
    fileFields disk file = .error (.fault .undecodable) := by
  have hclean : file.parts.any (·.contains '\x00') = false := h.1
  have hdecode : Utf8.decode? bytes = none := Option.eq_none_iff_forall_ne_some.2
    fun text htext => hgarbled text (Utf8.decode?_eq_some_iff.1 htext)
  simp only [fileFields, hclean, h.2, hdecode]
  rfl

theorem fileFields_of_absent (h : ∀ bytes, ¬ disk.Holds file bytes) :
    fileFields disk file = .ok [] := by
  unfold fileFields
  split
  · rfl
  next hclean =>
    have hnone : disk.read? file = none :=
      Option.eq_none_iff_forall_ne_some.2 fun bytes hbytes =>
        h bytes ⟨Bool.eq_false_iff.2 hclean, hbytes⟩
    rw [hnone]

theorem fileFields_eq_iff {x : Except Failure Fields} :
    fileFields disk file = x ↔ disk.Reads file x := by
  constructor
  · intro h
    subst h
    by_cases hholds : ∃ bytes, disk.Holds file bytes
    · obtain ⟨bytes, hbytes⟩ := hholds
      by_cases htext : ∃ text, bytes = Utf8.encode text
      · obtain ⟨text, rfl⟩ := htext
        rw [fileFields_of_text hbytes]
        split
        next fields hparse => exact .gives (.inr ⟨text, hbytes, hparse⟩)
        next hparse => exact .garbles (.oversized hbytes hparse)
        next hparse => exact .garbles (.tooDeep hbytes hparse)
        next hparse => exact .malformed ⟨text, hbytes, hparse⟩
      · rw [fileFields_of_garbled hbytes (not_exists.1 htext)]
        exact .garbles (.undecodable hbytes (not_exists.1 htext))
    · rw [fileFields_of_absent (not_exists.1 hholds)]
      exact .gives (.inl ⟨not_exists.1 hholds, rfl⟩)
  · intro h
    cases h with
    | gives h =>
      rcases h with ⟨habsent, rfl⟩ | ⟨text, hholds, hparse⟩
      · exact fileFields_of_absent habsent
      · rw [fileFields_of_text hholds, hparse]
    | malformed h =>
      obtain ⟨text, hholds, hparse⟩ := h
      rw [fileFields_of_text hholds, hparse]
    | garbles h =>
      cases h with
      | undecodable hholds hgarbled => exact fileFields_of_garbled hholds hgarbled
      | oversized hholds hparse => rw [fileFields_of_text hholds, hparse]
      | tooDeep hholds hparse => rw [fileFields_of_text hholds, hparse]

theorem fileFields_eq_ok : fileFields disk file = .ok fields ↔ disk.Gives file fields := by
  rw [fileFields_eq_iff]
  exact ⟨fun h => by cases h; assumption, .gives⟩

theorem fileFields_eq_fault :
    fileFields disk file = .error (.fault fault) ↔ disk.Garbles file fault := by
  rw [fileFields_eq_iff]
  exact ⟨fun h => by cases h; assumption, .garbles⟩

theorem fileFields_eq_lint {e : LintError} : fileFields disk file = .error (.lint e) ↔
    disk.Malformed file ∧ e = .badSettings (.unreadable file.toText) := by
  rw [fileFields_eq_iff]
  constructor
  · intro h
    cases h with
    | malformed h => exact ⟨h, rfl⟩
  · intro h
    obtain ⟨hmalformed, rfl⟩ := h
    exact .malformed hmalformed

theorem Garbles.hasLongInteger (h : disk.Garbles file .oversizedInteger) :
    ∃ text, disk.Holds file (Utf8.encode text) ∧ Toml.HasLongInteger (Toml.joinBreaks text) := by
  cases h with
  | oversized hholds hparse => exact ⟨_, hholds, Toml.hasLongInteger_of_parse hparse⟩

theorem Garbles.lt_opens (h : disk.Garbles file .tooDeep) : ∃ text,
    disk.Holds file (Utf8.encode text) ∧
      disk.room < Toml.callsInTable * Toml.opens (Toml.joinBreaks text) := by
  cases h with
  | tooDeep hholds hparse => exact ⟨_, hholds, Toml.lt_opens_of_parse hparse⟩

end Disk

/-! ### All files -/

namespace Settings

variable {disk : Disk} {root : Option Path} {env : Environment} {fault : Fault}

/-- The caller is prepared for the outcome: there are settings, or it is said why there are none. -/
def Contained {α : Type} : Except Failure α → Prop
  | .ok _ => True
  | .error failure => ∃ flaw, failure = .lint (.badSettings flaw)

/-- A fault that keeps the settings of a workspace from being read. Of two files that cannot be read
the first counts, also if it is only no document. -/
def Unsettles (disk : Disk) (root : Option Path) (fault : Fault) : Prop :=
  ∃ r, root = some r ∧ (disk.Garbles (r.child projectFile) fault ∨
    (∃ fields, disk.Gives (r.child projectFile) fields) ∧ disk.Garbles (r.child ownFile) fault)

theorem mergedFields_eq_fault :
    mergedFields disk root env = .error (.fault fault) ↔ Unsettles disk root fault := by
  cases root with
  | none => simp [mergedFields, Unsettles]
  | some r =>
    simp [mergedFields, Unsettles, bind_eq_error, Disk.fileFields_eq_fault, Disk.fileFields_eq_ok]

theorem mergedFields_eq_lint {e : LintError} (h : mergedFields disk root env = .error (.lint e)) :
    ∃ r file, root = some r ∧ (file = r.child projectFile ∨ file = r.child ownFile) ∧
      disk.Malformed file ∧ e = .badSettings (.unreadable file.toText) := by
  cases root with
  | none => simp [mergedFields] at h
  | some r =>
    rcases bind_eq_error.1 h with hproject | ⟨project, -, h⟩
    · exact ⟨r, _, rfl, .inl rfl, Disk.fileFields_eq_lint.1 hproject⟩
    rcases bind_eq_error.1 h with hown | ⟨own, -, h⟩
    · exact ⟨r, _, rfl, .inr rfl, Disk.fileFields_eq_lint.1 hown⟩
    · cases h

/-- Faults come from the files alone. -/
theorem load_eq_fault :
    load disk root env = .error (.fault fault) ↔ Unsettles disk root fault := by
  unfold load
  rw [bind_eq_error, mergedFields_eq_fault]
  refine or_iff_left ?_
  intro h
  obtain ⟨fields, -, h⟩ := h
  split at h
  · cases h
  · cases h

/-- Every failure that is no fault is put down to the settings. -/
theorem exists_flaw {e : LintError} (h : load disk root env = .error (.lint e)) :
    ∃ flaw, e = .badSettings flaw := by
  rcases bind_eq_error.1 h with hmerged | ⟨fields, -, h⟩
  · obtain ⟨r, file, -, -, -, he⟩ := mergedFields_eq_lint hmerged
    exact ⟨_, he⟩
  · split at h
    · cases h
    next m hcheck => exact ⟨.misfit m, (Failure.lint.inj (Except.error.inj h)).symm⟩

theorem contained_load :
    Contained (load disk root env) ↔ ∀ fault, ¬ Unsettles disk root fault := by
  have hfault (fault : Fault) := @load_eq_fault disk root env fault
  cases hload : load disk root env with
  | ok settings =>
    refine iff_of_true trivial fun fault h => ?_
    rw [(hfault fault).2 h] at hload
    cases hload
  | error failure =>
    cases failure with
    | lint e =>
      obtain ⟨flaw, rfl⟩ := exists_flaw hload
      refine iff_of_true ⟨flaw, rfl⟩ fun fault h => ?_
      rw [(hfault fault).2 h] at hload
      cases hload
    | fault f =>
      refine iff_of_false ?_ fun h => h f ((hfault f).1 hload)
      intro h
      obtain ⟨flaw, h⟩ := h
      cases h

end Settings

/-! ### Sessions and the program -/

/-- A task for which the settings of a workspace are read, with its options and the format that they
ask for. -/
inductive Task.Settled : Task → Options → Option Format → Prop where
  | lint {files : List String} {o : Options} {format : Option Format}
      (hformat : Program.formatOption o.format = some format) : Settled (.lint files o) o format
  | fix {file : String} {o : Options} : Settled (.fix file o) o none
  | fixInput {o : Options} : Settled (.fixInput o) o none

namespace Program

variable {disk : Disk} {env : Environment} {root : Option Path} {path : Path}
  {format : Option Format} {w : Surroundings} {args : List String} {task : Task} {o : Options}

/-- Where the workspace has a canonical path, opening a session in it fails as reading its settings
does. -/
theorem exists_opened (hroot : ∀ r, root = some r → ∃ f, disk.canonical r = .ok f)
    (settings : Settings) (format : Option Format) :
    ∃ s, Session.opened disk settings root format = .ok s := by
  cases root with
  | none => exact ⟨_, rfl⟩
  | some r =>
    obtain ⟨f, hf⟩ := hroot r rfl
    exact ⟨_, by simp only [Session.opened, Option.mapM_some, hf]; rfl⟩

/-- Where the workspace has a canonical path, opening a session in it fails just if reading its
settings does. -/
theorem contained_openSession (hroot : ∀ r, root = some r → ∃ f, disk.canonical r = .ok f)
    (format : Option Format) (executable : Option String) :
    Contained (openSession disk env root format executable) ↔
      Contained (load disk root env) := by
  unfold openSession
  cases load disk root env with
  | error failure => exact Iff.rfl
  | ok settings =>
    obtain ⟨s, hs⟩ := exists_opened hroot
      { settings with executablePath := executable.getD settings.executablePath } format
    rw [ok_bind]
    dsimp only
    rw [hs]
    exact Iff.rfl

theorem perform_settled (h : task.Settled o format) :
    ∃ go, perform w task = inWorkspace w o format go := by
  cases h with
  | lint hformat => exact ⟨_, by simp only [perform, hformat]; rfl⟩
  | fix => exact ⟨_, rfl⟩
  | fixInput => exact ⟨fun session _ => fixInput w o session, rfl⟩

/-- The program goes no further than the settings, and ends as their failure has it. -/
theorem run_of_failure (htask : Task.ofWords? args = some task) (hsettled : task.Settled o format)
    (hroot : workspace w.disk o.root = .ok (path, false)) {failure : Failure}
    (h : load w.disk (some path) w.environment = .error failure) :
    run w args = { (match failure with
      | .lint e => warned o e
      | .fault f => broken (.fault f)) with log := logOf task } := by
  obtain ⟨go, hgo⟩ := @perform_settled format w task o hsettled
  have hopen : openSession w.disk w.environment (some path) format o.executable =
      .error failure := by rw [openSession, h, error_bind]
  simp only [run, htask, hgo, inWorkspace, hroot, hopen]
  cases failure with
  | lint e => rfl
  | fault f => rfl

/-- It shows the reason, unless it cannot print it. -/
theorem run_of_flaw (htask : Task.ofWords? args = some task) (hsettled : task.Settled o format)
    (hroot : workspace w.disk o.root = .ok (path, false)) {flaw : SettingsFlaw}
    (h : load w.disk (some path) w.environment = .error (.lint (.badSettings flaw))) :
    (∀ message : String, flaw.message = message → (run w args).status = .ok failure ∧
      (run w args).printed =
        Terminal.printed (Notice.symbol o.emoji Notice.warn.mark ++ message).toList) ∧
    (¬ flaw.message.IsProper → (run w args).status = .error (.fault .unencodable)) := by
  rw [run_of_failure htask hsettled hroot h]
  refine ⟨fun message hmessage => ?_, fun hmessage => ?_⟩
  · have hwarned : warned o (.badSettings flaw) = _ := warned_of_message hmessage
    simp only [hwarned]
    exact ⟨trivial, trivial⟩
  · have hwarned : warned o (.badSettings flaw) = _ := warned_of_not_isProper hmessage
    simp only [hwarned]
    rfl

end Program

namespace Settings

open Program

/-- Reading the settings comes out as settings or as a reason why there are none, unless a file that
is reached is no text, holds an integer that is too long or opens more brackets and braces than
there is room for. So do opening a session and running the program, which shows the reason and ends
with the status of a failure; on the fault it breaks off, and where a letter of the reason, which
names the file, is no character. -/
theorem load_contained_iff (disk : Disk) (root : Option Path) (env : Environment) :
    (Contained (load disk root env) ↔ ∀ fault, ¬ Unsettles disk root fault) ∧
    (∀ fault, Unsettles disk root fault ↔ load disk root env = .error (.fault fault)) ∧
    (Unsettles disk root .oversizedInteger → ∃ file text,
      disk.Holds file (Utf8.encode text) ∧ Toml.HasLongInteger (Toml.joinBreaks text)) ∧
    (Unsettles disk root .tooDeep → ∃ file text, disk.Holds file (Utf8.encode text) ∧
      disk.room < Toml.callsInTable * Toml.opens (Toml.joinBreaks text)) ∧
    (∀ format executable, (∀ r, root = some r → ∃ f, disk.canonical r = .ok f) →
      (Contained (openSession disk env root format executable) ↔
        ∀ fault, ¬ Unsettles disk root fault)) ∧
    ∀ (w : Surroundings) args task o format path, w.disk = disk → w.environment = env →
      root = some path → Task.ofWords? args = some task → task.Settled o format →
      workspace disk o.root = .ok (path, false) →
        (∀ flaw, load disk root env = .error (.lint (.badSettings flaw)) →
          (∀ message : String, flaw.message = message → (run w args).status = .ok 2 ∧
            (run w args).printed =
              Terminal.printed (Notice.symbol o.emoji Notice.warn.mark ++ message).toList) ∧
          (¬ flaw.message.IsProper → (run w args).status = .error (.fault .unencodable))) ∧
        ∀ fault, Unsettles disk root fault → (run w args).status = .error (.fault fault) := by
  refine ⟨contained_load, fun fault => load_eq_fault.symm, ?_, ?_, ?_, ?_⟩
  · intro h
    obtain ⟨r, -, hgarbles | ⟨-, hgarbles⟩⟩ := h
    · exact ⟨_, hgarbles.hasLongInteger⟩
    · exact ⟨_, hgarbles.hasLongInteger⟩
  · intro h
    obtain ⟨r, -, hgarbles | ⟨-, hgarbles⟩⟩ := h
    · exact ⟨_, hgarbles.lt_opens⟩
    · exact ⟨_, hgarbles.lt_opens⟩
  · intro format executable hroot
    rw [contained_openSession hroot, contained_load]
  · intro w args task o format path hdisk henv hpath htask hsettled hroot
    subst hdisk henv hpath
    refine ⟨fun flaw hload => run_of_flaw htask hsettled hroot hload, fun fault hunsettles => ?_⟩
    · rw [run_of_failure htask hsettled hroot (load_eq_fault.2 hunsettles)]
      rfl

end Settings

namespace Sample

open Program

/-- A disk with nothing on it but an own settings file in the root directory. -/
def configured (bytes : List UInt8) : Disk :=
  { tree := .directory [(ownFile, .file bytes false)], current := [], homes := [] }

/-- The program where the linter has nothing to say. -/
def quietly (disk : Disk) : Surroundings where
  disk := disk
  reply := fun (_ : Call) => (.ok ⟨[], 0, "", ""⟩ : Reply)

theorem task_everything : Task.ofWords? ["lint"] = some (.lint [] {}) := by
  cbv

theorem workspace_configured (bytes : List UInt8) :
    workspace (configured bytes) "." = .ok (.root, false) := by
  cbv

/-- A settings file of a sign that stands between a key and its value. The program says so. -/
theorem load_contained_keyless :
    (∀ fault, ¬ Unsettles (configured (Utf8.encode ['='])) (some .root) fault) ∧
      (run (quietly (configured (Utf8.encode ['=']))) ["lint"]).status = .ok 2 := by
  have hload : load (configured (Utf8.encode ['='])) (some .root) [] =
      .error (.lint (.badSettings (.unreadable "/.pynulint.toml"))) := by cbv
  have hcontained := load_contained_iff (configured (Utf8.encode ['='])) (some .root) []
  refine ⟨hcontained.1.1 ?_, ?_⟩
  · rw [hload]
    exact ⟨_, rfl⟩
  · have hruns := hcontained.2.2.2.2.2 (quietly (configured (Utf8.encode ['=']))) ["lint"] _ {}
      none _ rfl rfl rfl task_everything (.lint rfl) (workspace_configured _)
    exact ((hruns.1 _ hload).1 "Unable to read settings from /.pynulint.toml" rfl).1

/-- A settings file of one byte that is no text. Nobody says what is wrong with the settings. -/
theorem load_escapes :
    load (configured [0xFF]) (some .root) [] = .error (.fault .undecodable) ∧
      ¬ Contained (load (configured [0xFF]) (some .root) []) ∧
      (run (quietly (configured [0xFF])) ["lint"]).status = .error (.fault .undecodable) := by
  have hload : load (configured [0xFF]) (some .root) [] = .error (.fault .undecodable) := by cbv
  refine ⟨hload, ?_, ?_⟩
  · rw [hload]
    intro h
    obtain ⟨flaw, h⟩ := h
    cases h
  · have hrun := @run_of_failure _ none (quietly (configured [0xFF])) ["lint"] _ {}
      task_everything (.lint rfl) (workspace_configured _) _ hload
    rw [hrun]
    rfl

end Sample

end LintBridge
