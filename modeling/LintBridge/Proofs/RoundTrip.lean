import LintBridge.Proofs.Meaning
import LintBridge.Proofs.Reading
import LintBridge.Report.Output
import Mathlib

/-!
# LintBridge.Proofs.RoundTrip

Reading a report undoes spelling it out. Every record, with all its parts, is spelled with every
field, nulls and defaults included, and each check reads what the encoding beside it spells
(`Check.Reads`). JSON does not tell apart tables that differ in the order of their fields
(`Value.Same`), and neither does reading, except that a ranged report lists files in the order in
which they come.

Main result: `Report.parse_of_same`.
-/

namespace LintBridge.Data

/-! ### Values that JSON does not tell apart -/

/-- The same value, but for the order of the fields of tables. -/
inductive Value.Same : Value → Value → Prop where
  | refl (v : Value) : Same v v
  | array {vs ws : List Value} (items : List.Forall₂ Same vs ws) : Same (.array vs) (.array ws)
  | table {fields middle more : Fields} (perm : fields.Perm middle)
      (keys : middle.map (·.1) = more.map (·.1))
      (values : List.Forall₂ Same (middle.map (·.2)) (more.map (·.2))) :
      Same (.table fields) (.table more)

namespace Value.Same

variable {v w : Value}

theorem eq_null (h : v.Same .null) : v = .null := by
  cases h with
  | refl => rfl

theorem eq_int {i : Int} (h : v.Same (.int i)) : v = .int i := by
  cases h with
  | refl => rfl

theorem eq_string {s : Str} (h : v.Same (.string s)) : v = .string s := by
  cases h with
  | refl => rfl

theorem null_left (h : Same .null w) : w = .null := by
  cases h with
  | refl => rfl

/-- What is the same as an array is an array with the same items. -/
theorem exists_array {ws : List Value} (h : v.Same (.array ws)) :
    ∃ vs, v = .array vs ∧ List.Forall₂ Same vs ws := by
  cases h with
  | refl => exact ⟨ws, rfl, List.forall₂_same.2 fun w _ => .refl w⟩
  | array items => exact ⟨_, rfl, items⟩

theorem forall₂_fields {fields more : Fields} (hkeys : fields.map (·.1) = more.map (·.1))
    (hvalues : List.Forall₂ Same (fields.map (·.2)) (more.map (·.2))) :
    List.Forall₂ (fun a b => a.1 = b.1 ∧ Same a.2 b.2) fields more := by
  induction more generalizing fields with
  | nil =>
    obtain rfl : fields = [] := by simpa using hkeys
    exact .nil
  | cons field rest ih =>
    cases fields with
    | nil => simp at hkeys
    | cons first others =>
      simp only [List.map_cons, List.cons.injEq, List.forall₂_cons] at hkeys hvalues
      exact .cons ⟨hkeys.1, hvalues.1⟩ (ih hkeys.2 hvalues.2)

/-- What is the same as a table is a table with the same fields in some order. -/
theorem exists_table {more : Fields} (h : v.Same (.table more)) :
    ∃ fields middle : Fields, v = .table fields ∧ fields.Perm middle ∧
      List.Forall₂ (fun a b => a.1 = b.1 ∧ Same a.2 b.2) middle more := by
  cases h with
  | refl => exact ⟨more, more, rfl, .refl more, List.forall₂_same.2 fun f _ => ⟨rfl, .refl f.2⟩⟩
  | table perm keys values => exact ⟨_, _, rfl, perm, forall₂_fields keys values⟩

end Value.Same

namespace Fields

variable {fields middle more : Fields} {key : Str} {v w : Value}

/-- The fields spell a table: its fields, in some order, with the same values. -/
def Spells (fields more : Fields) : Prop :=
  ∀ key w, more.get? key = some w → ∃ v, fields.get? key = some v ∧ v.Same w

theorem Spells.of_forall₂
    (h : List.Forall₂ (fun a b => a.1 = b.1 ∧ a.2.Same b.2) fields more) :
    fields.Spells more := by
  intro key w hw
  induction h with
  | nil => simp at hw
  | @cons a b _ _ hab _ ih =>
    obtain ⟨k, v⟩ := a
    obtain ⟨k', w'⟩ := b
    obtain ⟨rfl, hsame⟩ := hab
    rw [get?_cons] at hw ⊢
    split at hw
    next heq =>
      obtain rfl := Option.some.inj hw
      exact ⟨v, by rw [if_pos heq], hsame⟩
    next hne =>
      rw [if_neg hne]
      exact ih hw

theorem keys_of_forall₂
    (h : List.Forall₂ (fun a b => a.1 = b.1 ∧ a.2.Same b.2) fields more) :
    fields.map (·.1) = more.map (·.1) := by
  induction h with
  | nil => rfl
  | cons hab _ ih => rw [List.map_cons, List.map_cons, hab.1, ih]

/-- The order of fields does not matter to what is found. -/
theorem get?_of_perm (hperm : fields.Perm middle) (h : (middle.map (·.1)).Nodup) (key : Str) :
    fields.get? key = middle.get? key := by
  have hfields : (fields.map (·.1)).Nodup := (hperm.map _).nodup_iff.2 h
  refine Option.ext fun v => ?_
  rw [get?_eq_some_iff hfields, get?_eq_some_iff h, hperm.mem_iff]

end Fields

/-- What is the same as a table without a key given twice spells that table. -/
theorem Value.Same.exists_fields {v : Value} {more : Fields} (h : v.Same (.table more))
    (hnodup : (more.map (·.1)).Nodup) :
    ∃ fields : Fields, v = .table fields ∧ fields.Spells more := by
  obtain ⟨fields, middle, rfl, hperm, hvalues⟩ := h.exists_table
  refine ⟨fields, rfl, fun key w hw => ?_⟩
  rw [Fields.get?_of_perm hperm (Fields.keys_of_forall₂ hvalues ▸ hnodup)]
  exact Fields.Spells.of_forall₂ hvalues key w hw

/-! ### Checks that read what is spelled -/

namespace Check

variable {α : Type} {check : Check α} {encode : α → Value}

/-- The check reads what the encoding spells. -/
def Reads (check : Check α) (encode : α → Value) : Prop :=
  ∀ a v, v.Same (encode a) → check v = .ok a

theorem reads_text : Reads text .string := by
  intro s v h
  rw [h.eq_string]
  rfl

theorem reads_int : Reads int .int := by
  intro i v h
  rw [h.eq_int]
  rfl

theorem atLeast_int {low n : Nat} (h : low ≤ n) : atLeast low (.int n) = .ok n := by
  show (if (low : Int) ≤ n then .ok (n : Int).toNat else Checked.fail .belowMinimum) = .ok n
  rw [if_pos (by omega), Int.toNat_natCast]

theorem reads_natural : Reads (atLeast 0) fun n => .int n := by
  intro n v h
  rw [h.eq_int]
  exact atLeast_int (Nat.zero_le n)

/-- An array of what the check reads. -/
theorem Reads.list (h : Reads check encode) :
    Reads (.list check) fun l => .array (l.map encode) := by
  intro l v hsame
  obtain ⟨vs, rfl, hall⟩ := hsame.exists_array
  rw [List.forall₂_map_right_iff] at hall
  exact items_eq_ok.2 (hall.imp fun v a hv => h a v hv)

/-- Nothing, or what the check reads. -/
theorem Reads.nullable (h : Reads check encode) (hnull : ∀ a, encode a ≠ .null) :
    Reads (.nullable check) fun o => (o.map encode).getD .null := by
  intro o v hsame
  cases o with
  | none =>
    rw [hsame.eq_null]
    rfl
  | some a =>
    have hv : v ≠ .null := by
      rintro rfl
      exact hnull a hsame.null_left
    unfold Check.nullable
    split
    · exact absurd rfl hv
    · rw [h a _ hsame]
      rfl

/-- The entries of a mapping, as a document spells them. -/
def spelledEntries (encode : α → Value) (l : List (Str × α)) : Fields :=
  l.map fun (name, a) => (name, encode a)

/-- A mapping to what the check reads. Its entries come in the order of the document. -/
theorem Reads.mapping (h : Reads check encode) {l : List (Str × α)} {v : Value}
    (hsame : v.Same (.table (spelledEntries encode l))) :
    ∃ l', Check.mapping check v = .ok l' ∧ l'.Perm l := by
  obtain ⟨fields, middle, rfl, hperm, hvalues⟩ := hsame.exists_table
  have hmiddle : List.Forall₂ (fun f e => f.1 = e.1 ∧ check f.2 = .ok e.2) middle l := by
    rw [spelledEntries, List.forall₂_map_right_iff] at hvalues
    exact hvalues.imp fun f e hf => ⟨hf.1, h e.2 f.2 hf.2⟩
  -- the entries are put back into the order of the document
  obtain ⟨l', hall, hl'⟩ := List.perm_comp_forall₂ hperm hmiddle
  exact ⟨l', entries_eq_ok.2 hall, hl'⟩

theorem Reads.mapping_self (h : Reads check encode) (l : List (Str × α)) :
    Check.mapping check (.table (spelledEntries encode l)) = .ok l := by
  refine entries_eq_ok.2 ?_
  unfold spelledEntries
  rw [List.forall₂_map_left_iff]
  exact List.forall₂_same.2 fun e _ => ⟨rfl, h e.2 _ (.refl _)⟩

end Check

namespace Fields

variable {α : Type} {fields more : Fields} {check : Check α} {encode : α → Value}

theorem optional_of_get? {name : String} {v : Value} {a : α} (default : α)
    (hget : fields.get? name = some v) (ha : check v = .ok a) :
    fields.optional name default check = .ok a := by
  unfold Fields.optional
  rw [hget]
  exact Checked.inside_eq_ok.2 ha

/-- A field that is spelled is read. -/
theorem Spells.required (h : fields.Spells more) (hreads : check.Reads encode) (name : String)
    (a : α) (hget : more.get? name = some (encode a)) :
    fields.required name check = .ok a := by
  obtain ⟨v, hv, hsame⟩ := h name _ hget
  unfold Fields.required
  rw [hv, Checked.inside_eq_ok]
  exact hreads a v hsame

/-- So is one that may be absent. -/
theorem Spells.optional (h : fields.Spells more) (hreads : check.Reads encode) (name : String)
    (default a : α) (hget : more.get? name = some (encode a)) :
    fields.optional name default check = .ok a := by
  obtain ⟨v, hv, hsame⟩ := h name _ hget
  exact optional_of_get? default hv (hreads a v hsame)

end Fields

end LintBridge.Data

/-! ### The text of a table -/

namespace LintBridge.Data.Json

variable {room : Nat} {text rest : List Char} {fields : Fields}

theorem word?_ne_table : word? text ≠ some (.table fields, rest) := by
  intro h
  obtain ⟨⟨w, v⟩, hmem, hv⟩ := List.exists_of_findSome?_eq_some h
  have hword : v = .table fields := by
    dsimp only at hv
    split at hv
    · exact (Prod.mk.inj (Option.some.inj hv)).1
    · simp at hv
  simp [words, hword] at hmem

theorem number_ne_table : number text ≠ .ok (.table fields, rest) := by
  intro h
  unfold number at h
  dsimp only at h
  -- with a sign or without, there is no number, or an integer, or a number with a fraction
  split at h
  all_goals
    split at h
    · simp at h
    · split at h
      · split at h
        · simp at h
        · simp at h
      · simp at h

/-- What is read as a table begins with a brace. -/
theorem exists_of_value_eq_table {fuel : Nat}
    (h : value fuel room text = .ok (.table fields, rest)) : ∃ inside, text = '{' :: inside := by
  cases fuel with
  | zero => simp [value] at h
  | succ fuel =>
    unfold value at h
    split at h
    · obtain ⟨s, -, h⟩ := bind_eq_ok.1 h
      simp at h
    · exact ⟨_, rfl⟩
    · split at h
      · simp at h
      · split at h
        · simp at h
        · obtain ⟨s, -, h⟩ := bind_eq_ok.1 h
          simp at h
    · split at h
      next found hfound =>
        obtain rfl := Except.ok.inj h
        exact absurd hfound word?_ne_table
      next => exact absurd h number_ne_table

/-- A text that is a table holds a brace. -/
theorem brace_mem_of_parse (h : parse room text = .ok (.table fields)) : '{' ∈ text := by
  have hread : ∃ rest, value (2 * text.length + 1) room (skipSpace text) =
      .ok (.table fields, rest) := by
    unfold parse at h
    dsimp only at h
    split at h
    · simp at h
    · split at h
      · simp at h
      next v rest hv =>
        split at h
        · obtain rfl := Except.ok.inj h
          exact ⟨rest, hv⟩
        · simp at h
  obtain ⟨rest, hread⟩ := hread
  obtain ⟨inside, hinside⟩ := exists_of_value_eq_table hread
  have hsuffix : skipSpace text <:+ text := List.dropWhile_suffix _
  exact hsuffix.subset (by simp [hinside])

end LintBridge.Data.Json

namespace LintBridge

open LintBridge.Data

/-! ### Parts of records -/

theorem reads_position : Check.Reads Position.check Position.encode := by
  intro p v hsame
  obtain ⟨fields, rfl, hs⟩ := hsame.exists_fields (by simp)
  have hline := hs.required Check.reads_natural "line" p.line rfl
  have hcharacter := hs.required Check.reads_natural "character" p.character rfl
  simp only [Position.check, Check.table, hline, hcharacter]
  rfl

theorem reads_range : Check.Reads Range.check Range.encode := by
  intro r v hsame
  obtain ⟨fields, rfl, hs⟩ := hsame.exists_fields (by simp)
  have hstart := hs.required reads_position "start" r.start rfl
  have hstop := hs.required reads_position "end" r.stop rfl
  have hbetween : Range.between r.start r.stop = .ok r := dif_pos r.ordered
  simp only [Range.check, Check.table, hstart, hstop]
  exact hbetween

theorem reads_replacement : Check.Reads Replacement.check Replacement.encode := by
  intro r v hsame
  obtain ⟨fields, rfl, hs⟩ := hsame.exists_fields (by simp)
  have hstart := hs.required Check.reads_natural "offset_start" r.stretch.start rfl
  have hstop := hs.required Check.reads_natural "offset_end" r.stretch.stop rfl
  have htext := hs.required Check.reads_text "new_text" r.text rfl
  have hbetween : Replacement.between r.stretch.start r.stretch.stop r.text = .ok r :=
    dif_pos r.stretch.ordered
  simp only [Replacement.check, Check.table, hstart, hstop, htext]
  exact hbetween

theorem reads_fix : Check.Reads Fix.check Fix.encode := by
  intro f v hsame
  obtain ⟨fields, rfl, hs⟩ := hsame.exists_fields (by simp)
  have hdescription := hs.required Check.reads_text "description" f.description rfl
  have hreplacements := hs.optional reads_replacement.list "replacements" [] f.replacements rfl
  simp only [Fix.check, Check.table, hdescription, hreplacements]
  rfl

theorem reads_location : Check.Reads Location.check Location.encode := by
  intro l v hsame
  obtain ⟨fields, rfl, hs⟩ := hsame.exists_fields (by simp)
  have huri := hs.required Check.reads_text "uri" l.uri rfl
  have hrange := hs.required reads_range "range" l.range rfl
  simp only [Location.check, Check.table, huri, hrange]
  rfl

theorem reads_related : Check.Reads Related.check Related.encode := by
  intro r v hsame
  obtain ⟨fields, rfl, hs⟩ := hsame.exists_fields (by simp)
  have hlocation := hs.required reads_location "location" r.location rfl
  have hmessage := hs.required Check.reads_text "message" r.message rfl
  simp only [Related.check, Check.table, hlocation, hmessage]
  rfl

theorem reads_textEdit {name : String} (hname : name ≠ "range") :
    Check.Reads (TextEdit.check name) (TextEdit.encode name) := by
  intro e v hsame
  obtain ⟨fields, rfl, hs⟩ := hsame.exists_fields (by simpa using hname.symm)
  have hrange := hs.required reads_range "range" e.range rfl
  have htext := hs.required Check.reads_text name e.text
    (by simp [Fields.get?_cons, Ne.symm hname])
  simp only [TextEdit.check, Check.table, hrange, htext]
  rfl

theorem reads_codeAction : Check.Reads CodeAction.check CodeAction.encode := by
  intro a v hsame
  obtain ⟨fields, rfl, hs⟩ := hsame.exists_fields (by simp)
  have htitle := hs.required Check.reads_text "title" a.title rfl
  have hedit : Check.Reads (TextEdit.check CodeAction.textField)
      (TextEdit.encode CodeAction.textField) := reads_textEdit (by decide)
  have hedits := hs.optional hedit.list "edits" [] a.edits rfl
  simp only [CodeAction.check, Check.table, htitle, hedits]
  rfl

theorem reads_summary : Check.Reads Summary.check Summary.encode := by
  intro s v hsame
  obtain ⟨fields, rfl, hs⟩ := hsame.exists_fields (by simp)
  have herrors := hs.optional Check.reads_int "errors" 0 s.errors rfl
  have hwarnings := hs.optional Check.reads_int "warnings" 0 s.warnings rfl
  have hinfo := hs.optional Check.reads_int "info" 0 s.info rfl
  have hfiles := hs.optional Check.reads_int "files_checked" 0 s.filesChecked rfl
  simp only [Summary.check, Check.table, herrors, hwarnings, hinfo, hfiles]
  rfl

/-! ### Records -/

/-- A number that is counted from one is read as one that is counted from zero. -/
theorem reads_ordinal : Check.Reads Violation.ordinal fun n => .int (n + 1) := by
  intro n v hsame
  have hone : Check.atLeast 1 v = .ok (n + 1) := by
    rw [hsame.eq_int]
    exact Check.atLeast_int (Nat.le_add_left 1 n)
  rw [Violation.ordinal, hone]
  rfl

theorem Violation.ofParts_self (v : Violation) :
    ofParts v.rule v.severity v.message v.file v.range.start.line v.range.stop.line
      v.range.start.character v.range.stop.character v.stretch.start v.stretch.stop v.suggestion
      v.fix = .ok v := by
  have hordered := Position.le_def.1 v.range.ordered
  have hlines : v.range.start.line ≤ v.range.stop.line := by omega
  have hcolumns : v.range.start.line = v.range.stop.line →
      v.range.start.character ≤ v.range.stop.character := by omega
  unfold ofParts
  rw [dif_pos hlines, dif_pos hcolumns, dif_pos v.stretch.ordered]

theorem reads_violation : Check.Reads Violation.check Violation.encode := by
  intro x v hsame
  obtain ⟨fields, rfl, hs⟩ := hsame.exists_fields (by simp)
  have hrule := hs.required Check.reads_text "rule_id" x.rule rfl
  have hseverity := hs.optional Check.reads_text "severity" "warning" x.severity rfl
  have hmessage := hs.required Check.reads_text "message" x.message rfl
  have hfile := hs.required Check.reads_text "file" x.file rfl
  have hstartLine := hs.required reads_ordinal "line_start" x.range.start.line rfl
  have hstopLine := hs.required reads_ordinal "line_end" x.range.stop.line rfl
  have hstartColumn := hs.required reads_ordinal "column_start" x.range.start.character rfl
  have hstopColumn := hs.required reads_ordinal "column_end" x.range.stop.character rfl
  have hstart := hs.optional Check.reads_natural "offset_start" 0 x.stretch.start rfl
  have hstop := hs.optional Check.reads_natural "offset_end" 0 x.stretch.stop rfl
  have hsuggestion := hs.optional (Check.reads_text.nullable (by simp)) "suggestion" none
    x.suggestion rfl
  have hfix := hs.optional (reads_fix.nullable (by simp [Fix.encode])) "fix" none x.fix rfl
  simp only [Violation.check, Check.table, hrule, hseverity, hmessage, hfile, hstartLine,
    hstopLine, hstartColumn, hstopColumn, hstart, hstop, hsuggestion, hfix]
  exact x.ofParts_self

theorem reads_finding : Check.Reads Finding.check Finding.encode := by
  intro f v hsame
  obtain ⟨fields, rfl, hs⟩ := hsame.exists_fields (by simp)
  have hrange := hs.required reads_range "range" f.range rfl
  have hseverity := hs.optional Check.reads_int "severity" 2 f.severity rfl
  have hcode := hs.required Check.reads_text "code" f.code rfl
  have hsource := hs.optional Check.reads_text "source" linterSource f.source rfl
  have hmessage := hs.required Check.reads_text "message" f.message rfl
  have hrelated := hs.optional (reads_related.list.nullable (by simp)) "related_information" none
    f.related rfl
  have haction := hs.optional (reads_codeAction.nullable (by simp [CodeAction.encode]))
    "code_action" none f.action rfl
  simp only [Finding.check, Check.table, hrange, hseverity, hcode, hsource, hmessage, hrelated,
    haction]
  rfl

/-! ### Reports -/

namespace Report

variable {r r' : Report} {fields : Fields} {v : Value}

/-- The same report, but for the order of the files. -/
def Agrees : Report → Report → Prop
  | legacy violations summary, legacy violations' summary' =>
    violations = violations' ∧ summary = summary'
  | ranged files summary, ranged files' summary' => files.Perm files' ∧ summary = summary'
  | _, _ => False

/-- The field that names the format is not read. -/
theorem get?_format : Fields.get? (fields.filter isPresent) "format" = none := by
  induction fields with
  | nil => rfl
  | cons field rest ih =>
    obtain ⟨key, v⟩ := field
    rw [List.filter_cons]
    split
    next hpresent =>
      have hkey : key ≠ "format" := by
        rintro rfl
        cases v <;> simp [isPresent] at hpresent
      rw [Fields.get?_cons, if_neg hkey]
      exact ih
    next => exact ih

/-- Every other field is read, unless it is null. -/
theorem get?_present {key : Str} (hpresent : isPresent (key, v) = true)
    (h : fields.get? key = some v) : Fields.get? (fields.filter isPresent) key = some v := by
  induction fields with
  | nil => simp at h
  | cons field rest ih =>
    obtain ⟨k, u⟩ := field
    rw [Fields.get?_cons] at h
    split at h
    next heq =>
      obtain rfl := Option.some.inj h
      rw [List.filter_cons_of_pos (heq ▸ hpresent), Fields.get?_cons, if_pos heq]
    next hne =>
      rw [List.filter_cons]
      split
      · rw [Fields.get?_cons, if_neg hne]
        exact ih h
      · exact ih h

theorem isPresent_of_same {key : Str} {w : Value} (h : v.Same w)
    (hpresent : isPresent (key, w) = true) : isPresent (key, v) = true := by
  have hw : w ≠ .null := by
    rintro rfl
    simp [isPresent] at hpresent
  have hv : v ≠ .null := by
    rintro rfl
    exact hw h.null_left
  have hkey : key ≠ "format" := by
    rintro rfl
    cases w <;> simp [isPresent] at hpresent
  cases v <;> simp_all [isPresent]

/-- What is read of the fields that spell a table spells what is read of the table. -/
theorem spells_present {more : Fields} (hs : fields.Spells more)
    (hnodup : (more.map (·.1)).Nodup) :
    Fields.Spells (fields.filter isPresent) (more.filter isPresent) := by
  intro key w hw
  have hfiltered : ((more.filter isPresent).map (·.1)).Nodup :=
    hnodup.sublist (List.filter_sublist.map _)
  obtain ⟨hmem, hpresent⟩ := List.mem_filter.1 ((Fields.get?_eq_some_iff hfiltered).1 hw)
  obtain ⟨v, hv, hsame⟩ := hs key w ((Fields.get?_eq_some_iff hnodup).2 hmem)
  exact ⟨v, get?_present (isPresent_of_same hsame hpresent) hv, hsame⟩

theorem optional_format (u : Unit) (check : Check Unit) :
    Fields.optional (fields.filter isPresent) "format" u check = .ok u := by
  unfold Fields.optional
  rw [get?_format]

/-- The fields of a report are read. -/
theorem check_of_same (h : (Value.table fields).Same r.encode) :
    ∃ r', check r.format (.table (fields.filter isPresent)) = .ok r' ∧ r'.Agrees r ∧
      (.table fields = r.encode → r' = r) := by
  cases r with
  | legacy violations summary =>
    obtain ⟨fields', heq, hspells⟩ := h.exists_fields (by simp)
    obtain rfl := Value.table.inj heq
    have hs := spells_present hspells (by simp)
    have hviolations := hs.optional reads_violation.list "violations" [] violations rfl
    have hsummary := hs.optional reads_summary "summary" {} summary rfl
    refine ⟨.legacy violations summary, ?_, ⟨rfl, rfl⟩, fun _ => rfl⟩
    simp only [check, format, Check.table, optional_format, hviolations, hsummary]
    rfl
  | ranged files summary =>
    obtain ⟨fields', heq, hspells⟩ := h.exists_fields (by simp)
    obtain rfl := Value.table.inj heq
    have hs := spells_present hspells (by simp)
    have hsummary := hs.optional reads_summary "summary" {} summary rfl
    obtain ⟨u, hget, hu⟩ := hs "diagnostics"
      (.table (Check.spelledEntries (fun all => .array (all.map Finding.encode)) files)) rfl
    obtain ⟨files', hmapping, hperm⟩ := reads_finding.list.mapping hu
    have hfiles := Fields.optional_of_get? [] hget hmapping
    refine ⟨.ranged files' summary, ?_, ⟨hperm, rfl⟩, fun hexact => ?_⟩
    · simp only [check, format, Check.table, optional_format, hfiles, hsummary]
      rfl
    · -- the files come in the order of the report
      obtain rfl := Value.table.inj hexact
      obtain rfl : _ = u := Option.some.inj hget
      have hself := reads_finding.list.mapping_self files
      obtain rfl : files = files' := Except.ok.inj (hself.symm.trans hmapping)
      rfl

/-! ### The text of a report -/

theorem not_blank_of_parse {room : Nat} {text : List Char}
    (h : Json.parse room text = .ok (.table fields)) :
    text.all Text.isBlank = false :=
  List.all_eq_false.2 ⟨'{', Json.brace_mem_of_parse h, by decide⟩

/-- Reading the text of a report yields the report, up to the order of the fields of tables; if the
fields come in their own order, it is the very same report. -/
theorem parse_of_same {room : Nat} {text : List Char} (hv : Json.parse room text = .ok v)
    (h : v.Same r.encode) :
    ∃ r', parse room r.format text = .ok r' ∧ r'.Agrees r ∧ (v = r.encode → r' = r) := by
  obtain ⟨fields, rfl⟩ : ∃ fields, v = .table fields := by
    cases r with
    | legacy violations summary =>
      obtain ⟨fields, -, rfl, -⟩ := h.exists_table
      exact ⟨fields, rfl⟩
    | ranged files summary =>
      obtain ⟨fields, -, rfl, -⟩ := h.exists_table
      exact ⟨fields, rfl⟩
  obtain ⟨r', hcheck, hagrees, hexact⟩ := check_of_same h
  refine ⟨r', ?_, hagrees, hexact⟩
  simp only [parse, not_blank_of_parse hv, ofJson, hv, ofFields, Check.run, hcheck]
  rfl

end Report

namespace Sample

/-- A text of one half of a surrogate pair. -/
def half : Str := [.unit ⟨0, by decide⟩]

/-- A violation without a suggestion and one without a fix, which has the default in all parts that
have one. -/
def violated : Report := .legacy
  [{ rule := "r", severity := "error", message := half, file := "a.nu",
     range := ⟨⟨0, 4⟩, ⟨2, 0⟩, by decide⟩, stretch := ⟨4, 9, by decide⟩, suggestion := none,
     fix := some ⟨half, [⟨⟨4, 6, by decide⟩, "x"⟩, ⟨⟨7, 7, by decide⟩, ""⟩]⟩ },
   { rule := "s", severity := "warning", message := "m", file := "b.nu",
     range := ⟨⟨1, 2⟩, ⟨1, 2⟩, by decide⟩, stretch := ⟨0, 0, by decide⟩, suggestion := some "t",
     fix := none }]
  { warnings := 2 }

/-- The report on the violations. -/
def violatedText : List Char :=
  ["\x7b\"format\":\"json\",\"violations\":[\x7b\"rule_id\":\"r\",",
    "\"severity\":\"error\",\"message\":\"\\ud800\",",
    "\"file\":\"a.nu\",\"line_start\":1,\"line_end\":3,",
    "\"column_start\":5,\"column_end\":1,\"offset_start\":4,",
    "\"offset_end\":9,\"suggestion\":null,\"fix\":\x7b",
    "\"description\":\"\\ud800\",\"replacements\":[",
    "\x7b\"offset_start\":4,\"offset_end\":6,\"new_text\":\"x\"\x7d,",
    "\x7b\"offset_start\":7,\"offset_end\":7,\"new_text\":\"\"\x7d]\x7d\x7d,",
    "\x7b\"rule_id\":\"s\",\"severity\":\"warning\",\"message\":\"m\",",
    "\"file\":\"b.nu\",\"line_start\":2,\"line_end\":2,",
    "\"column_start\":3,\"column_end\":3,\"offset_start\":0,",
    "\"offset_end\":0,\"suggestion\":\"t\",\"fix\":null\x7d],",
    "\"summary\":\x7b\"errors\":0,\"warnings\":2,",
    "\"info\":0,\"files_checked\":0\x7d\x7d"].flatMap String.toList

/-- A range on the first line of a text. -/
def onFirst : Range := ⟨⟨0, 2⟩, ⟨0, 5⟩, by decide⟩

/-- A finding with a remark and an edit, and one with neither. -/
def foundInFile : List Finding :=
  [{ range := onFirst, severity := 1, code := "c", source := "s", message := half
     related := some [⟨⟨half, onFirst⟩, "h"⟩], action := some ⟨"t", [⟨onFirst, "x"⟩]⟩ },
   { range := onFirst, severity := 2, code := "d", source := linterSource, message := "m"
     related := none, action := none }]

/-- The findings in one file, and another file without any. -/
def found : Report := .ranged [("a.nu", foundInFile), ("b.nu", [])] { filesChecked := 2 }

def foundFiles : Value :=
  .table [("b.nu", .array []), ("a.nu", .array (foundInFile.map Finding.encode))]

def foundFields : Fields :=
  [("format", .string "vscode-json"), ("diagnostics", foundFiles),
    ("summary", found.summary.encode)]

/-- The report on the findings, with the files and the fields of the whole in another order. -/
def foundText : List Char :=
  ["\x7b\"summary\":\x7b\"errors\":0,\"warnings\":0,\"info\":0,",
    "\"files_checked\":2\x7d,\"diagnostics\":\x7b\"b.nu\":[],",
    "\"a.nu\":[\x7b\"range\":\x7b\"start\":\x7b\"line\":0,",
    "\"character\":2\x7d,\"end\":\x7b\"line\":0,\"character\":5\x7d\x7d,",
    "\"severity\":1,\"code\":\"c\",\"source\":\"s\",",
    "\"message\":\"\\ud800\",\"related_information\":[",
    "\x7b\"location\":\x7b\"uri\":\"\\ud800\",\"range\":\x7b",
    "\"start\":\x7b\"line\":0,\"character\":2\x7d,",
    "\"end\":\x7b\"line\":0,\"character\":5\x7d\x7d\x7d,\"message\":\"h\"\x7d],",
    "\"code_action\":\x7b\"title\":\"t\",\"edits\":[\x7b\"range\":\x7b",
    "\"start\":\x7b\"line\":0,\"character\":2\x7d,",
    "\"end\":\x7b\"line\":0,\"character\":5\x7d\x7d,",
    "\"replacement_text\":\"x\"\x7d]\x7d\x7d,\x7b\"range\":\x7b",
    "\"start\":\x7b\"line\":0,\"character\":2\x7d,",
    "\"end\":\x7b\"line\":0,\"character\":5\x7d\x7d,",
    "\"severity\":2,\"code\":\"d\",\"source\":\"nu-lint\",",
    "\"message\":\"m\",\"related_information\":null,",
    "\"code_action\":null\x7d]\x7d,\"format\":\"vscode-json\"\x7d"].flatMap String.toList

set_option maxRecDepth 20000 in
theorem parse_violatedText : Json.parse 900 violatedText = .ok violated.encode := by
  unfold violated half
  cbv

set_option maxRecDepth 20000 in
theorem parse_foundText : Json.parse 900 foundText = .ok (.table foundFields.reverse) := by
  unfold foundFields foundFiles foundInFile half
  cbv

theorem same_foundFields : (Value.table foundFields.reverse).Same found.encode := by
  have hfiles : foundFiles.Same (.table [("a.nu", .array (foundInFile.map Finding.encode)),
      ("b.nu", .array [])]) :=
    .table (.swap ..) rfl (List.forall₂_same.2 fun w _ => .refl w)
  exact .table foundFields.reverse_perm rfl
    (.cons (.refl _) (.cons hfiles (.cons (.refl _) .nil)))

/-- Violations are read back as they are, and findings up to the order of the files. -/
theorem parse_of_same_records :
    Json.parse 900 violatedText = .ok violated.encode ∧
      Report.parse 900 violated.format violatedText = .ok violated ∧
      Json.parse 900 foundText = .ok (.table foundFields.reverse) ∧
      ∃ r', Report.parse 900 found.format foundText = .ok r' ∧ r'.Agrees found := by
  obtain ⟨r, hr, -, hexact⟩ := Report.parse_of_same parse_violatedText (.refl violated.encode)
  obtain ⟨r', hr', hagrees, -⟩ := Report.parse_of_same parse_foundText same_foundFields
  obtain rfl := hexact rfl
  exact ⟨parse_violatedText, hr, parse_foundText, r', hr', hagrees⟩

end Sample

end LintBridge
