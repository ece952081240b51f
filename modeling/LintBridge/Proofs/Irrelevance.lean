import LintBridge.Proofs.Conformity
import Mathlib.Data.List.Perm.Basic

/-!
# LintBridge.Proofs.Irrelevance

What of the linter's output is not read. Two outputs are compared that give the same in the fields
of the schema (`Report.GivenAlike`) and may differ in everything else: in further fields, in the
name of the format, in nulls, in the order of fields. Values that are the same but for the order of
the fields of tables mean the same at every depth (`Meaning.Blind`), so a report that one of the
outputs describes is described by the other.

Main result: `Report.parse_of_givenAlike`.
-/

namespace LintBridge.Data

/-! ### Values that JSON does not tell apart, both ways -/

namespace Value.Same

variable {v w : Value}

theorem forall₂_values {fields more : Fields}
    (h : List.Forall₂ (fun a b => a.1 = b.1 ∧ Same a.2 b.2) fields more) :
    List.Forall₂ Same (fields.map (·.2)) (more.map (·.2)) := by
  rw [List.forall₂_map_left_iff, List.forall₂_map_right_iff]
  exact h.imp fun _ _ hab => hab.2

theorem symm (h : v.Same w) : w.Same v := by
  -- the items of an array and the values of a table go through the same recursion
  refine @Same.rec (fun v w _ => Same w v) (fun vs ws _ => List.Forall₂ Same ws vs)
    ?refl ?array ?table .nil (fun _ _ hfirst hrest => .cons hfirst hrest) v w h
  case refl => exact fun v => .refl v
  case array => exact fun _ hitems => .array hitems
  case table =>
    intro fields middle more hperm hkeys _ hvalues
    have hall := (forall₂_fields hkeys.symm hvalues).flip
    -- not the first fields but the second ones are put into another order
    obtain ⟨order, horder, hmore⟩ := List.perm_comp_forall₂ hperm hall
    exact .table hmore.symm (Fields.keys_of_forall₂ horder.flip) (forall₂_values horder.flip)

end Value.Same

/-- What stands on one side stands on the other. -/
theorem exists_of_rel {x y : Option Value} {v : Value} (h : Option.Rel Value.Same x y)
    (hx : x = some v) : ∃ w, y = some w ∧ v.Same w := by
  cases h with
  | some hsame =>
    obtain rfl := Option.some.inj hx
    exact ⟨_, rfl, hsame⟩
  | none => exact absurd hx (by simp)

theorem eq_none_of_rel {x y : Option Value} (h : Option.Rel Value.Same x y) (hx : x = none) :
    y = none := by
  cases h with
  | some => exact absurd hx (by simp)
  | none => rfl

theorem rel_symm {x y : Option Value} (h : Option.Rel Value.Same x y) :
    Option.Rel Value.Same y x := by
  cases h with
  | some hsame => exact .some hsame.symm
  | none => exact .none

/-- The tables agree on a field: both have it, with the same value, or neither has. -/
def Fields.AgreeOn (fields more : Fields) (name : String) : Prop :=
  Option.Rel Value.Same (fields.get? name) (more.get? name)

/-- Tables that are the same agree on every field. -/
theorem Value.Same.agreeOn {fields more : Fields} (h : (Value.table fields).Same (.table more))
    (hfields : fields.Keyed) (hmore : more.Keyed) (name : String) : fields.AgreeOn more name := by
  obtain ⟨_, heq, hto⟩ := h.exists_fields hmore.nodup
  obtain rfl := Value.table.inj heq
  obtain ⟨_, heq, hfrom⟩ := h.symm.exists_fields hfields.nodup
  obtain rfl := Value.table.inj heq
  unfold Fields.AgreeOn
  cases hw : more.get? name with
  | some w =>
    obtain ⟨v, hv, hsame⟩ := hto name w hw
    rw [hv]
    exact .some hsame
  | none =>
    cases hv : fields.get? name with
    | none => exact .none
    | some v =>
      obtain ⟨w, hw', -⟩ := hfrom name v hv
      exact absurd (hw.symm.trans hw') (by simp)

/-! ### Meanings that do not see the order of fields -/

/-- What is related to one list is related to another one that goes along with it. -/
theorem forall₂_along {α β : Type} {r : α → α → Prop} {means : α → β → Prop} {vs ws : List α}
    {l : List β} (hall : List.Forall₂ r vs ws) (hl : List.Forall₂ means vs l)
    (hstep : ∀ v ∈ vs, ∀ w ∈ ws, r v w → ∀ a, means v a → means w a) :
    List.Forall₂ means ws l := by
  induction hall generalizing l with
  | nil =>
    cases hl with
    | nil => exact .nil
  | @cons v w vs ws hvw _ ih =>
    cases hl with
    | cons hfirst hrest =>
      have hhead := hstep v (List.mem_cons_self ..) w (List.mem_cons_self ..) hvw _ hfirst
      exact .cons hhead <| ih hrest fun v hv w hw =>
        hstep v (List.mem_cons_of_mem _ hv) w (List.mem_cons_of_mem _ hw)

theorem Value.Keyed.items {vs : List Value} (h : (Value.array vs).Keyed) : ∀ v ∈ vs, v.Keyed := by
  cases h with
  | plain _ hitems =>
    obtain rfl : vs = [] := hitems
    simp
  | array items => exact items

namespace Meaning

variable {α : Type} {means : Meaning α}

/-- What one of two values says that are the same, the other says as well. -/
def Blind (means : Meaning α) : Prop :=
  ∀ ⦃v w : Value⦄, v.Keyed → w.Keyed → v.Same w → ∀ ⦃a : α⦄, means v a → means w a

theorem blind_text : Blind text := by
  intro v w _ _ hsame s hv
  obtain rfl : v = .string s := hv
  exact hsame.symm.eq_string

theorem blind_number : Blind number := by
  intro v w _ _ hsame i hi
  cases hsame with
  | refl => exact hi
  | array => exact hi
  | table => exact hi

theorem Blind.list (h : means.Blind) : (list means).Blind := by
  intro v w hv hw hsame l hl
  obtain ⟨vs, rfl, hall⟩ := hl
  obtain ⟨ws, rfl, hitems⟩ := hsame.symm.exists_array
  refine ⟨ws, rfl, forall₂_along hitems.flip hall fun v hvs w hws hwv a ha => ?_⟩
  exact h (hv.items v hvs) (hw.items w hws) (Value.Same.symm hwv) ha

theorem Blind.nullable (h : means.Blind) : (nullable means).Blind := by
  intro v w hv hw hsame o ho
  cases o with
  | none =>
    obtain rfl : v = .null := ho
    exact hsame.null_left
  | some a =>
    obtain ⟨hne, ha⟩ := ho
    refine ⟨?_, h hv hw hsame ha⟩
    rintro rfl
    exact hne hsame.eq_null

/-- What one of two values says that are the same, the other says as well, but for a relation. -/
def BlindUpTo (means : Meaning α) (r : α → α → Prop) : Prop :=
  ∀ ⦃v w : Value⦄, v.Keyed → w.Keyed → v.Same w → ∀ ⦃a : α⦄, means v a → ∃ b, means w b ∧ r a b

theorem Blind.upToEq (h : means.Blind) : means.BlindUpTo Eq :=
  fun _ _ hv hw hsame a ha => ⟨a, h hv hw hsame ha, rfl⟩

/-- A mapping lists its entries in the order of the table. -/
theorem Blind.mapping (h : means.Blind) : (mapping means).BlindUpTo List.Perm := by
  intro v w hv hw hsame l hl
  obtain ⟨fields, rfl, hall⟩ := hl
  obtain ⟨more, middle, rfl, hperm, hmiddle⟩ := hsame.symm.exists_table
  have hentries := forall₂_along hmiddle.flip hall fun f hf g hg hgf e he => by
    refine ⟨hgf.1.trans he.1, h (hv.fields.values f hf) ?_ hgf.2.symm he.2⟩
    exact hw.fields.values g (hperm.mem_iff.2 hg)
  -- the entries are put into the order of the other table
  obtain ⟨l', hmore, hl'⟩ := List.perm_comp_forall₂ hperm hentries
  exact ⟨l', ⟨more, rfl, hmore⟩, hl'.symm⟩

end Meaning

namespace Fields

variable {fields more : Fields} {name : String} {v : Value}

theorem Keyed.get? (h : fields.Keyed) (hv : fields.get? name = some v) : v.Keyed :=
  h.values _ ((get?_eq_some_iff h.nodup).1 hv)

/-- Two tables, each without a key given twice, that agree on every field. -/
structure Agree (fields more : Fields) : Prop where
  keyed : fields.Keyed
  keyedMore : more.Keyed
  agreeOn : ∀ name, fields.AgreeOn more name

variable {α : Type} {means : Meaning α} {a default : α}

theorem Agree.gives (h : fields.Agree more) (hmeans : means.Blind)
    (hgives : fields.Gives name means a) : more.Gives name means a := by
  obtain ⟨v, hv, ha⟩ := hgives
  obtain ⟨w, hw, hsame⟩ := exists_of_rel (h.agreeOn name) hv
  exact ⟨w, hw, hmeans (h.keyed.get? hv) (h.keyedMore.get? hw) hsame ha⟩

theorem Agree.mayGive (h : fields.Agree more) (hmeans : means.Blind)
    (hgives : fields.MayGive name default means a) : more.MayGive name default means a := by
  rcases hgives with hgives | ⟨hnone, rfl⟩
  · exact .inl (h.gives hmeans hgives)
  · exact .inr ⟨eq_none_of_rel (h.agreeOn name) hnone, rfl⟩

/-- What the table gives under a name, where null counts as nothing. -/
def given (fields : Fields) (name : String) : Option Value :=
  (fields.get? name).filter (!·.isNull)

end Fields

/-- A table says something by what its fields are. -/
theorem Meaning.blind_table {α : Type} {describe : Fields → α → Prop}
    (h : ∀ ⦃fields more : Fields⦄, fields.Agree more → ∀ ⦃a⦄, describe fields a → describe more a) :
    (table describe).Blind := by
  intro v w hv hw hsame a ha
  obtain ⟨fields, rfl, hdescribe⟩ := ha
  obtain ⟨more, _, rfl, -⟩ := hsame.symm.exists_table
  exact ⟨more, rfl, h ⟨hv.fields, hw.fields, hsame.agreeOn hv.fields hw.fields⟩ hdescribe⟩

end LintBridge.Data

namespace LintBridge

open LintBridge.Data LintBridge.Data.Meaning

/-! ### Records -/

theorem blind_position : (table Position.DescribedBy).Blind :=
  blind_table fun _ _ hagree _ h => {
    line := hagree.gives blind_number h.line
    character := hagree.gives blind_number h.character }

theorem blind_range : (table Range.DescribedBy).Blind :=
  blind_table fun _ _ hagree _ h => {
    start := hagree.gives blind_position h.start
    stop := hagree.gives blind_position h.stop }

theorem blind_replacement : (table Replacement.DescribedBy).Blind :=
  blind_table fun _ _ hagree _ h => {
    start := hagree.gives blind_number h.start
    stop := hagree.gives blind_number h.stop
    text := hagree.gives blind_text h.text }

theorem blind_fix : (table Fix.DescribedBy).Blind :=
  blind_table fun _ _ hagree _ h => {
    description := hagree.gives blind_text h.description
    replacements := hagree.mayGive blind_replacement.list h.replacements }

theorem blind_location : (table Location.DescribedBy).Blind :=
  blind_table fun _ _ hagree _ h => {
    uri := hagree.gives blind_text h.uri
    range := hagree.gives blind_range h.range }

theorem blind_related : (table Related.DescribedBy).Blind :=
  blind_table fun _ _ hagree _ h => {
    location := hagree.gives blind_location h.location
    message := hagree.gives blind_text h.message }

theorem blind_textEdit (name : String) : (table (TextEdit.DescribedBy name)).Blind :=
  blind_table fun _ _ hagree _ h => {
    range := hagree.gives blind_range h.range
    text := hagree.gives blind_text h.text }

theorem blind_codeAction : (table CodeAction.DescribedBy).Blind :=
  blind_table fun _ _ hagree _ h => {
    title := hagree.gives blind_text h.title
    edits := hagree.mayGive (blind_textEdit _).list h.edits }

theorem blind_summary : (table Summary.DescribedBy).Blind :=
  blind_table fun _ _ hagree _ h => {
    errors := hagree.mayGive blind_number h.errors
    warnings := hagree.mayGive blind_number h.warnings
    info := hagree.mayGive blind_number h.info
    filesChecked := hagree.mayGive blind_number h.filesChecked }

theorem Span.GivenBy.of_agree {fields more : Fields} {s : Span} (h : s.GivenBy fields)
    (hagree : fields.Agree more) : s.GivenBy more where
  lineStart := hagree.gives blind_number h.lineStart
  lineEnd := hagree.gives blind_number h.lineEnd
  columnStart := hagree.gives blind_number h.columnStart
  columnEnd := hagree.gives blind_number h.columnEnd
  offsetStart := hagree.mayGive blind_number h.offsetStart
  offsetEnd := hagree.mayGive blind_number h.offsetEnd

theorem blind_violation : (table Violation.DescribedBy).Blind :=
  blind_table fun _ _ hagree _ h => {
    rule := hagree.gives blind_text h.rule
    severity := hagree.mayGive blind_text h.severity
    message := hagree.gives blind_text h.message
    file := hagree.gives blind_text h.file
    span := by
      obtain ⟨s, hgiven, hbounds, hmarks⟩ := h.span
      exact ⟨s, hgiven.of_agree hagree, hbounds, hmarks⟩
    suggestion := hagree.mayGive blind_text.nullable h.suggestion
    fix := hagree.mayGive blind_fix.nullable h.fix }

theorem blind_finding : (table Finding.DescribedBy).Blind :=
  blind_table fun _ _ hagree _ h => {
    range := hagree.gives blind_range h.range
    severity := hagree.mayGive blind_number h.severity
    code := hagree.gives blind_text h.code
    source := hagree.mayGive blind_text h.source
    message := hagree.gives blind_text h.message
    related := hagree.mayGive blind_related.list.nullable h.related
    action := hagree.mayGive blind_codeAction.nullable h.action }

/-! ### Reports -/

namespace Format

/-- The names at the top of a report that its schema has, apart from the one for the format. -/
def ownFields : Format → List String
  | legacy => ["violations", "summary"]
  | ranged => ["diagnostics", "summary"]

theorem ne_format_of_mem {format : Format} {name : String} (h : name ∈ format.ownFields) :
    name ≠ "format" := by
  rintro rfl
  cases format with
  | legacy => exact absurd h (by decide)
  | ranged => exact absurd h (by decide)

end Format

namespace Report

variable {format : Format} {r : Report} {fields more : Fields} {name : String} {v : Value}
  {room : Nat} {output other : List Char}

/-- The tables give the same under every name of the schema, whatever else they say. -/
def GivenAlike (format : Format) (fields more : Fields) : Prop :=
  ∀ name ∈ format.ownFields, Option.Rel Value.Same (fields.given name) (more.given name)

theorem GivenAlike.symm (h : GivenAlike format fields more) : GivenAlike format more fields :=
  fun name hname => rel_symm (h name hname)

theorem given_eq_some_iff : fields.given name = some v ↔ fields.get? name = some v ∧ v ≠ .null := by
  unfold Fields.given
  rw [Option.filter_eq_some_iff]
  cases v <;> simp [Value.isNull]

theorem mayGiveUnlessNull_iff {α : Type} {means : Meaning α} {default a : α} :
    fields.MayGiveUnlessNull name default means a ↔
      (∃ v, fields.given name = some v ∧ means v a) ∨ (fields.given name = none ∧ a = default) := by
  unfold Fields.MayGiveUnlessNull
  simp only [Option.eq_none_iff_forall_ne_some, ne_eq, given_eq_some_iff, not_and, not_not,
    and_assoc]

/-- A field that both tables give alike says the same in both. -/
theorem mayGive_of_rel {α : Type} {means : Meaning α} {r : α → α → Prop} {default a : α}
    (hfields : fields.Keyed) (hmore : more.Keyed)
    (h : Option.Rel Value.Same (fields.given name) (more.given name))
    (hmeans : means.BlindUpTo r) (hdefault : r default default)
    (ha : fields.MayGiveUnlessNull name default means a) :
    ∃ b, more.MayGiveUnlessNull name default means b ∧ r a b := by
  simp only [mayGiveUnlessNull_iff] at ha ⊢
  rcases ha with ⟨v, hv, ha⟩ | ⟨hnone, rfl⟩
  · obtain ⟨w, hw, hsame⟩ := exists_of_rel h hv
    have hkv := hfields.get? (given_eq_some_iff.1 hv).1
    have hkw := hmore.get? (given_eq_some_iff.1 hw).1
    obtain ⟨b, hb, hab⟩ := hmeans hkv hkw hsame ha
    exact ⟨b, .inl ⟨w, hw, hb⟩, hab⟩
  · exact ⟨a, .inr ⟨eq_none_of_rel h hnone, rfl⟩, hdefault⟩

/-- Tables that give the same describe the same report, up to the order of the files. -/
theorem DescribedBy.of_givenAlike (hdescribed : r.DescribedBy fields) (hfields : fields.Keyed)
    (hmore : more.Keyed) (h : GivenAlike r.format fields more) :
    ∃ r' : Report, r'.format = r.format ∧ r'.DescribedBy more ∧ r.Agrees r' := by
  cases r with
  | legacy violations summary =>
    obtain ⟨hviolations, hsummary⟩ := hdescribed
    have hrel : ∀ name ∈ ["violations", "summary"],
      Option.Rel Value.Same (fields.given name) (more.given name) := h
    obtain ⟨_, hviolations', rfl⟩ := mayGive_of_rel hfields hmore
      (hrel "violations" (by decide)) blind_violation.list.upToEq rfl hviolations
    obtain ⟨_, hsummary', rfl⟩ := mayGive_of_rel hfields hmore
      (hrel "summary" (by decide)) blind_summary.upToEq rfl hsummary
    exact ⟨.legacy violations summary, rfl, ⟨hviolations', hsummary'⟩, rfl, rfl⟩
  | ranged files summary =>
    obtain ⟨hnodup, hfiles, hsummary⟩ := hdescribed
    have hrel : ∀ name ∈ ["diagnostics", "summary"],
      Option.Rel Value.Same (fields.given name) (more.given name) := h
    obtain ⟨files', hfiles', hperm⟩ := mayGive_of_rel hfields hmore
      (hrel "diagnostics" (by decide)) blind_finding.list.mapping .nil hfiles
    obtain ⟨_, hsummary', rfl⟩ := mayGive_of_rel hfields hmore
      (hrel "summary" (by decide)) blind_summary.upToEq rfl hsummary
    have hnodup' : (files'.map (·.1)).Nodup := (hperm.map _).nodup_iff.1 hnodup
    exact ⟨.ranged files' summary, rfl, ⟨hnodup', hfiles', hsummary'⟩, hperm, rfl⟩

theorem ok_of_givenAlike (hfields : fields.Keyed) (hmore : more.Keyed)
    (h : GivenAlike format fields more) (hr : ofFields format fields = .ok r) :
    ∃ r', ofFields format more = .ok r' ∧ r.Agrees r' := by
  obtain ⟨rfl, hdescribed⟩ := (ofFields_eq_ok hfields).1 hr
  obtain ⟨r', hformat, hdescribed', hagrees⟩ := hdescribed.of_givenAlike hfields hmore h
  exact ⟨r', (ofFields_eq_ok hmore).2 ⟨hformat, hdescribed'⟩, hagrees⟩

/-- What is made of the fields is made of what they give. -/
theorem ofFields_congr (hfields : fields.Keyed) (hmore : more.Keyed)
    (h : ∀ name ∈ format.ownFields, fields.given name = more.given name) :
    ofFields format fields = ofFields format more := by
  have hoptional {α : Type} (name : String) (hname : name ∈ format.ownFields) (default : α)
      (check : Check α) : Fields.optional (fields.filter isPresent) name default check =
        Fields.optional (more.filter isPresent) name default check := by
    have hne := Format.ne_format_of_mem hname
    have hget : Fields.get? (fields.filter isPresent) name =
        Fields.get? (more.filter isPresent) name := by
      rw [get?_filter_isPresent hfields hne, get?_filter_isPresent hmore hne]
      exact h name hname
    unfold Fields.optional
    rw [hget]
  have hcheck : check format (.table (fields.filter isPresent)) =
      check format (.table (more.filter isPresent)) := by
    unfold check Check.table
    cases format with
    | legacy =>
      simp only [optional_format, hoptional "violations" (by decide),
        hoptional "summary" (by decide)]
    | ranged =>
      simp only [optional_format, hoptional "diagnostics" (by decide),
        hoptional "summary" (by decide)]
  unfold ofFields Check.run
  rw [hcheck]

/-- Outputs that give the same under the names of the schema yield the same report, up to the order
in which the files come, or both are rejected: nothing else in them has a say. If they give the very
same values, the outcome is the very same, with all that is said about a rejected output. -/
theorem parse_of_givenAlike (format : Format)
    (houtput : Json.parse room output = .ok (.table fields))
    (hother : Json.parse room other = .ok (.table more)) (h : GivenAlike format fields more) :
    ((∃ r r', parse room format output = .ok r ∧ parse room format other = .ok r' ∧ r.Agrees r') ∨
      ∃ reason reason', parse room format output = .error (.lint (.rejected format reason)) ∧
        parse room format other = .error (.lint (.rejected format reason'))) ∧
    ((∀ name ∈ format.ownFields, fields.given name = more.given name) →
      parse room format output = parse room format other) := by
  have hfields := (Json.keyed_of_parse houtput).fields
  have hmore := (Json.keyed_of_parse hother).fields
  rw [parse_table houtput, parse_table hother]
  refine ⟨?_, fun hgiven => by rw [ofFields_congr hfields hmore hgiven]⟩
  rcases ofFields_ok_or_misfit format fields with ⟨r, hr⟩ | ⟨m, hm⟩
  · obtain ⟨r', hr', hagrees⟩ := ok_of_givenAlike hfields hmore h hr
    rw [hr, hr']
    exact .inl ⟨r, r', rfl, rfl, hagrees⟩
  · rcases ofFields_ok_or_misfit format more with ⟨r', hr'⟩ | ⟨m', hm'⟩
    · -- a report that the other output describes is described by this one as well
      obtain ⟨r, hr, -⟩ := ok_of_givenAlike hmore hfields h.symm hr'
      exact absurd (hm.symm.trans hr) (by simp)
    · rw [hm, hm']
      exact .inr ⟨_, _, rfl, rfl⟩

end Report

namespace Sample

/-- A report on two files without findings. -/
def cleanText : List Char :=
  ("\x7b\"summary\":\x7b\"errors\":0,\"warnings\":0,\"info\":0,\"files_checked\":2\x7d," ++
    "\"diagnostics\":\x7b\"b.nu\":[],\"a.nu\":[]\x7d,\"format\":\"vscode-json\"\x7d").toList

def cleanFiles : Value := .table [("b.nu", .array []), ("a.nu", .array [])]

def cleanFields : Fields :=
  [("format", .string "vscode-json"), ("diagnostics", cleanFiles),
    ("summary", ({ filesChecked := 2 } : Summary).encode)]

theorem parse_cleanText : Json.parse 900 cleanText = .ok (.table cleanFields.reverse) := by
  unfold cleanFields cleanFiles
  cbv

theorem same_cleanFiles : cleanFiles.Same (.table [("a.nu", .array []), ("b.nu", .array [])]) :=
  .table (.swap ..) rfl (List.forall₂_same.2 fun w _ => .refl w)

/-- The report on two files, with its tables in another order, a null, a field that no schema has
and the name of the other format. -/
def noisyText : List Char :=
  ("\x7b\"format\":\"json\", \"violations\":null, \"tool\":[1], \"diagnostics\":\x7b\"a.nu\":[]," ++
    "\"b.nu\":[]\x7d, \"summary\":\x7b\"files_checked\":2, \"errors\":0, \"warnings\":0," ++
    " \"info\":0\x7d\x7d").toList

def noisyCounts : Fields := [("errors", .int 0), ("warnings", .int 0), ("info", .int 0)]

def noisyFields : Fields :=
  [("format", .string "json"), ("violations", .null), ("tool", .array [.int 1]),
    ("diagnostics", .table [("a.nu", .array []), ("b.nu", .array [])]),
    ("summary", .table (("files_checked", .int 2) :: noisyCounts))]

theorem parse_noisyText : Json.parse 900 noisyText = .ok (.table noisyFields) := by
  unfold noisyFields noisyCounts
  cbv

theorem givenAlike_noisy : Report.GivenAlike .ranged cleanFields.reverse noisyFields := by
  intro name hname
  rcases List.mem_pair.1 hname with rfl | rfl
  · exact .some same_cleanFiles
  · have hperm := List.perm_append_singleton (("files_checked" : Str), Value.int 2) noisyCounts
    exact .some (.table hperm rfl (List.forall₂_same.2 fun w _ => .refl w))

/-- What the second text has more than the first one is not read. -/
theorem parse_of_givenAlike_noisy :
    ((∃ r r', Report.parse 900 .ranged cleanText = .ok r ∧
        Report.parse 900 .ranged noisyText = .ok r' ∧ r.Agrees r') ∨
      ∃ reason reason',
        Report.parse 900 .ranged cleanText = .error (.lint (.rejected .ranged reason)) ∧
        Report.parse 900 .ranged noisyText = .error (.lint (.rejected .ranged reason'))) ∧
    ((∀ name ∈ Format.ranged.ownFields,
        Fields.given cleanFields.reverse name = noisyFields.given name) →
      Report.parse 900 .ranged cleanText = Report.parse 900 .ranged noisyText) :=
  Report.parse_of_givenAlike .ranged parse_cleanText parse_noisyText givenAlike_noisy

end Sample

end LintBridge
