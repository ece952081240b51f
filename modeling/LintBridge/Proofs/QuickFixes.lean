import LintBridge.Proofs.Matching
import LintBridge.Proofs.NormalForm
import LintBridge.Proofs.Replacing
import LintBridge.Session.QuickFixes

/-!
# LintBridge.Proofs.QuickFixes

Which quick fixes a session offers, and for which diagnostics. `Record.Mends` says what the fix for
a diagnostic is: the edits of the first record that is behind it where the user is looking, if that
record has any edits. A later record with edits does not stand in for a first one without.

There are two ways to ask. `provideFixes` takes many diagnostics and passes over those that are not
the linter's own; `Offers` says what it answers. `lookupFix` takes one, and does not look at its
source. Both answer with the edits of `Record.Mends`.

Main result: `Session.provideFixes_offers`.
-/

namespace LintBridge

open LintBridge.Data

/-! ### The fix for a diagnostic -/

namespace Record

variable {d : Diagnostic} {selection : Range} {records : List Record} {r r' : Record}
  {content : Content} {edits edits' : List TextEdit}

/-- The record has the code and the range of the diagnostic, and shares a position with the
selection. -/
def Matches (d : Diagnostic) (selection : Range) (r : Record) : Prop :=
  r.code = d.code ∧ r.range = d.range ∧ ∃ p, r.range.Holds p ∧ selection.Holds p

/-- The record is the first that matches. -/
def FirstMatch (d : Diagnostic) (selection : Range) (records : List Record) (r : Record) : Prop :=
  r.Matches d selection ∧
    ∃ before after, records = before ++ r :: after ∧ ∀ a ∈ before, ¬ a.Matches d selection

/-- The fix for the diagnostic: at least one edit, from the first record that matches. -/
structure Mends (records : List Record) (content : Content) (selection : Range) (d : Diagnostic)
    (r : Record) (edits : List TextEdit) : Prop where
  first : FirstMatch d selection records r
  carried : r.edits content = .ok edits
  ne_nil : edits ≠ []

theorem isBehind_iff_matches :
    isBehind d.code d.range selection r = true ↔ r.Matches d selection := by
  rw [isBehind_iff]
  refine and_congr_right fun _ => and_congr_right fun hrange => ?_
  rw [hrange]

theorem behind?_eq_some_iff :
    behind? d.code d.range selection records = some r ↔ FirstMatch d selection records r := by
  unfold behind? FirstMatch
  rw [List.find?_eq_some_iff_append, isBehind_iff_matches]
  refine and_congr_right fun _ => exists_congr fun before => exists_congr fun after => ?_
  refine and_congr_right fun _ => forall_congr' fun a => forall_congr' fun _ => ?_
  rw [Bool.not_eq_true', ← Bool.not_eq_true, isBehind_iff_matches]

/-- In any text a record has edits, and they are none just if it carries no fix. -/
theorem exists_edits (text : Str) (r : Record) :
    ∃ edits, r.edits (.ofText text) = .ok edits ∧ (r.hasFix = true ↔ edits ≠ []) := by
  cases r with
  | violation v =>
    refine ⟨_, Violation.edits_eq text v, ?_⟩
    cases hfix : v.fix with
    | none => simp [hasFix, Violation.hasFix, Violation.replacements, hfix]
    | some fix => simp [hasFix, Violation.hasFix, Violation.replacements, hfix]
  | finding f =>
    cases haction : f.action with
    | none =>
      exact ⟨[], by simp [Record.edits, haction], by simp [hasFix, Finding.hasFix, haction]⟩
    | some action =>
      refine ⟨action.edits, by simp [Record.edits, haction], ?_⟩
      simp [hasFix, Finding.hasFix, haction]

end Record

/-! ### The two answers -/

namespace Session

open Record

variable {records : List Record} {document : Buffer} {text : Str} {d : Diagnostic}
  {selection : Range} {r : Record} {edits : List TextEdit} {fix : QuickFix} {fixes : List QuickFix}
  {diagnostics rest : List Diagnostic}

/-- Looking for the edits of a diagnostic has an outcome, which is the fix for it. -/
theorem fixEdits?_spec (hcontent : document.content = .ofText text) (records : List Record)
    (d : Diagnostic) (selection : Range) :
    ∃ found, fixEdits? records document d selection = .ok found ∧
      ∀ r edits, found = some (r, edits) ↔ Mends records document.content selection d r edits := by
  unfold fixEdits? fixFor?
  cases hbehind : behind? d.code d.range selection records with
  | none =>
    refine ⟨none, rfl, fun r edits => iff_of_false (by simp) fun h => ?_⟩
    have hr := behind?_eq_some_iff.2 h.first
    simp [hbehind] at hr
  | some first =>
    have hfirst := behind?_eq_some_iff.1 hbehind
    obtain ⟨own, hown, hfix⟩ := first.exists_edits text
    rw [← hcontent] at hown
    have hmends (r : Record) (edits : List TextEdit) :
        Mends records document.content selection d r edits ↔
          (r = first ∧ edits = own) ∧ own ≠ [] := by
      constructor
      · intro h
        have hr := behind?_eq_some_iff.2 h.first
        obtain rfl : first = r := Option.some.inj (hbehind.symm.trans hr)
        obtain rfl : own = edits := Except.ok.inj (hown.symm.trans h.carried)
        exact ⟨⟨rfl, rfl⟩, h.ne_nil⟩
      · rintro ⟨⟨rfl, rfl⟩, hne⟩
        exact ⟨hfirst, hown, hne⟩
    rw [Option.filter_some]
    by_cases hhas : first.hasFix = true
    · rw [if_pos hhas]
      dsimp only
      rw [hown]
      refine ⟨some (first, own), rfl, fun r edits => ?_⟩
      rw [hmends, Option.some.injEq, Prod.mk.injEq, and_iff_left (hfix.1 hhas), eq_comm,
        eq_comm (a := own)]
    · rw [if_neg hhas]
      refine ⟨none, rfl, fun r edits => iff_of_false (by simp) fun h => ?_⟩
      exact hhas (hfix.2 ((hmends r edits).1 h).2)

/-- The quick fix is the one for a diagnostic of the linter's. -/
structure Offered (records : List Record) (document : Buffer) (selection : Range) (d : Diagnostic)
    (fix : QuickFix) : Prop where
  source : d.source = linterSource
  diagnostic : fix.diagnostic = d
  uri : fix.uri = document.uri
  mends : ∃ r, Mends records document.content selection d r fix.edits ∧ fix.title = r.fixTitle

/-- One quick fix for each diagnostic of the linter's that has a fix, in the order of the
diagnostics, and none for the others. -/
inductive Offers (records : List Record) (document : Buffer) (selection : Range) :
    List Diagnostic → List QuickFix → Prop where
  | done : Offers records document selection [] []
  | offered {d : Diagnostic} {fix : QuickFix} {rest : List Diagnostic} {fixes : List QuickFix}
      (hfix : Offered records document selection d fix)
      (next : Offers records document selection rest fixes) :
      Offers records document selection (d :: rest) (fix :: fixes)
  | passed {d : Diagnostic} {rest : List Diagnostic} {fixes : List QuickFix}
      (hnone : d.source = linterSource →
        ¬ ∃ r edits, Mends records document.content selection d r edits)
      (next : Offers records document selection rest fixes) :
      Offers records document selection (d :: rest) fixes

theorem quickFix?_spec (hcontent : document.content = .ofText text) (records : List Record)
    (selection : Range) (d : Diagnostic) :
    ∃ found, quickFix? records document selection d = .ok found ∧
      (∀ fix, found = some fix → Offered records document selection d fix) ∧
      (found = none → d.source = linterSource →
        ¬ ∃ r edits, Mends records document.content selection d r edits) := by
  unfold quickFix?
  by_cases hsource : d.source = linterSource
  · rw [if_pos hsource]
    obtain ⟨found, hfound, hspec⟩ := fixEdits?_spec hcontent records d selection
    rw [hfound]
    refine ⟨_, rfl, fun fix hfix => ?_, fun hnone _ => ?_⟩
    · obtain ⟨⟨r, edits⟩, hr, rfl⟩ := Option.map_eq_some_iff.1 hfix
      exact ⟨hsource, rfl, rfl, r, (hspec r edits).1 hr, rfl⟩
    · rintro ⟨r, edits, hmends⟩
      simp [(hspec r edits).2 hmends] at hnone
  · rw [if_neg hsource]
    exact ⟨none, rfl, by simp, fun _ h => absurd h hsource⟩

/-- Diagnostic by diagnostic, the session offers what it should. -/
theorem exists_offers (hcontent : document.content = .ofText text) (records : List Record)
    (selection : Range) (diagnostics : List Diagnostic) :
    ∃ found, diagnostics.mapM (quickFix? records document selection) = .ok found ∧
      Offers records document selection diagnostics (found.filterMap id) := by
  induction diagnostics with
  | nil => exact ⟨[], rfl, .done⟩
  | cons d rest ih =>
    obtain ⟨first, hfirst, hoffered, hnone⟩ := quickFix?_spec hcontent records selection d
    obtain ⟨others, hothers, hnext⟩ := ih
    refine ⟨first :: others, by rw [List.mapM_cons, hfirst, ok_bind, hothers]; rfl, ?_⟩
    cases first with
    | none => exact .passed (hnone rfl) hnext
    | some fix => exact .offered (hoffered fix rfl) hnext

/-- A quick fix that is offered is offered for its own diagnostic. -/
theorem Offers.of_mem (h : Offers records document selection diagnostics fixes)
    (hfix : fix ∈ fixes) : Offered records document selection fix.diagnostic fix := by
  induction h with
  | done => exact absurd hfix List.not_mem_nil
  | @offered d first rest fixes hfirst _ ih =>
    rcases List.mem_cons.1 hfix with rfl | hfix
    · exact hfirst.diagnostic.symm ▸ hfirst
    · exact ih hfix
  | passed _ _ ih => exact ih hfix

/-- A diagnostic of the linter's that has a fix is offered one. -/
theorem Offers.exists_mem (h : Offers records document selection diagnostics fixes)
    (hd : d ∈ diagnostics) (hsource : d.source = linterSource)
    (hmends : Mends records document.content selection d r edits) :
    ∃ fix ∈ fixes, fix.diagnostic = d := by
  induction h with
  | done => exact absurd hd List.not_mem_nil
  | @offered first fix rest fixes hfirst _ ih =>
    rcases List.mem_cons.1 hd with rfl | hd
    · exact ⟨fix, List.mem_cons_self, hfirst.diagnostic⟩
    · obtain ⟨other, hother, hdiagnostic⟩ := ih hd
      exact ⟨other, List.mem_cons_of_mem _ hother, hdiagnostic⟩
  | passed hnone _ ih =>
    rcases List.mem_cons.1 hd with rfl | hd
    · exact absurd ⟨r, edits, hmends⟩ (hnone hsource)
    · exact ih hd

/-- The answer of `lookupFix` for a diagnostic: the edits of the fix for it, whatever its source. If
a quick fix is offered for the diagnostic, they are its edits. Where none is offered for one of the
linter's own diagnostics, there is no answer. -/
structure Answers (records : List Record) (document : Buffer) (selection : Range)
    (fixes : List QuickFix) (d : Diagnostic) (answer : Option (List TextEdit)) : Prop where
  fixed : ∀ edits, answer = some edits ↔
    ∃ r, Mends records document.content selection d r edits
  same : ∀ fix ∈ fixes, fix.diagnostic = d → answer = some fix.edits
  nothing : d.source = linterSource → (answer = none ↔ ∀ fix ∈ fixes, fix.diagnostic ≠ d)

theorem Offers.answers (h : Offers records document selection diagnostics fixes)
    (hd : d ∈ diagnostics) {found : Option (Record × List TextEdit)}
    (hspec : ∀ r edits, found = some (r, edits) ↔
      Mends records document.content selection d r edits) :
    Answers records document selection fixes d (found.map (·.2)) := by
  have hfixed (edits : List TextEdit) : found.map (·.2) = some edits ↔
      ∃ r, Mends records document.content selection d r edits := by
    rw [Option.map_eq_some_iff]
    constructor
    · rintro ⟨⟨r, own⟩, hfound, rfl⟩
      exact ⟨r, (hspec r own).1 hfound⟩
    · rintro ⟨r, hmends⟩
      exact ⟨(r, edits), (hspec r edits).2 hmends, rfl⟩
  have hsame (fix : QuickFix) (hfix : fix ∈ fixes) (hdiagnostic : fix.diagnostic = d) :
      found.map (·.2) = some fix.edits := by
    obtain ⟨r, hmends, -⟩ := (h.of_mem hfix).mends
    rw [hdiagnostic] at hmends
    exact (hfixed fix.edits).2 ⟨r, hmends⟩
  refine ⟨hfixed, hsame, fun hsource => ⟨fun hnone fix hfix hdiagnostic => ?_, fun hno => ?_⟩⟩
  · simp [hsame fix hfix hdiagnostic] at hnone
  · by_contra hsome
    obtain ⟨edits, hedits⟩ := Option.ne_none_iff_exists'.1 hsome
    obtain ⟨r, hmends⟩ := (hfixed edits).1 hedits
    obtain ⟨fix, hfix, hdiagnostic⟩ := h.exists_mem hd hsource hmends
    exact hno fix hfix hdiagnostic

/-- For a document as editors hold it, both ways to ask for fixes have an answer. The quick fixes
are those for the linter's diagnostics that have a fix, one each and in order. For each of the
linter's diagnostics `lookupFix` answers with the edits of its quick fix, or with nothing if it is
offered none. -/
theorem provideFixes_offers {s : Session} {document : Buffer} {text : Str}
    (hdisk : s.disk.Spellable) (hpath : document.path.Rooted)
    (hcontent : document.content = .ofText text) :
    ∃ records, s.store.lookup s.disk document.path = .ok records ∧
      ∀ (diagnostics : List Diagnostic) (selection : Range),
        ∃ fixes, s.provideFixes document diagnostics selection = .ok fixes ∧
          Offers records document selection diagnostics fixes ∧
          ∀ d ∈ diagnostics, ∃ answer, s.lookupFix document d selection = .ok answer ∧
            Answers records document selection fixes d answer := by
  obtain ⟨f, hf, -⟩ := Disk.canonical_of_rooted hdisk hpath
  have hrecords : s.store.lookup s.disk document.path = .ok ((s.store.slices.get? f).getD []) := by
    rw [Store.lookup, hf]
    rfl
  refine ⟨_, hrecords, fun diagnostics selection => ?_⟩
  obtain ⟨found, hfound, hoffers⟩ := exists_offers hcontent _ selection diagnostics
  refine ⟨_, ?_, hoffers, fun d hd => ?_⟩
  · rw [provideFixes, hrecords, ok_bind, hfound]
    rfl
  obtain ⟨own, hown, hspec⟩ := fixEdits?_spec hcontent _ d selection
  refine ⟨own.map (·.2), ?_, hoffers.answers hd hspec⟩
  rw [lookupFix, hrecords, ok_bind, hown]
  rfl

end Session

namespace Sample

/-- A session that has stored three records with one code. -/
def stored : Session := { session with store := ⟨[(file, touching)]⟩ }

theorem provideFixes_offers_touching : stored.disk.Spellable ∧ draft.path.Rooted ∧
    ∃ records, stored.store.lookup stored.disk draft.path = .ok records ∧
      ∀ (diagnostics : List Diagnostic) (selection : Range),
        ∃ fixes, stored.provideFixes draft diagnostics selection = .ok fixes ∧
          Session.Offers records draft selection diagnostics fixes ∧
          ∀ d ∈ diagnostics, ∃ answer, stored.lookupFix draft d selection = .ok answer ∧
            Session.Answers records draft selection fixes d answer := by
  have hpath : draft.path.Rooted := ⟨rfl, by simp [Path.NulFree, draft]⟩
  have hdisk : stored.disk.Spellable := spellable_disk
  exact ⟨hdisk, hpath, Session.provideFixes_offers hdisk hpath rfl⟩

end Sample

end LintBridge
