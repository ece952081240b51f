import LintBridge.Proofs.Plays

/-!
# LintBridge.Proofs.Documents

Who changes the open documents of a session: the editor does, and no request. A step of a request
may be made of many, so what it keeps is said for each kind of step.

Main result: `Schedule.document?_play`, a document stays as it is as long as the editor leaves it.
-/

namespace LintBridge

namespace Session

variable {s : Session} {name other : String}

theorem document?_setDocument_self (s : Session) (name : String) (document : Buffer) :
    (s.setDocument name document).document? name = some document := by
  simp [setDocument, document?]

theorem document?_setDocument_of_ne (h : other ≠ name) (document : Buffer) :
    (s.setDocument other document).document? name = s.document? name := by
  have hother : (name == other) = false := by simpa using h.symm
  simp only [setDocument, document?, List.lookup_cons, hother]
  induction s.documents with
  | nil => rfl
  | cons entry rest ih =>
    by_cases hentry : entry.1 = other
    · rw [List.filter_cons_of_neg (by simpa using hentry), ih, List.lookup_cons, hentry, hother]
    · rw [List.filter_cons_of_pos (by simpa using hentry), List.lookup_cons, List.lookup_cons, ih]

end Session

/-! ### Steps of requests -/

theorem Inquiry.Asks.documents {s : Session} {step : Step (Progress Inquiry (Option Version))}
    (h : Inquiry.Asks s step) : step.session.documents = s.documents := by
  obtain ⟨⟨negotiation, hs⟩, -⟩ := h
  rw [hs]

namespace Lint

theorem documents_fail (s : Session) (file : Path) (notify : Bool) (failure : Failure) :
    (fail s file notify failure).session.documents = s.documents := by
  cases failure <;> rfl

theorem documents_call (s : Session) (file : Path) (notify : Bool) (format : Format) :
    (call s file notify format).session.documents = s.documents := by
  unfold call
  split
  · exact documents_fail s file notify _
  · rfl

theorem documents_informed (file : Path) (notify : Bool)
    (step : Step (Progress Inquiry (Option Version))) :
    (informed file notify step).session.documents = step.session.documents := by
  unfold informed
  split
  · rfl
  · exact documents_call step.session file notify _
  · exact documents_fail step.session file notify _

theorem documents_start (s : Session) (p : Path) (notify : Bool) :
    (start s p notify).session.documents = s.documents := by
  unfold start
  split
  · rfl
  next file _ =>
    split
    · rfl
    split
    · rfl
    unfold letIn
    split
    · exact documents_call (s.enter file) file notify _
    · rw [documents_informed]
      exact (Inquiry.asks_start (s.enter file)).documents

theorem documents_conclude (s : Session) (file : Path) (notify : Bool) (format : Format)
    (reply : Reply) : (conclude s file notify format reply).session.documents = s.documents := by
  unfold conclude
  split
  · exact documents_fail s file notify _
  split
  next found _ =>
    simp only [finish]
    split
    · rfl
    · obtain ⟨⟨store, hs⟩, -⟩ := publish_spec (s.leave file) found
      dsimp only
      rw [hs]
      rfl
  · exact documents_fail s file notify _

theorem documents_next (s : Session) (reply : Call → Reply) (lint : Lint) :
    (lint.next s reply).session.documents = s.documents := by
  unfold next
  split
  next inquiry _ =>
    rw [documents_informed]
    exact (Inquiry.asks_next s reply inquiry).documents
  · exact documents_conclude s lint.file lint.notify _ _

end Lint

namespace FileFix

theorem documents_start (s : Session) (p : Path) :
    (start s p).session.documents = s.documents := by
  unfold start
  split
  · rfl
  split
  · rfl
  split <;> rfl

theorem documents_next (s : Session) (reply : Call → Reply) (fix : FileFix) :
    (fix.next s reply).session.documents = s.documents := by
  unfold next
  dsimp only
  split <;> rfl

end FileFix

namespace Sweep

theorem documents_through (s : Session) (report : SweepReport) (files : List Path) :
    (through s report files).session.documents = s.documents := by
  induction files generalizing s report with
  | nil => rfl
  | cons file rest ih =>
    have hfirst := Lint.documents_start s file false
    unfold through
    dsimp only
    split
    · exact hfirst
    · exact hfirst
    · rw [Step.session_after, ih, hfirst]

theorem documents_start (s : Session) : (start s).session.documents = s.documents := by
  unfold start
  split
  · rfl
  split
  · rfl
  split
  · rfl
  · rfl
  · exact documents_through s {} _

theorem documents_next (s : Session) (reply : Call → Reply) (sweep : Sweep) :
    (sweep.next s reply).session.documents = s.documents := by
  have hlint := Lint.documents_next s reply sweep.lint
  unfold next
  dsimp only
  split
  · exact hlint
  · exact hlint
  · rw [Step.session_after, documents_through, hlint]

end Sweep

namespace Session

theorem documents_lintDocument (s : Session) (document : Buffer) :
    (s.lintDocument document).session.documents = s.documents := by
  unfold lintDocument
  split
  · exact Lint.documents_start s document.path true
  · rfl

theorem documents_lintSaved (s : Session) (document : Buffer) :
    (s.lintSaved document).session.documents = s.documents := by
  unfold lintSaved
  split
  · exact documents_lintDocument s document
  · rfl

theorem documents_savedAfter (document : Buffer) (step : Step (Progress FileFix Bool)) :
    (savedAfter document step).session.documents = step.session.documents := by
  unfold savedAfter
  split
  · rfl
  · exact documents_lintSaved step.session document
  · rfl

/-- Beginning a request leaves the open documents as they are. -/
theorem documents_request (s : Session) (request : Request) :
    (s.request request).session.documents = s.documents := by
  cases request with
  | lint file notify => exact Lint.documents_start s file notify
  | lintDocument document => exact documents_lintDocument s document
  | opened document =>
    simp only [Session.request, opening]
    split
    · exact documents_lintDocument s document
    · rfl
  | saved document =>
    simp only [Session.request, saving]
    split
    · rfl
    split
    · rw [documents_savedAfter]
      exact FileFix.documents_start s document.path
    · exact documents_lintSaved s document
  | changed document =>
    simp only [Session.request, changing]
    split <;> rfl
  | sweep => exact Sweep.documents_start s
  | fixFile file => exact FileFix.documents_start s file
  | fixText text => rfl
  | fixDocument name =>
    simp only [Session.request, fixDocument]
    split <;> rfl
  | version => exact (Inquiry.asks_start s).documents
  | format =>
    simp only [Session.request, findFormat]
    split
    · rfl
    · exact (Inquiry.asks_start s).documents

end Session

/-- Going on with a run leaves the open documents as they are. -/
theorem Run.documents_next (s : Session) (reply : Call → Reply) (run : Run) :
    (run.next s reply).session.documents = s.documents := by
  cases run with
  | inquiry i wanted => exact (Inquiry.asks_next s reply i).documents
  | lint l => exact Lint.documents_next s reply l
  | sweep w => exact Sweep.documents_next s reply w
  | fix f => exact FileFix.documents_next s reply f
  | savedFix f document =>
    simp only [next]
    rw [Session.documents_savedAfter]
    exact FileFix.documents_next s reply f
  | pause document => exact Session.documents_lintDocument s document
  | fixText call => rfl
  | fixDocument name original call => rfl

namespace Schedule

/-! ### Moves -/

/-- A move changes an open document only if it is the editor's. -/
theorem document?_move (s : Schedule) {name : String} {m : Move}
    (h : ∀ document, m ≠ .document name document) :
    (s.move m).1.session.document? name = s.session.document? name := by
  have hkept : ∀ {t : Session}, t.documents = s.session.documents →
      t.document? name = s.session.document? name := fun ht => by
    rw [Session.document?, Session.document?, ht]
  revert h
  refine move_cases (motive := fun m r => (∀ document, m ≠ .document name document) →
    r.1.session.document? name = s.session.document? name) ?start ?next ?stay ?dispose ?document m
  case start =>
    intro request _
    rw [session_record]
    exact hkept (s.session.documents_request request)
  case next =>
    intro number reply run _ _ _
    rw [session_record]
    exact hkept (Run.documents_next s.session reply run)
  case stay => exact fun _ _ _ _ => rfl
  case dispose => exact fun _ => rfl
  case document =>
    intro other document h
    refine Session.document?_setDocument_of_ne (fun heq => ?_) document
    exact h document (by rw [heq])

/-- An open document stays as it is as long as the editor leaves it. -/
theorem document?_play (s : Schedule) {name : String} {moves : List Move}
    (h : ∀ document, .document name document ∉ moves) :
    (s.play moves).1.session.document? name = s.session.document? name := by
  induction moves generalizing s with
  | nil => rfl
  | cons m rest ih =>
    have hfirst : ∀ document, m ≠ .document name document := fun document heq =>
      h document (heq ▸ List.mem_cons_self)
    have hrest := ih (s.move m).1 fun document hmem => h document (List.mem_cons_of_mem m hmem)
    exact hrest.trans (s.document?_move hfirst)

end Schedule

end LintBridge
