import LintBridge.Proofs.Documents
import LintBridge.Proofs.Exclusion
import LintBridge.Proofs.Replacing

/-!
# LintBridge.Proofs.DocumentFix

Having the linter fix an open document. The linter is given the text of the document, and its output
becomes one edit, from the start of the document to where the text that was given ends. That place
is looked for in the document as it is when the linter replies, and as a position. So the edit does
not reach over a carriage return at the end of the text, nor over what the document has grown by in
the meantime, and what it does not reach over stays behind the output (`Content.edited_rangeFrom`).

Main results:

* `Schedule.fixDocument_unchanged`: the edit of a document that the editor leaves as it is.
* `Schedule.fixDocument_changed`: the edit of a document whose text has changed in the meantime.
-/

namespace LintBridge

/-! ### The edit -/

namespace Content

/-- An edit from the start of a text keeps what comes after its end. -/
theorem edited_rangeFrom (text : Str) (n : Nat) (fixed : Str) :
    (ofText text).edited [⟨rangeFrom text (Nat.zero_le n), fixed⟩] =
      .ok (fixed ++ text.drop ((ofText text).settled n)) := by
  have hzero : (ofText text).settled 0 = 0 := by
    rw [settled_of_not_inBreak] <;> simp [InBreak]
  have hsplice : (ofText text).splice ⟨rangeFrom text (Nat.zero_le n), fixed⟩ =
      ⟨0, (ofText text).settled n, fixed⟩ :=
    congrArg (fun start => Splice.mk start _ _) hzero
  have htext : (ofText text).text = text := rfl
  simp only [edited, List.map_cons, List.map_nil, hsplice, List.mergeSort_singleton,
    Splice.overlap?, Splice.apply, htext]
  simp

/-- The end of a text settles where it is, unless there is a carriage return before it. -/
theorem drop_settled_length (text : Str) : text.drop ((ofText text).settled text.length) =
    if text.getLast? = some (.char '\r') then [.char '\r'] else [] := by
  have hbreak : InBreak text text.length ↔ text.getLast? = some (.char '\r') := by
    rw [InBreak, List.getLast?_eq_getElem?]
    refine ⟨fun h => h.2.1, fun h => ⟨?_, h, .inl rfl⟩⟩
    have := (List.getElem?_eq_some_iff.1 h).1
    omega
  rw [settled_eq, Nat.min_self]
  by_cases h : text.getLast? = some (.char '\r')
  · obtain ⟨before, rfl⟩ := List.getLast?_eq_some_iff.1 h
    rw [if_pos (hbreak.2 h), if_pos h]
    simp
  · rw [if_neg fun hin => h (hbreak.1 hin), if_neg h, List.drop_length]

/-- Without carriage returns an offset settles where it is, or at the end of the text. -/
theorem settled_of_notMem {text : Str} (h : .char '\r' ∉ text) (offset : Nat) :
    (ofText text).settled offset = min offset text.length :=
  settled_of_not_inBreak fun ⟨_, hreturn, _⟩ => h (List.mem_of_getElem? hreturn)

end Content

namespace Session

/-- The edits for an open document that the linter has replied to. -/
theorem fixingEdits_eq {document : Buffer} {text : Str} (h : document.content = .ofText text)
    (original : Str) (fixed : String) : fixingEdits (some document) original fixed =
      .ok (if fixed = "" ∨ (fixed : Str) = original then []
        else [⟨Content.rangeFrom text (Nat.zero_le original.length), fixed⟩]) := by
  have hrange := Content.rangeBetween_eq text (Nat.zero_le original.length)
  by_cases hsame : fixed = "" ∨ fixed = original
  · simp [fixingEdits, hsame]
  · simp [fixingEdits, hsame, h, hrange]

end Session

namespace Schedule

variable {s : Schedule} {number : Nat} {name : String} {original : Str} {call : Call}

/-! ### The request -/

/-- The request that begins in `s` ends with `result` when the linter replies after the moves
`later`. -/
def Answers (s : Schedule) (request : Request) (later : List Move) (reply : Call → Reply)
    (result : Except Failure Answer) : Prop :=
  ∀ r, (s.issued, r) ∈
      ((s.play (.start request :: later)).1.move (.next s.issued reply)).1.ended ↔ r = result

/-- The linter is called with the text of the document. -/
theorem move_start_fixDocument {document : Buffer} {text : Str}
    (hdocument : s.session.document? name = some document)
    (htext : document.content = .ofText text) :
    let call := s.session.fixTextCall text
    (s.issued, .fixDocument name text call) ∈
        (s.move (.start (.fixDocument name))).1.waiting ∧
      (s.move (.start (.fixDocument name))).2 = [.call call] := by
  simp [move, Session.request, Session.fixDocument, hdocument, htext, record, Content.ofText]

/-- The run ends with the edits for the document as it is then. -/
theorem ended_move_fixDocument (h : s.Apart)
    (hrun : (number, .fixDocument name original call) ∈ s.waiting) {reply : Call → Reply}
    {completed : Completed} (hreply : reply call = .ok completed) {edits : List TextEdit}
    (hedits :
      Session.fixingEdits (s.session.document? name) original completed.stdout = .ok edits) :
    (number, .ok (.edits edits)) ∈ (s.move (.next number reply)).1.ended := by
  have hgo : s.mayGoOn number (.fixDocument name original call) = true := rfl
  simp only [move, h.lookup_of_waiting hrun, hgo, if_true]
  refine result_record ?_
  simp [Run.next, hreply, hedits, Except.map]

/-- What the request to fix an open document is answered with, if the linter has not replied during
the moves `later`. The edit keeps what the document has, by then, after the end of the old text. -/
theorem answers_fixDocument {opened : Session} (hidle : opened.inFlight = [])
    (moves later : List Move) {document changed : Buffer} {text text' : Str}
    {reply : Call → Reply} {completed : Completed} :
    let s := (({ session := opened } : Schedule).play moves).1
    s.session.document? name = some document → document.content = .ofText text →
    (∀ reply', .next s.issued reply' ∉ later) →
    (s.play (.start (.fixDocument name) :: later)).1.session.document? name = some changed →
    changed.content = .ofText text' →
    reply (s.session.fixTextCall text) = .ok completed →
    ∃ edits, s.Answers (.fixDocument name) later reply (.ok (.edits edits)) ∧
      (edits = [] ↔ completed.stdout = "" ∨ completed.stdout = text) ∧
      (edits ≠ [] → changed.content.edited edits =
        .ok ((completed.stdout : Str) ++
          text'.drop ((Content.ofText text').settled text.length))) := by
  intro s hdocument htext hwaits hchanged htext' hreply
  obtain ⟨hrun, -⟩ := move_start_fixDocument hdocument htext
  have hstill : (s.issued, .fixDocument name text (s.session.fixTextCall text)) ∈
      (s.play (.start (.fixDocument name) :: later)).1.waiting :=
    waiting_play (s := (s.move (.start (.fixDocument name))).1) hrun hwaits
  have hapart : (s.play (.start (.fixDocument name) :: later)).1.Apart := by
    have hall := (traced_play hidle (moves ++ .start (.fixDocument name) :: later)).apart
    rwa [play_append] at hall
  have hedits := Session.fixingEdits_eq htext' text completed.stdout
  rw [← hchanged] at hedits
  have hended := ended_move_fixDocument hapart hstill hreply hedits
  refine ⟨_, fun r => ⟨fun hr => (hapart.move _).result_unique hr hended, fun hr => hr ▸ hended⟩,
    ?_⟩
  by_cases hsame : completed.stdout = "" ∨ completed.stdout = text
  · rw [if_pos hsame]
    exact ⟨by simp [hsame], fun hedits => absurd rfl hedits⟩
  · rw [if_neg hsame, htext']
    exact ⟨by simp [hsame], fun _ => Content.edited_rangeFrom text' text.length completed.stdout⟩

/-! ### What the edit makes of the document -/

section

variable {disk : Disk} {settings : Settings} {root : Option Path} {pinned : Option Format}
  {listed : Option (List Path)} {session : Session} {document : Buffer} {text : Str}
  {reply : Call → Reply} {completed : Completed}

/-- An open document is fixed and the editor leaves it as it is. There is no edit just if the output
is empty or the same as the text. Otherwise the edit turns the document into the output, and if the
document ends with a carriage return, that stays behind the output. -/
theorem fixDocument_unchanged
    (h : Session.opened disk settings root pinned listed = .ok session) (moves later : List Move) :
    let s := (({ session } : Schedule).play moves).1
    let call := s.session.fixTextCall text
    s.session.document? name = some document → document.content = .ofText text →
    (∀ changed, .document name changed ∉ later) → (∀ reply', .next s.issued reply' ∉ later) →
    reply call = .ok completed →
    call.input = some text ∧ (s.move (.start (.fixDocument name))).2 = [.call call] ∧
    ∃ edits, s.Answers (.fixDocument name) later reply (.ok (.edits edits)) ∧
      (edits = [] ↔ completed.stdout = "" ∨ completed.stdout = text) ∧
      (edits ≠ [] →
        document.content.edited edits = .ok ((completed.stdout : Str) ++
          if text.getLast? = some (.char '\r') then [.char '\r'] else []) ∧
        (document.content.edited edits = .ok (completed.stdout : Str) ↔
          text.getLast? ≠ some (.char '\r'))) := by
  intro s call hdocument htext hleft hwaits hreply
  obtain ⟨workspace, -, rfl⟩ := Session.opened_eq_ok h
  have hkept : (s.play (.start (.fixDocument name) :: later)).1.session.document? name =
      some document := by
    rw [s.document?_play (by simpa using hleft), hdocument]
  obtain ⟨edits, hanswers, hnone, hmade⟩ :=
    answers_fixDocument rfl moves later hdocument htext hwaits hkept htext hreply
  refine ⟨rfl, (move_start_fixDocument hdocument htext).2, edits, hanswers, hnone, fun hedits => ?_⟩
  rw [hmade hedits, Content.drop_settled_length]
  simp

end

end Schedule

namespace Sample

open Schedule

/-- A session without a workspace. -/
def roaming : Session := { disk := { tree := .directory [], current := [], homes := [] } }

theorem opened_roaming :
    Session.opened { tree := .directory [], current := [], homes := [] } = .ok roaming :=
  rfl

theorem idle_roaming : roaming.inFlight = [] :=
  rfl

/-- A document with the given text. -/
def note (text : Str) : Buffer :=
  { path := ⟨.root, ["a.nu"]⟩, uri := "file:///a.nu", content := .ofText text }

/-- A linter that prints the same text for every call. -/
def printing (text : String) : Call → Reply :=
  fun _ => .ok { command := [], status := 0, stdout := text, stderr := "" }

/-- A document has been opened. -/
def noted (text : Str) : Schedule :=
  (({ session := roaming } : Schedule).play [.document "a" (note text)]).1

theorem document?_noted (text : Str) :
    (noted text).session.document? "a" = some (note text) :=
  Session.document?_setDocument_self roaming "a" (note text)

/-- While the linter fixes a document of mixed line breaks, another one is opened and the session is
disposed of. -/
def meanwhile : List Move :=
  [.document "b" (note []), .start (.fixText "c"), .dispose]

theorem fixDocument_unchanged_mixed :
    Session.opened { tree := .directory [], current := [], homes := [] } = .ok roaming ∧
    (noted ['x', '\r', '\n', 'y']).session.document? "a" = some (note ['x', '\r', '\n', 'y']) ∧
    (∀ changed, .document "a" changed ∉ meanwhile) ∧
    (∀ reply, .next (noted ['x', '\r', '\n', 'y']).issued reply ∉ meanwhile) ∧
    ∃ edits, (noted ['x', '\r', '\n', 'y']).Answers (.fixDocument "a") meanwhile (printing "z")
        (.ok (.edits edits)) ∧ edits ≠ [] ∧
      (note ['x', '\r', '\n', 'y']).content.edited edits = .ok ['z'] := by
  have hdocument := document?_noted ['x', '\r', '\n', 'y']
  have hleft : ∀ changed, .document "a" changed ∉ meanwhile := by simp [meanwhile]
  have hwaits : ∀ reply, .next (noted ['x', '\r', '\n', 'y']).issued reply ∉ meanwhile := by
    simp [meanwhile]
  have hreply : printing "z" ((noted ['x', '\r', '\n', 'y']).session.fixTextCall
      ['x', '\r', '\n', 'y']) = .ok ⟨[], 0, "z", ""⟩ := rfl
  obtain ⟨-, -, edits, hanswers, hnone, hmade⟩ :=
    fixDocument_unchanged opened_roaming [.document "a" (note ['x', '\r', '\n', 'y'])] meanwhile
      hdocument rfl hleft hwaits hreply
  have hedits : edits ≠ [] := fun h => absurd (hnone.1 h) (by decide)
  exact ⟨opened_roaming, hdocument, hleft, hwaits, edits, hanswers, hedits, (hmade hedits).1⟩

/-- A document that ends with a carriage return has one more after it has been fixed. -/
theorem fixDocument_keeps_return :
    (noted ['x', '\r']).session.document? "a" = some (note ['x', '\r']) ∧
    ∃ edits, (noted ['x', '\r']).Answers (.fixDocument "a") [] (printing "z\r")
        (.ok (.edits edits)) ∧ edits ≠ [] ∧
      (note ['x', '\r']).content.edited edits = .ok (("z\r" : Str) ++ [.char '\r']) := by
  have hdocument := document?_noted ['x', '\r']
  have hreply : printing "z\r" ((noted ['x', '\r']).session.fixTextCall ['x', '\r']) =
      .ok ⟨[], 0, "z\r", ""⟩ := rfl
  obtain ⟨edits, hanswers, hnone, hmade⟩ :=
    answers_fixDocument idle_roaming [.document "a" (note ['x', '\r'])] [] hdocument rfl (by simp)
      hdocument rfl hreply
  have hedits : edits ≠ [] := fun h => absurd (hnone.1 h) (by decide)
  exact ⟨hdocument, edits, hanswers, hedits, hmade hedits⟩

end Sample

namespace Schedule

section

variable {disk : Disk} {settings : Settings} {root : Option Path} {pinned : Option Format}
  {listed : Option (List Path)} {session : Session} {document changed : Buffer}
  {text text' : Str} {reply : Call → Reply} {completed : Completed} {name : String}

/-- An open document is fixed, and by the time the linter replies it has some other text, without
carriage returns. The edit, if there is one, turns the document into the output, and what the new
text has beyond the length of the old one stays behind it. So the document becomes the output just
if it has not grown. -/
theorem fixDocument_changed
    (h : Session.opened disk settings root pinned listed = .ok session) (moves later : List Move) :
    let s := (({ session } : Schedule).play moves).1
    let call := s.session.fixTextCall text
    s.session.document? name = some document → document.content = .ofText text →
    (∀ reply', .next s.issued reply' ∉ later) →
    (s.play (.start (.fixDocument name) :: later)).1.session.document? name = some changed →
    changed.content = .ofText text' → .char '\r' ∉ text' →
    reply call = .ok completed →
    call.input = some text ∧ (s.move (.start (.fixDocument name))).2 = [.call call] ∧
    ∃ edits, s.Answers (.fixDocument name) later reply (.ok (.edits edits)) ∧
      (edits = [] ↔ completed.stdout = "" ∨ completed.stdout = text) ∧
      (edits ≠ [] →
        changed.content.edited edits =
          .ok ((completed.stdout : Str) ++ text'.drop text.length) ∧
        (changed.content.edited edits = .ok (completed.stdout : Str) ↔
          text'.length ≤ text.length)) := by
  intro s call hdocument htext hwaits hchanged htext' hreturn hreply
  obtain ⟨workspace, -, rfl⟩ := Session.opened_eq_ok h
  obtain ⟨edits, hanswers, hnone, hmade⟩ :=
    answers_fixDocument rfl moves later hdocument htext hwaits hchanged htext' hreply
  refine ⟨rfl, (move_start_fixDocument hdocument htext).2, edits, hanswers, hnone, fun hedits => ?_⟩
  have hdrop : text'.drop (min text.length text'.length) = text'.drop text.length := by
    rcases Nat.le_total text.length text'.length with hle | hle
    · rw [Nat.min_eq_left hle]
    · rw [Nat.min_eq_right hle, List.drop_length, List.drop_eq_nil_of_le hle]
  rw [hmade hedits, Content.settled_of_notMem hreturn, hdrop]
  simp

end

end Schedule

namespace Sample

open Schedule

/-- A document gets another text while the linter fixes it. -/
theorem document?_retyped (text text' : Str) :
    ((noted text).play
        (.start (.fixDocument "a") :: [.document "a" (note text')])).1.session.document? "a" =
      some (note text') :=
  Session.document?_setDocument_self _ "a" (note text')

/-- The document has become shorter. -/
theorem fixDocument_changed_shorter :
    Session.opened { tree := .directory [], current := [], homes := [] } = .ok roaming ∧
    (noted ['x', '\n', 'y']).session.document? "a" = some (note ['x', '\n', 'y']) ∧
    .char '\r' ∉ (['w', 'x'] : Str) ∧
    ∃ edits, (noted ['x', '\n', 'y']).Answers (.fixDocument "a") [.document "a" (note ['w', 'x'])]
        (printing "z") (.ok (.edits edits)) ∧ edits ≠ [] ∧
      (note ['w', 'x']).content.edited edits = .ok ['z'] := by
  have hdocument := document?_noted ['x', '\n', 'y']
  have hreturn : .char '\r' ∉ (['w', 'x'] : Str) := by decide
  have hreply : printing "z" ((noted ['x', '\n', 'y']).session.fixTextCall
      ['x', '\n', 'y']) = .ok ⟨[], 0, "z", ""⟩ := rfl
  obtain ⟨-, -, edits, hanswers, hnone, hmade⟩ :=
    fixDocument_changed opened_roaming [.document "a" (note ['x', '\n', 'y'])]
      [.document "a" (note ['w', 'x'])] hdocument rfl (by simp)
      (document?_retyped ['x', '\n', 'y'] ['w', 'x']) rfl hreturn hreply
  have hedits : edits ≠ [] := fun h => absurd (hnone.1 h) (by decide)
  exact ⟨opened_roaming, hdocument, hreturn, edits, hanswers, hedits, (hmade hedits).1⟩

/-- The document has become longer, and its second line stays behind the output. -/
theorem fixDocument_mixes_texts :
    (noted ['x']).session.document? "a" = some (note ['x']) ∧
    ∃ edits, (noted ['x']).Answers (.fixDocument "a") [.document "a" (note ['x', '\n', 'y'])]
        (printing "z") (.ok (.edits edits)) ∧ edits ≠ [] ∧
      (note ['x', '\n', 'y']).content.edited edits =
        .ok (("z" : Str) ++ [.char '\n', .char 'y']) := by
  have hdocument := document?_noted ['x']
  have hreply : printing "z" ((noted ['x']).session.fixTextCall ['x']) =
      .ok ⟨[], 0, "z", ""⟩ := rfl
  obtain ⟨edits, hanswers, hnone, hmade⟩ :=
    answers_fixDocument idle_roaming [.document "a" (note ['x'])]
      [.document "a" (note ['x', '\n', 'y'])] hdocument rfl (by simp)
      (document?_retyped ['x'] ['x', '\n', 'y']) rfl hreply
  have hedits : edits ≠ [] := fun h => absurd (hnone.1 h) (by decide)
  exact ⟨hdocument, edits, hanswers, hedits, hmade hedits⟩

end Sample

end LintBridge
