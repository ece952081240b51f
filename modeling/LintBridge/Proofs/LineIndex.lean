import LintBridge.Proofs.Atomicity
import LintBridge.Proofs.Splicing

/-!
# LintBridge.Proofs.LineIndex

The index of the lines of a text, and every look into it. The conversions in `Content` are total:
where there is nothing at an index they take a default, and their differences are cut off at zero.
Here the same conversions stand again in integers (`seekContentEnd`, `seekPosition`, `seekOffset`),
with the line of an offset found by halving (`searchLine`) and with each look at an index made by
`lookAt`, which fails where there is nothing and at every negative index. The conversions themselves
never fail, and they find what the total ones find (`Content.Indexed`).

A document carries its index along. `Buffer.content_after` says that after any changes this is the
index of the text that has come about, computed anew.

Main result: `Buffer.indexed_after`.
-/

namespace LintBridge

/-- The offsets of the line feeds of a text. -/
def lineFeeds (text : Str) : List Nat :=
  (List.range text.length).filter fun i => text[i]? = some (.char '\n')

/-- The line starts that a search from `offset` on adds to those found before. It goes from one line
feed to the next. -/
def scanStarts (text : Str) (found : List Nat) (offset : Nat) : List Nat :=
  match h : (text.drop offset).idxOf? (.char '\n') with
  | some i => scanStarts text (found ++ [offset + i + 1]) (offset + i + 1)
  | none => found
termination_by text.length - offset
decreasing_by
  obtain ⟨hi, -⟩ := List.idxOf?_eq_some_iff.1 h
  rw [List.length_drop] at hi
  omega

/-- There is nothing at an index. -/
structure OutOfBounds where
  index : Int
  length : Nat
  deriving DecidableEq, Repr

/-- What stands at an index. -/
def lookAt {α : Type} (l : List α) (index : Int) : Except OutOfBounds α :=
  if h : 0 ≤ index ∧ index.toNat < l.length then .ok (l.get ⟨index.toNat, h.2⟩)
  else .error ⟨index, l.length⟩

namespace Content

/-- The number of lines that start at or before an offset. It is from `low` to `high`, and is found
by halving. -/
def searchLine (starts : List Nat) (offset : Int) (low high : Nat) : Except OutOfBounds Nat := do
  if low < high then
    let start ← lookAt starts ((low + high) / 2 : Nat)
    if offset < start then searchLine starts offset low ((low + high) / 2)
    else searchLine starts offset ((low + high) / 2 + 1) high
  else return low
termination_by high - low

/-- The end of a line, its line feed not included. -/
def seekLineEnd (content : Content) (line : Int) : Except OutOfBounds Int := do
  if line + 1 < content.lineCount then return (← lookAt content.starts (line + 1)) - 1
  else return content.text.length

/-- The end of the content of a line. -/
def seekContentEnd (content : Content) (line : Int) : Except OutOfBounds Int := do
  let stop ← content.seekLineEnd line
  let start ← lookAt content.starts line
  if start < stop then
    let last ← lookAt content.text (stop - 1)
    return if last = '\r' then stop - 1 else stop
  else return stop

/-- The line and the character of an offset. -/
def seekPosition (content : Content) (offset : Int) : Except OutOfBounds (Int × Int) := do
  let offset := min (max offset 0) content.text.length
  let line : Int := (← searchLine content.starts offset 0 content.lineCount) - 1
  let stop ← content.seekContentEnd line
  let start ← lookAt content.starts line
  return (line, min offset stop - start)

/-- The offset of a position. -/
def seekOffset (content : Content) (p : Position) : Except OutOfBounds Int := do
  if content.lineCount ≤ p.line then return content.text.length
  else
    let start ← lookAt content.starts p.line
    let stop ← content.seekContentEnd p.line
    return min (start + p.character) stop

end Content

/-! ### Finding the lines -/

theorem lineFeeds_cons (c : Letter Half) (rest : Str) : lineFeeds (c :: rest) =
    if c = '\n' then 0 :: (lineFeeds rest).map (· + 1) else (lineFeeds rest).map (· + 1) := by
  unfold lineFeeds
  rw [List.length_cons, List.range_succ_eq_map, List.filter_cons, List.filter_map]
  simp [Function.comp_def]

theorem startsAfter_eq_map (offset : Nat) (text : Str) :
    startsAfter offset text = (lineFeeds text).map (offset + · + 1) := by
  induction text generalizing offset with
  | nil => rfl
  | cons c rest ih =>
    have hrest : startsAfter (offset + 1) rest =
        ((lineFeeds rest).map (· + 1)).map (offset + · + 1) := by
      rw [ih (offset + 1), List.map_map]
      refine List.map_congr_left fun feed _ => ?_
      simp only [Function.comp_apply]
      omega
    rw [startsAfter, lineFeeds_cons, hrest]
    split <;> rfl

theorem length_lineFeeds (text : Str) : (lineFeeds text).length = text.count (.char '\n') := by
  induction text with
  | nil => rfl
  | cons c rest ih =>
    rw [lineFeeds_cons, List.count_cons]
    split <;> simp_all

/-- The next line starts after the next line feed. -/
theorem startsAfter_eq_next (offset : Nat) (text : Str) : startsAfter offset text =
    match text.idxOf? (.char '\n') with
    | some i => (offset + i + 1) :: startsAfter (offset + i + 1) (text.drop (i + 1))
    | none => [] := by
  induction text generalizing offset with
  | nil => rfl
  | cons c rest ih =>
    rw [startsAfter, List.idxOf?_cons]
    by_cases hc : c = '\n'
    · simp [hc]
    · rw [if_neg hc, ih (offset + 1), if_neg (by simpa using hc)]
      cases rest.idxOf? (.char '\n') with
      | none => rfl
      | some i =>
        have hfeed : offset + 1 + i = offset + (i + 1) := by omega
        simp only [Option.map_some, hfeed, List.drop_succ_cons]

theorem scanStarts_eq (text : Str) (found : List Nat) (offset : Nat) :
    scanStarts text found offset = found ++ startsAfter offset (text.drop offset) := by
  fun_induction scanStarts text found offset with
  | case1 found offset i h ih =>
    have hrest : (text.drop offset).drop (i + 1) = text.drop (offset + i + 1) := by
      rw [List.drop_drop, Nat.add_assoc]
    rw [ih, startsAfter_eq_next offset]
    simp only [h, hrest, List.append_assoc, List.singleton_append]
  | case2 found offset h =>
    rw [startsAfter_eq_next, h, List.append_nil]

/-! ### Looking things up -/

theorem lookAt_of_getElem? {α : Type} {l : List α} {n : Nat} {a : α} (h : l[n]? = some a) :
    lookAt l n = .ok a := by
  obtain ⟨hn, rfl⟩ := List.getElem?_eq_some_iff.1 h
  exact dif_pos ⟨Int.natCast_nonneg n, hn⟩

namespace Content

variable {text line : Str} {i offset : Nat}

theorem searchLine_eq {starts : List Nat} (h : starts.Pairwise (· < ·)) {low high : Nat}
    (hlow : low ≤ (starts.takeWhile (· ≤ offset)).length)
    (hhigh : (starts.takeWhile (· ≤ offset)).length ≤ high) (hlength : high ≤ starts.length) :
    searchLine starts offset low high = .ok (starts.takeWhile (· ≤ offset)).length := by
  fun_induction searchLine starts offset low high with
  | case1 low high hlt ihbefore ihafter =>
    have hbelow : (low + high) / 2 < high := by omega
    have hstart := List.getElem?_eq_getElem (Nat.lt_of_lt_of_le hbelow hlength)
    have hiff := lt_length_takeWhile_iff h ((low + high) / 2) offset
    simp only [hstart, Option.some.injEq, exists_eq_left'] at hiff
    rw [lookAt_of_getElem? hstart, ok_bind]
    split
    next hafter => exact ihbefore hlow (by omega) (by omega)
    next hbefore => exact ihafter (by omega) hhigh hlength
  | case2 low high hlt =>
    exact congrArg Except.ok (by omega)

/-- The line of an offset is found by halving. -/
theorem searchLine_ofText (text : Str) (offset : Nat) :
    searchLine (ofText text).starts offset 0 (ofText text).lineCount =
      .ok ((ofText text).lineOf offset + 1) := by
  have hfirst : 0 < ((ofText text).starts.takeWhile (· ≤ offset)).length :=
    (lt_length_takeWhile_iff (pairwise_starts text) 0 offset).2 ⟨0, rfl, Nat.zero_le offset⟩
  have hline : (ofText text).lineOf offset + 1 =
      ((ofText text).starts.takeWhile (· ≤ offset)).length :=
    Nat.sub_add_cancel hfirst
  rw [hline]
  exact searchLine_eq (pairwise_starts text) (Nat.zero_le _)
    (List.takeWhile_sublist _).length_le (Nat.le_refl _)

theorem seekLineEnd_eq (h : (textLines text)[i]? = some line) :
    (ofText text).seekLineEnd i = .ok ((ofText text).lineEnd i : Int) := by
  unfold seekLineEnd
  rcases at_lineEnd h with ⟨-, hnext⟩ | ⟨hend, hlast⟩
  · obtain ⟨hlt, -⟩ := List.getElem?_eq_some_iff.1 hnext
    rw [if_pos (by exact_mod_cast hlt), ← Int.natCast_succ, lookAt_of_getElem? hnext, ok_bind,
      pure_eq_ok, Int.natCast_succ, Int.add_sub_cancel]
  · have hcount : (ofText text).lineCount = i + 1 := hlast
    rw [if_neg (by omega), hend]
    rfl

theorem lookAt_lineStart (h : (textLines text)[i]? = some line) :
    lookAt (ofText text).starts i = .ok ((ofText text).lineStart i) :=
  lookAt_of_getElem? (isLine h).starts

theorem seekContentEnd_eq (h : (textLines text)[i]? = some line) :
    (ofText text).seekContentEnd i = .ok ((ofText text).contentEnd i : Int) := by
  have htext : (ofText text).text = text := rfl
  have hlength := lineEnd_le_length h
  simp only [seekContentEnd, seekLineEnd_eq h, lookAt_lineStart h, ok_bind, contentEnd, htext,
    Int.ofNat_lt]
  by_cases hempty : (ofText text).lineStart i < (ofText text).lineEnd i
  · -- the line has a last character, which stands before its end
    have hplace : ((ofText text).lineEnd i : Int) - 1 = ((ofText text).lineEnd i - 1 : Nat) := by
      omega
    have hlast := List.getElem?_eq_getElem
      (show (ofText text).lineEnd i - 1 < text.length by omega)
    rw [if_pos hempty, hplace, lookAt_of_getElem? hlast, ok_bind, hlast]
    simp only [hempty, true_and, Option.some.injEq, pure_eq_ok]
    split <;> rfl
  · rw [if_neg hempty, if_neg fun hboth => hempty hboth.1]
    rfl

-- a line that is not there
example : (ofText ['a', '\r']).seekContentEnd 1 = .error ⟨1, 1⟩ := rfl

/-- An offset, moved into the text, is on a line, and its character is counted from where that line
starts. -/
theorem exists_positionAt (text : Str) (offset : Int) :
    ∃ i line, (textLines text)[i]? = some line ∧
      (ofText text).lineOf (min offset.toNat text.length) = i ∧
      (ofText text).lineStart i ≤ min offset.toNat text.length ∧
      (ofText text).positionAt offset = ⟨i, min (min offset.toNat text.length)
        ((ofText text).contentEnd i) - (ofText text).lineStart i⟩ := by
  obtain ⟨i, line, hline, hof, hstart, hend⟩ :=
    exists_line (Nat.min_le_right offset.toNat text.length)
  refine ⟨i, line, hline, hof, hstart, ?_⟩
  rw [positionAt_clamp, positionAt_of_line hline hstart hend]

theorem seekPosition_eq (text : Str) (offset : Int) : (ofText text).seekPosition offset =
    .ok (((ofText text).positionAt offset).line, ((ofText text).positionAt offset).character) := by
  obtain ⟨i, line, hline, hof, hstart, hposition⟩ := exists_positionAt text offset
  have hinside : min (max offset 0) ((ofText text).text.length : Int) =
      (min offset.toNat text.length : Nat) := by
    show min (max offset 0) (text.length : Int) = _
    omega
  have hsearch := searchLine_ofText text (min offset.toNat text.length)
  have hcontent := lineStart_le_contentEnd hline
  rw [hposition]
  simp only [seekPosition, hinside, hsearch, hof, ok_bind, Int.natCast_succ, Int.add_sub_cancel,
    seekContentEnd_eq hline, lookAt_lineStart hline, pure_eq_ok]
  -- the line starts neither after the offset nor after its own content, so nothing is cut off
  refine congrArg (fun character : Int => Except.ok ((i : Int), character)) ?_
  omega

theorem seekOffset_eq (text : Str) (p : Position) :
    (ofText text).seekOffset p = .ok ((ofText text).offsetAt p : Int) := by
  unfold seekOffset
  rcases Nat.lt_or_ge p.line (ofText text).lineCount with hp | hp
  · obtain ⟨line, hline⟩ := exists_textLine hp
    rw [if_neg (Nat.not_le_of_lt hp), lookAt_lineStart hline, ok_bind, seekContentEnd_eq hline,
      ok_bind, offsetAt_of_line hline p.character, pure_eq_ok]
    push_cast
    rfl
  · rw [if_pos hp, offsetAt_of_lineCount_le hp]
    rfl

/-! ### What the index is good for -/

/-- The index of a text tells where the lines of the text start, and no look into the index or into
the text is out of bounds. -/
structure Indexed (content : Content) : Prop where
  /-- Going from line feed to line feed comes to an end, and finds the index. -/
  scanned : scanStarts content.text [0] 0 = content.starts
  /-- A line starts at the start of the text and after each line feed. -/
  starts : content.starts = 0 :: (lineFeeds content.text).map (· + 1)
  increasing : content.starts.Pairwise (· < ·)
  lineCount : content.lineCount = content.text.count (.char '\n') + 1
  start : ∀ line < content.lineCount, content.starts[line]? = some (content.lineStart line)
  line : ∀ offset : Int, (content.positionAt offset).line < content.lineCount
  position : ∀ offset : Int, content.seekPosition offset =
    .ok ((content.positionAt offset).line, (content.positionAt offset).character)
  offset : ∀ p, content.seekOffset p = .ok (content.offsetAt p : Int)
  /-- The content of a line ends in the text, and not before it starts. -/
  contentEnd : ∀ line < content.lineCount,
    content.seekContentEnd line = .ok (content.contentEnd line : Int) ∧
      content.lineStart line ≤ content.contentEnd line ∧
      content.contentEnd line ≤ content.text.length

theorem indexed_ofText (text : Str) : (ofText text).Indexed where
  scanned := scanStarts_eq text [0] 0
  starts := by
    show 0 :: startsAfter 0 text = 0 :: (lineFeeds text).map (· + 1)
    rw [startsAfter_eq_map]
    simp only [Nat.zero_add]
  increasing := pairwise_starts text
  lineCount := by
    show (startsAfter 0 text).length + 1 = text.count (.char '\n') + 1
    rw [startsAfter_eq_map, List.length_map, length_lineFeeds]
  start := fun line hlt => by
    obtain ⟨_, hline⟩ := exists_textLine hlt
    exact (isLine hline).starts
  line := fun offset => by
    obtain ⟨i, line, hline, -, -, hposition⟩ := exists_positionAt text offset
    rw [hposition]
    exact lt_lineCount hline
  position := seekPosition_eq text
  offset := seekOffset_eq text
  contentEnd := fun line hlt => by
    obtain ⟨_, hline⟩ := exists_textLine hlt
    exact ⟨seekContentEnd_eq hline, lineStart_le_contentEnd hline,
      Nat.le_trans (contentEnd_le_lineEnd hline) (lineEnd_le_length hline)⟩

end Content

/-! ### Changing documents -/

namespace Buffer

/-- A change to the text of a document. -/
inductive Change where
  | setText (text : Str)
  | applyEdits (edits : List TextEdit)

/-- The change as a step of the document. -/
def Change.step : Change → EStateM Overlap Buffer Unit
  | setText text => modify (·.setText text)
  | applyEdits edits => editing edits

/-- What the change makes of a text alone. -/
def Change.textAfter : Change → Str → Str
  | setText new, _ => new
  | applyEdits edits, text =>
    match (Content.ofText text).edited edits with
    | .ok new => new
    | .error _ => text

/-- The document after a change, which may have failed. -/
def changed (b : Buffer) (change : Change) : Buffer :=
  match change.step.run b with
  | .ok _ b' => b'
  | .error _ b' => b'

/-- The document after some changes. -/
def after (b : Buffer) (changes : List Change) : Buffer :=
  changes.foldl changed b

variable {b : Buffer} {text : Str}

theorem content_changed (h : b.content = .ofText text) (change : Change) :
    (b.changed change).content = .ofText (change.textAfter text) := by
  cases change with
  | setText new => rfl
  | applyEdits edits =>
    have hrun := run_editing b edits
    rw [h] at hrun
    unfold changed Change.step Change.textAfter
    dsimp only
    rw [hrun]
    cases (Content.ofText text).edited edits with
    | ok new => rfl
    | error overlap => exact h

/-- A document carries the index of its text along. -/
theorem content_after (h : b.content = .ofText text) (changes : List Change) :
    (b.after changes).content = .ofText (changes.foldl (fun text c => c.textAfter text) text) := by
  induction changes generalizing b text with
  | nil => exact h
  | cons change changes ih => exact ih (content_changed h change)

theorem content_opened {disk : Disk} {p : Path} {languageId scheme : String}
    (h : opened disk p text languageId scheme = .ok b) : b.content = .ofText text := by
  obtain ⟨path, -, h⟩ := bind_eq_ok.1 h
  dsimp only at h
  split at h
  · obtain ⟨uri, -, h⟩ := bind_eq_ok.1 h
    obtain rfl := Except.ok.inj h
    rfl
  · obtain rfl := Except.ok.inj h
    rfl

/-- Every text is indexed, and so is a document that is opened with the text and then changed in any
way: it holds the text that the changes make of its own, with the index of that text. -/
theorem indexed_after (text : Str) : (Content.ofText text).Indexed ∧
    ∀ (disk : Disk) (p : Path) (languageId scheme : String) (b : Buffer),
      opened disk p text languageId scheme = .ok b → ∀ changes : List Change,
        (b.after changes).content.Indexed ∧ (b.after changes).content =
          .ofText (changes.foldl (fun text c => c.textAfter text) text) := by
  refine ⟨Content.indexed_ofText text, fun disk p languageId scheme b h changes => ?_⟩
  have hcontent := content_after (content_opened h) changes
  refine ⟨?_, hcontent⟩
  rw [hcontent]
  exact Content.indexed_ofText _

end Buffer

namespace Sample

open Buffer

/-- Edits that overlap, and then edits that do not. -/
def retries : List Buffer.Change :=
  [.applyEdits (adjacent ++ adjacent), .applyEdits adjacent]

theorem opened_draft : opened disk file ['a', 'b', '\r', '\n', 'c'] = .ok draft := by
  have huri : file.toUri = .ok "file:///ws/a.nu" := by decide +kernel
  simp only [opened, canonical_file, huri, fileScheme, ok_bind, if_true]
  rfl

/-- Offset 5 is in a line break, and the content of its line ends before that, at offset 4. -/
theorem indexed_after_retries : opened disk file ['a', 'b', '\r', '\n', 'c'] = .ok draft ∧
    (draft.after retries).content = .ofText ['a', 'y', 'x', 'x', '\r', '\n', 'c'] ∧
    (draft.after retries).content.starts = [0, 6] ∧
    (draft.after retries).content.seekContentEnd 0 = .ok 4 ∧
    (draft.after retries).content.seekPosition 5 = .ok (0, 4) := by
  obtain ⟨hindexed, hcontent⟩ :=
    (indexed_after ['a', 'b', '\r', '\n', 'c']).2 disk file _ _ draft opened_draft retries
  have htext : retries.foldl (fun text c => c.textAfter text) (['a', 'b', '\r', '\n', 'c'] : Str) =
      (['a', 'y', 'x', 'x', '\r', '\n', 'c'] : Str) := by
    cbv
  rw [htext] at hcontent
  rw [hcontent] at hindexed ⊢
  exact ⟨opened_draft, rfl, rfl, (hindexed.contentEnd 0 (by decide)).1, hindexed.position 5⟩

end Sample

end LintBridge
