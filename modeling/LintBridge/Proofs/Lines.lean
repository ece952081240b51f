import LintBridge.Document.Content

/-!
# LintBridge.Proofs.Lines

The index of a text against the lines of the text. `textLines` are what stands between the line
feeds, and `isLine_of_getElem?` says where the index places each of them. From there on a line is
known by where it starts, where it ends and where its content ends, and the lines of a text lie one
after another (`Content.lineEnd_lt_lineStart`), so that an offset is on one line only.

Main result: `Content.conversions`, how positions and offsets are converted into each other.
-/

namespace LintBridge

/-- The lines of a text, without their line feeds. -/
def textLines (text : Str) : List Str :=
  text.splitOn '\n'

/-- A line without the carriage return at its end, if there is one. -/
def lineContent (line : Str) : Str :=
  if line.getLast? = some (.char '\r') then line.dropLast else line

/-! ### The index -/

theorem textLines_nil : textLines [] = [[]] :=
  rfl

theorem textLines_cons (c : Letter Half) (rest : Str) : textLines (c :: rest) =
    if c = '\n' then [] :: textLines rest else (textLines rest).modifyHead (c :: ·) := by
  unfold textLines
  rw [List.splitOn_cons_eq_if_modifyHead]
  simp only [beq_iff_eq]

/-- No line holds a line feed. -/
theorem notMem_of_mem_textLines {text line : Str} (h : line ∈ textLines text) :
    .char '\n' ∉ line := by
  induction text generalizing line with
  | nil =>
    obtain rfl : line = [] := by simpa [textLines_nil] using h
    exact List.not_mem_nil
  | cons c rest ih =>
    rw [textLines_cons] at h
    by_cases hc : c = '\n'
    · rw [if_pos hc] at h
      rcases List.mem_cons.1 h with rfl | h
      · exact List.not_mem_nil
      · exact ih h
    · rw [if_neg hc] at h
      cases hlines : textLines rest with
      | nil => simp [hlines] at h
      | cons first others =>
        rw [hlines, List.modifyHead_cons] at h
        rcases List.mem_cons.1 h with rfl | h
        · have hfirst : first ∈ textLines rest := by simp [hlines]
          simp [ih hfirst, Ne.symm hc]
        · exact ih (by simp [hlines, h])

/-- The starts of lines come in order. -/
theorem pairwise_startsAfter (offset : Nat) (text : Str) :
    (offset :: startsAfter offset text).Pairwise (· < ·) := by
  induction text generalizing offset with
  | nil => simp [startsAfter]
  | cons c rest ih =>
    have hrest := ih (offset + 1)
    have hfirst : ∀ start ∈ startsAfter (offset + 1) rest, offset < start := by
      intro start hstart
      have := List.rel_of_pairwise_cons hrest hstart
      omega
    by_cases hc : c = '\n'
    · rw [startsAfter, if_pos hc]
      refine List.pairwise_cons.2 ⟨fun start hstart => ?_, hrest⟩
      rcases List.mem_cons.1 hstart with rfl | hstart
      · exact Nat.lt_succ_self offset
      · exact hfirst start hstart
    · rw [startsAfter, if_neg hc]
      exact List.pairwise_cons.2 ⟨hfirst, hrest.of_cons⟩

theorem length_startsAfter (offset : Nat) (text : Str) :
    (startsAfter offset text).length + 1 = (textLines text).length := by
  induction text generalizing offset with
  | nil => rfl
  | cons c rest ih =>
    rw [textLines_cons, startsAfter]
    by_cases hc : c = '\n'
    · simp [hc, ih (offset + 1)]
    · simp [hc, ih (offset + 1)]

/-- Where the index of a text, whose first character stands at `offset`, places a line: it starts at
`start`, and what follows it is a line feed or nothing. -/
structure IsLine (offset : Nat) (text : Str) (i : Nat) (line : Str) (start : Nat) :
    Prop where
  starts : (offset :: startsAfter offset text)[i]? = some start
  above : offset ≤ start
  chars : line <+: text.drop (start - offset)
  stop : (startsAfter offset text)[i]? = some (start + line.length + 1) ∧
      text[start + line.length - offset]? = some (.char '\n') ∨
    (startsAfter offset text)[i]? = none ∧ start + line.length = offset + text.length

/-- A line after the first character of a text. -/
theorem IsLine.cons {offset i start : Nat} {rest line : Str} (c : Letter Half) {j : Nat}
    (h : IsLine (offset + 1) rest i line start)
    (hstart : (offset :: startsAfter offset (c :: rest))[j]? = some start)
    (hstop : (startsAfter offset (c :: rest))[j]? = (startsAfter (offset + 1) rest)[i]?) :
    IsLine offset (c :: rest) j line start := by
  have habove := h.above
  have hback : start - offset = start - (offset + 1) + 1 := by omega
  have hend : start + line.length - offset = start + line.length - (offset + 1) + 1 := by omega
  refine ⟨hstart, by omega, ?_, ?_⟩
  · rw [hback, List.drop_succ_cons]
    exact h.chars
  · rw [hstop, hend, List.getElem?_cons_succ, List.length_cons]
    exact h.stop.imp_right fun ⟨hnone, hlength⟩ => ⟨hnone, by omega⟩

/-- The index places every line of a text. -/
theorem isLine_of_getElem? (offset : Nat) (text : Str) {i : Nat} {line : Str}
    (h : (textLines text)[i]? = some line) : ∃ start, IsLine offset text i line start := by
  induction text generalizing offset i line with
  | nil =>
    cases i with
    | zero =>
      obtain rfl : [] = line := by simpa [textLines_nil] using h
      exact ⟨offset, rfl, Nat.le_refl _, by simp, .inr ⟨rfl, rfl⟩⟩
    | succ i => simp [textLines_nil] at h
  | cons c rest ih =>
    rw [textLines_cons] at h
    by_cases hc : c = '\n'
    · have hstarts : startsAfter offset (c :: rest) =
          (offset + 1) :: startsAfter (offset + 1) rest := by rw [startsAfter, if_pos hc]
      rw [if_pos hc] at h
      cases i with
      | zero =>
        -- the first line is empty, and its line feed comes at once
        obtain rfl : [] = line := by simpa using h
        exact ⟨offset, rfl, Nat.le_refl _, by simp, .inl ⟨by simp [hstarts], by simp [hc]⟩⟩
      | succ i =>
        obtain ⟨start, hline⟩ := ih (offset + 1) (by simpa using h)
        refine ⟨start, hline.cons c ?_ ?_⟩
        · rw [hstarts]
          exact hline.starts
        · rw [hstarts, List.getElem?_cons_succ]
    · have hstarts : startsAfter offset (c :: rest) = startsAfter (offset + 1) rest := by
        rw [startsAfter, if_neg hc]
      rw [if_neg hc] at h
      cases i with
      | zero =>
        -- the character belongs to the first line of the rest
        obtain ⟨first, hfirst, rfl⟩ : ∃ first, (textLines rest)[0]? = some first ∧
            c :: first = line := by
          cases hrest : textLines rest <;> simp_all
        obtain ⟨start, hline⟩ := ih (offset + 1) hfirst
        obtain rfl : offset + 1 = start := by simpa using hline.starts
        have hchars : first <+: rest := by simpa using hline.chars
        refine ⟨offset, rfl, Nat.le_refl _, by simpa using hchars, ?_⟩
        have hstop := hline.stop
        rw [hstarts]
        simp only [List.length_cons] at hstop ⊢
        have hlength : offset + 1 + first.length = offset + (first.length + 1) := by omega
        have hend : offset + (first.length + 1) - (offset + 1) = first.length := by omega
        have hback : offset + (first.length + 1) - offset = first.length + 1 := by omega
        rw [hlength, hend] at hstop
        rw [hback, List.getElem?_cons_succ]
        exact hstop.imp_right fun ⟨hnone, htotal⟩ => ⟨hnone, by omega⟩
      | succ i =>
        have hrest : (textLines rest)[i + 1]? = some line := by
          cases hlines : textLines rest <;> simp_all
        obtain ⟨start, hline⟩ := ih (offset + 1) hrest
        refine ⟨start, hline.cons c ?_ ?_⟩
        · rw [hstarts]
          simpa using hline.starts
        · rw [hstarts]

namespace Content

variable {text line line' : Str} {i j offset : Nat}

/-! ### Where a line starts and ends -/

theorem lineCount_ofText (text : Str) :
    (ofText text).lineCount = (textLines text).length :=
  length_startsAfter 0 text

theorem pairwise_starts (text : Str) : (ofText text).starts.Pairwise (· < ·) :=
  pairwise_startsAfter 0 text

theorem lineStart_eq {content : Content} {start : Nat} (h : content.starts[i]? = some start) :
    content.lineStart i = start := by
  rw [lineStart, List.getD_eq_getElem?_getD, h]
  rfl

theorem isLine (h : (textLines text)[i]? = some line) :
    IsLine 0 text i line ((ofText text).lineStart i) := by
  obtain ⟨start, hline⟩ := isLine_of_getElem? 0 text h
  have hstart : (ofText text).lineStart i = start := lineStart_eq hline.starts
  rw [hstart]
  exact hline

theorem lineEnd_eq (h : (textLines text)[i]? = some line) :
    (ofText text).lineEnd i = (ofText text).lineStart i + line.length := by
  have hnext : (ofText text).starts[i + 1]? = (startsAfter 0 text)[i]? := by
    simp [ofText, lineStarts]
  rw [lineEnd, hnext]
  rcases (isLine h).stop with ⟨hstop, -⟩ | ⟨hstop, hlength⟩
  · rw [hstop]
    simp
  · rw [hstop]
    simpa [ofText] using hlength.symm

/-- A line ends with a line feed, after which the next one starts, unless it is the last one. -/
theorem at_lineEnd (h : (textLines text)[i]? = some line) :
    text[(ofText text).lineEnd i]? = some (.char '\n') ∧
        (ofText text).starts[i + 1]? = some ((ofText text).lineEnd i + 1) ∨
      (ofText text).lineEnd i = text.length ∧ (ofText text).starts.length = i + 1 := by
  have hlength : (ofText text).starts.length = (textLines text).length := lineCount_ofText text
  have hnext : (ofText text).starts[i + 1]? = (startsAfter 0 text)[i]? := by
    simp [ofText, lineStarts]
  obtain ⟨hi, -⟩ := List.getElem?_eq_some_iff.1 h
  rw [lineEnd_eq h]
  rcases (isLine h).stop with ⟨hstop, hfeed⟩ | ⟨hstop, htotal⟩
  · exact .inl ⟨by simpa using hfeed, hnext.trans hstop⟩
  · have hlast := List.getElem?_eq_none_iff.1 (hnext.trans hstop)
    exact .inr ⟨by simpa using htotal, by omega⟩

theorem lineEnd_le_length (h : (textLines text)[i]? = some line) :
    (ofText text).lineEnd i ≤ text.length := by
  rcases at_lineEnd h with ⟨hfeed, -⟩ | ⟨hlast, -⟩
  · exact Nat.le_of_lt (List.getElem?_eq_some_iff.1 hfeed).1
  · exact Nat.le_of_eq hlast

/-- Lines come one after another. -/
theorem lineEnd_lt_lineStart (hi : (textLines text)[i]? = some line) (h : i < j)
    (hj : j < (ofText text).lineCount) :
    (ofText text).lineEnd i < (ofText text).lineStart j := by
  obtain ⟨start, hlater⟩ : ∃ start, (ofText text).starts[j]? = some start :=
    ⟨_, List.getElem?_eq_getElem hj⟩
  have hvalue' := (List.getElem?_eq_some_iff.1 hlater).2
  rw [lineStart_eq hlater]
  rcases at_lineEnd hi with ⟨-, hnext⟩ | ⟨-, hlast⟩
  · obtain ⟨hlt, hvalue⟩ := List.getElem?_eq_some_iff.1 hnext
    by_cases hadjacent : i + 1 = j
    · subst hadjacent
      omega
    · have := List.pairwise_iff_getElem.1 (pairwise_starts text) (i + 1) j hlt hj (by omega)
      omega
  · have : j < (ofText text).starts.length := hj
    omega

/-! ### The content of a line -/

theorem length_lineContent_le (line : Str) : (lineContent line).length ≤ line.length := by
  unfold lineContent
  split
  · simp
  · exact Nat.le_refl _

/-- The last character of a line stands before its end. -/
theorem getLast?_eq (h : (textLines text)[i]? = some line) (hne : line ≠ []) :
    text[(ofText text).lineEnd i - 1]? = line.getLast? := by
  have hpos := List.length_pos_iff.2 hne
  obtain ⟨rest, hrest⟩ := (isLine h).chars
  have hplace : (ofText text).lineStart i + line.length - 1 =
      (ofText text).lineStart i + (line.length - 1) := by omega
  have hchar : (text.drop ((ofText text).lineStart i))[line.length - 1]? = line.getLast? := by
    rw [Nat.sub_zero] at hrest
    rw [← hrest, List.getElem?_append_left (by omega), List.getLast?_eq_getElem?]
  rw [lineEnd_eq h, hplace, ← hchar, List.getElem?_drop]

theorem contentEnd_eq (h : (textLines text)[i]? = some line) :
    (ofText text).contentEnd i = (ofText text).lineStart i + (lineContent line).length := by
  have hend := lineEnd_eq h
  have htext : (ofText text).text = text := rfl
  unfold contentEnd lineContent
  dsimp only
  rw [htext]
  cases line with
  | nil =>
    rw [if_neg (by simp [hend])]
    simpa using hend
  | cons c rest =>
    rw [getLast?_eq h (List.cons_ne_nil c rest), hend]
    by_cases hreturn : (c :: rest).getLast? = some (.char '\r')
    · rw [if_pos ⟨by simp, hreturn⟩, if_pos hreturn, List.length_dropLast]
      simp
    · rw [if_neg fun hboth => hreturn hboth.2, if_neg hreturn]

theorem contentEnd_le_lineEnd (h : (textLines text)[i]? = some line) :
    (ofText text).contentEnd i ≤ (ofText text).lineEnd i := by
  rw [contentEnd_eq h, lineEnd_eq h]
  exact Nat.add_le_add_left (length_lineContent_le line) _

theorem lineStart_le_contentEnd (h : (textLines text)[i]? = some line) :
    (ofText text).lineStart i ≤ (ofText text).contentEnd i := by
  rw [contentEnd_eq h]
  exact Nat.le_add_right _ _

/-! ### The line of an offset -/

theorem lt_length_takeWhile_iff {starts : List Nat} (h : starts.Pairwise (· < ·)) (k offset : Nat) :
    k < (starts.takeWhile (· ≤ offset)).length ↔
      ∃ start, starts[k]? = some start ∧ start ≤ offset := by
  induction starts generalizing k with
  | nil => simp
  | cons first rest ih =>
    by_cases hfirst : first ≤ offset
    · rw [List.takeWhile_cons_of_pos (by simpa using hfirst)]
      cases k with
      | zero => simpa using hfirst
      | succ k => simpa using ih h.of_cons k
    · rw [List.takeWhile_cons_of_neg (by simpa using hfirst)]
      constructor
      · intro hk
        exact absurd hk (Nat.not_lt_zero k)
      · -- what comes later is even larger
        rintro ⟨start, hstart, hle⟩
        cases k with
        | zero =>
          obtain rfl : first = start := by simpa using hstart
          exact absurd hle hfirst
        | succ k =>
          have := List.rel_of_pairwise_cons h (List.mem_of_getElem? hstart)
          omega

/-- An offset is on the line between whose ends it lies. -/
theorem lineOf_eq (h : (textLines text)[i]? = some line)
    (hstart : (ofText text).lineStart i ≤ offset) (hend : offset ≤ (ofText text).lineEnd i) :
    (ofText text).lineOf offset = i := by
  have hhere : i < ((ofText text).starts.takeWhile (· ≤ offset)).length :=
    (lt_length_takeWhile_iff (pairwise_starts text) i offset).2 ⟨_, (isLine h).starts, hstart⟩
  have hnext : ¬ i + 1 < ((ofText text).starts.takeWhile (· ≤ offset)).length := by
    intro hlt
    obtain ⟨start, hsome, hle⟩ :=
      (lt_length_takeWhile_iff (pairwise_starts text) (i + 1) offset).1 hlt
    have hj : i + 1 < (ofText text).lineCount := (List.getElem?_eq_some_iff.1 hsome).1
    have hlater := lineEnd_lt_lineStart h (Nat.lt_add_one i) hj
    rw [lineStart_eq hsome] at hlater
    omega
  unfold lineOf
  omega

/-- Every offset of a text is on one of its lines. -/
theorem exists_line (h : offset ≤ text.length) :
    ∃ i line, (textLines text)[i]? = some line ∧ (ofText text).lineOf offset = i ∧
      (ofText text).lineStart i ≤ offset ∧ offset ≤ (ofText text).lineEnd i := by
  have hfirst : 0 < ((ofText text).starts.takeWhile (· ≤ offset)).length :=
    (lt_length_takeWhile_iff (pairwise_starts text) 0 offset).2 ⟨0, rfl, Nat.zero_le offset⟩
  obtain ⟨i, hi⟩ : ∃ i, ((ofText text).starts.takeWhile (· ≤ offset)).length = i + 1 :=
    ⟨_, (Nat.succ_pred_eq_of_pos hfirst).symm⟩
  obtain ⟨start, hsome, hle⟩ :=
    (lt_length_takeWhile_iff (pairwise_starts text) i offset).1 (by omega)
  have hlt : i < (textLines text).length := by
    rw [← lineCount_ofText]
    exact (List.getElem?_eq_some_iff.1 hsome).1
  obtain ⟨line, hline⟩ : ∃ line, (textLines text)[i]? = some line :=
    ⟨_, List.getElem?_eq_getElem hlt⟩
  refine ⟨i, line, hline, by simp [lineOf, hi], by rwa [lineStart_eq hsome], ?_⟩
  rcases at_lineEnd hline with ⟨-, hnext⟩ | ⟨hend, -⟩
  · -- were the offset past the end, the next line would start at or before it
    refine Nat.le_of_not_lt fun hpast => ?_
    have hlater := (lt_length_takeWhile_iff (pairwise_starts text) (i + 1) offset).2
      ⟨_, hnext, hpast⟩
    omega
  · omega

/-! ### From positions to offsets -/

theorem exists_textLine (h : i < (ofText text).lineCount) :
    ∃ line, (textLines text)[i]? = some line := by
  rw [lineCount_ofText] at h
  exact ⟨_, List.getElem?_eq_getElem h⟩

theorem lt_lineCount (h : (textLines text)[i]? = some line) : i < (ofText text).lineCount := by
  rw [lineCount_ofText]
  exact (List.getElem?_eq_some_iff.1 h).1

theorem offsetAt_of_line (h : (textLines text)[i]? = some line) (character : Nat) :
    (ofText text).offsetAt ⟨i, character⟩ =
      min ((ofText text).lineStart i + character) ((ofText text).contentEnd i) :=
  if_neg (Nat.not_le_of_lt (lt_lineCount h))

theorem offsetAt_of_lineCount_le {content : Content} {p : Position}
    (h : content.lineCount ≤ p.line) :
    content.offsetAt p = content.text.length :=
  if_pos h

/-- A position is in the text. -/
theorem offsetAt_le_length (text : Str) (p : Position) :
    (ofText text).offsetAt p ≤ text.length := by
  rcases Nat.lt_or_ge p.line (ofText text).lineCount with hp | hp
  · obtain ⟨line, hline⟩ := exists_textLine hp
    rw [offsetAt_of_line hline p.character]
    have hstop := contentEnd_le_lineEnd hline
    have hlength := lineEnd_le_length hline
    omega
  · exact Nat.le_of_eq (offsetAt_of_lineCount_le hp)

/-- Positions that come in order have offsets in order. -/
theorem offsetAt_mono (text : Str) {p q : Position} (h : p ≤ q) :
    (ofText text).offsetAt p ≤ (ofText text).offsetAt q := by
  rcases Nat.lt_or_ge q.line (ofText text).lineCount with hq | hq
  · obtain ⟨later, hlater⟩ := exists_textLine hq
    rcases Position.le_def.1 h with hlines | ⟨hline, hcharacter⟩
    · -- an earlier line ends before the later one starts
      obtain ⟨earlier, hearlier⟩ := exists_textLine (Nat.lt_trans hlines hq)
      have hbetween := lineEnd_lt_lineStart hearlier hlines hq
      have hstop := contentEnd_le_lineEnd hearlier
      have hstart := lineStart_le_contentEnd hlater
      rw [offsetAt_of_line hearlier p.character, offsetAt_of_line hlater q.character]
      omega
    · rw [← hline] at hlater
      rw [offsetAt_of_line hlater p.character, show q = ⟨p.line, q.character⟩ by rw [hline],
        offsetAt_of_line hlater q.character]
      omega
  · rw [offsetAt_of_lineCount_le hq]
    exact offsetAt_le_length text p

/-! ### From offsets to positions -/

theorem positionAt_of_line (h : (textLines text)[i]? = some line)
    (hstart : (ofText text).lineStart i ≤ offset) (hend : offset ≤ (ofText text).lineEnd i) :
    (ofText text).positionAt offset =
      ⟨i, min offset ((ofText text).contentEnd i) - (ofText text).lineStart i⟩ := by
  have hinside : min (offset : Int).toNat (ofText text).text.length = offset :=
    Nat.min_eq_left (Nat.le_trans hend (lineEnd_le_length h))
  simp only [positionAt, hinside, lineOf_eq h hstart hend]

/-- An offset outside the text counts as one of its ends. -/
theorem positionAt_clamp (text : Str) (o : Int) :
    (ofText text).positionAt o = (ofText text).positionAt (min o.toNat text.length : Nat) := by
  have hinside : min (min o.toNat text.length) text.length = min o.toNat text.length := by omega
  simp only [positionAt, Int.toNat_natCast, ofText, hinside]

/-- Offsets that come in order have positions in order. -/
theorem positionAt_mono (text : Str) {o o' : Int} (h : o ≤ o') :
    (ofText text).positionAt o ≤ (ofText text).positionAt o' := by
  rw [positionAt_clamp text o, positionAt_clamp text o']
  obtain ⟨i, line, hline, -, hstart, hend⟩ := exists_line (Nat.min_le_right o.toNat text.length)
  obtain ⟨j, line', hline', -, hstart', hend'⟩ :=
    exists_line (Nat.min_le_right o'.toNat text.length)
  rw [positionAt_of_line hline hstart hend, positionAt_of_line hline' hstart' hend',
    Position.le_def]
  rcases Nat.lt_trichotomy i j with hlt | rfl | hgt
  · exact .inl hlt
  · exact .inr ⟨rfl, by dsimp only; omega⟩
  · -- the line of the later offset would end before the line of the earlier one starts
    have := lineEnd_lt_lineStart hline' hgt (lt_lineCount hline)
    omega

/-! ### There and back -/

theorem offsetAt_positionAt (h : (textLines text)[i]? = some line)
    (hstart : (ofText text).lineStart i ≤ offset) (hend : offset ≤ (ofText text).lineEnd i) :
    (ofText text).offsetAt ((ofText text).positionAt offset) =
      min offset ((ofText text).contentEnd i) := by
  have := lineStart_le_contentEnd h
  rw [positionAt_of_line h hstart hend, offsetAt_of_line h]
  omega

/-- A position comes back from its offset if its line is in the text and its character is in the
content of the line or at the end of it. -/
theorem positionAt_offsetAt_iff (text : Str) (p : Position) :
    (ofText text).positionAt ((ofText text).offsetAt p) = p ↔
      ∃ line, (textLines text)[p.line]? = some line ∧ p.character ≤ (lineContent line).length := by
  constructor
  · intro hback
    obtain ⟨i, line, hline, -, hstart, hend⟩ := exists_line (offsetAt_le_length text p)
    rw [positionAt_of_line hline hstart hend] at hback
    obtain rfl : i = p.line := congrArg Position.line hback
    refine ⟨line, hline, ?_⟩
    have hcharacter := congrArg Position.character hback
    have hcontent := contentEnd_eq hline
    dsimp only at hcharacter
    omega
  · rintro ⟨line, hline, hcharacter⟩
    have hcontent := contentEnd_eq hline
    have hoffset : (ofText text).offsetAt p = (ofText text).lineStart p.line + p.character := by
      rw [offsetAt_of_line hline p.character]
      omega
    have hend := contentEnd_le_lineEnd hline
    rw [hoffset, positionAt_of_line hline (Nat.le_add_right _ _) (by omega)]
    have hwithin : min ((ofText text).lineStart p.line + p.character)
        ((ofText text).contentEnd p.line) - (ofText text).lineStart p.line = p.character := by omega
    rw [hwithin]

/-- An offset of a line is at its end if it is at the end of the text or at a line feed. -/
theorem eq_lineEnd_iff (h : (textLines text)[i]? = some line)
    (hstart : (ofText text).lineStart i ≤ offset) (hend : offset ≤ (ofText text).lineEnd i) :
    offset = (ofText text).lineEnd i ↔
      offset = text.length ∨ text[offset]? = some (.char '\n') := by
  constructor
  · rintro rfl
    exact (at_lineEnd h).symm.imp And.left And.left
  · have hlength := lineEnd_le_length h
    rintro (hlast | hfeed)
    · omega
    · -- before the end stand the characters of the line
      refine Nat.le_antisymm hend (Nat.le_of_not_lt fun hinside => ?_)
      rw [lineEnd_eq h] at hinside
      obtain ⟨rest, hrest⟩ := (isLine h).chars
      have hchar : (line ++ rest)[offset - (ofText text).lineStart i]? = some (.char '\n') := by
        rw [hrest, Nat.sub_zero, List.getElem?_drop, Nat.add_sub_cancel' hstart, hfeed]
      rw [List.getElem?_append_left (by omega)] at hchar
      exact notMem_of_mem_textLines (List.mem_of_getElem? h) (List.mem_of_getElem? hchar)

/-- A line starts at the start of the text or after a line feed. -/
theorem before_lineStart (h : (textLines text)[i]? = some line) :
    (ofText text).lineStart i = 0 ∨ text[(ofText text).lineStart i - 1]? = some (.char '\n') := by
  cases i with
  | zero => exact .inl rfl
  | succ i =>
    have hlt := lt_lineCount h
    obtain ⟨previous, hprevious⟩ := exists_textLine (Nat.lt_of_succ_lt hlt)
    rcases at_lineEnd hprevious with ⟨hfeed, hnext⟩ | ⟨-, hlast⟩
    · rw [lineStart_eq hnext]
      exact .inr hfeed
    · have : i + 1 < (ofText text).starts.length := hlt
      omega

/-- An offset comes back from its position, unless it is inside a line break: there, between the
carriage return and what ends the line, it comes back one less. -/
theorem offsetAt_positionAt_eq (h : offset ≤ text.length) :
    (ofText text).offsetAt ((ofText text).positionAt offset) =
      if 1 ≤ offset ∧ text[offset - 1]? = some (.char '\r') ∧
          (offset = text.length ∨ text[offset]? = some (.char '\n')) then offset - 1
      else offset := by
  obtain ⟨i, line, hline, -, hstart, hend⟩ := exists_line h
  have hcontent : (ofText text).contentEnd i =
      if (ofText text).lineStart i < (ofText text).lineEnd i ∧
          text[(ofText text).lineEnd i - 1]? = some (.char '\r') then (ofText text).lineEnd i - 1
      else (ofText text).lineEnd i := rfl
  rw [offsetAt_positionAt hline hstart hend, hcontent]
  simp only [← eq_lineEnd_iff hline hstart hend]
  by_cases hlast : offset = (ofText text).lineEnd i
  · -- after a carriage return no line starts
    have hsame : (ofText text).lineStart i < offset ∧ text[offset - 1]? = some (.char '\r') ↔
        1 ≤ offset ∧ text[offset - 1]? = some (.char '\r') := by
      refine and_congr_left fun hreturn => ⟨fun hlt => by omega, fun hpos => ?_⟩
      refine Nat.lt_of_le_of_ne hstart fun heq => ?_
      rcases before_lineStart hline with hzero | hfeed
      · omega
      · rw [heq, hreturn] at hfeed
        cases hfeed
    simp only [← hlast, hsame, and_true]
    split <;> omega
  · have hinside : offset < (ofText text).lineEnd i := by omega
    simp only [hlast, and_false, if_false]
    split <;> omega

/-- How offsets and positions of a text are converted into each other.

* Both conversions keep the order.
* A position comes back from its offset just if its line is in the text and its character is at most
  the length of the content of that line.
* An offset, moved into the text, comes back from its position, unless it stands after a carriage
  return and before a line feed or at the end of the text: then the offset before it comes back. -/
theorem conversions (text : Str) :
    (∀ o o' : Int, o ≤ o' → (ofText text).positionAt o ≤ (ofText text).positionAt o') ∧
    (∀ p q : Position, p ≤ q → (ofText text).offsetAt p ≤ (ofText text).offsetAt q) ∧
    (∀ p : Position, (ofText text).positionAt ((ofText text).offsetAt p) = p ↔
      p.line < (ofText text).lineCount ∧
        p.character ≤ (lineContent ((textLines text).getD p.line [])).length) ∧
    ∀ (o : Int) (c : Nat), (c : Int) = min (max o 0) text.length →
      (ofText text).offsetAt ((ofText text).positionAt o) =
        if 1 ≤ c ∧ text[c - 1]? = some (.char '\r') ∧
          (c = text.length ∨ text[c]? = some (.char '\n')) then c - 1
        else c := by
  refine ⟨fun o o' => positionAt_mono text, fun p q => offsetAt_mono text, fun p => ?_,
    fun o c hc => ?_⟩
  · rw [positionAt_offsetAt_iff, List.getD_eq_getElem?_getD, lineCount_ofText]
    constructor
    · rintro ⟨line, hline, hcharacter⟩
      exact ⟨(List.getElem?_eq_some_iff.1 hline).1, by rwa [hline]⟩
    · rintro ⟨hlt, hcharacter⟩
      rw [List.getElem?_eq_getElem hlt] at hcharacter ⊢
      exact ⟨_, rfl, hcharacter⟩
  · obtain rfl : c = min o.toNat text.length := by omega
    rw [positionAt_clamp text o]
    exact offsetAt_positionAt_eq (Nat.min_le_right _ _)

end Content

end LintBridge
