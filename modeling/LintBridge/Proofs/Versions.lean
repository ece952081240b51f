import LintBridge.Proofs.Containment
import LintBridge.Tool.Version
import Mathlib.Algebra.Group.Nat.Defs
import Mathlib.Data.List.Infix
import Mathlib.Data.Prod.Lex

/-!
# LintBridge.Proofs.Versions

Reading the version off the linter's output. `Begins` says, without a reader, which texts start with
a version, and `First` which version of a text is the first one; `firstRows?` finds just that one
(`firstRows?_eq_some_iff`). A version that has begun is over before the linter's name comes again
(`Begins.of_append`), so a text in which there is no version can be put before any other.

Main result: `ofOutput_first`.
-/

namespace LintBridge.Version

open LintBridge.Data LintBridge.Text

variable {text before more digits rest blanks major minor patch : List Char}
  {rows : List (List Char)}

/-! ### Rows of digits -/

/-- A row of decimal digits of any script. -/
structure IsDecimalRow (digits : List Char) : Prop where
  nonempty : digits ≠ []
  digits : ∀ c ∈ digits, isDecimalDigit c = true

/-- A row of ASCII digits. -/
structure IsRow (digits : List Char) : Prop where
  nonempty : digits ≠ []
  digits : ∀ c ∈ digits, c.isDigit = true

theorem IsRow.decimal (h : IsRow digits) : IsDecimalRow digits :=
  ⟨h.nonempty, fun c hc => isDecimalDigit_of_isDigit (h.digits c hc)⟩

theorem all_isDigit (hmajor : IsRow major) (hminor : IsRow minor) (hpatch : IsRow patch) :
    ∀ row ∈ [major, minor, patch], row.all Char.isDigit = true := by
  simp only [List.forall_mem_cons]
  exact ⟨List.all_eq_true.2 hmajor.digits, List.all_eq_true.2 hminor.digits,
    List.all_eq_true.2 hpatch.digits, by simp⟩

theorem isRow_replicate {n : Nat} (hn : 0 < n) {c : Char} (hc : c.isDigit = true) :
    IsRow (List.replicate n c) := by
  refine ⟨by simpa using Nat.ne_of_gt hn, fun d hd => ?_⟩
  rw [List.eq_of_mem_replicate hd]
  exact hc

/-- A run of characters of a class ends before the first that is not in it. -/
theorem span_append {p : Char → Bool} {run : List Char} (hall : ∀ c ∈ run, p c = true)
    (hrest : ∀ c ∈ rest.head?, p c = false) :
    (run ++ rest).takeWhile p = run ∧ (run ++ rest).dropWhile p = rest := by
  rw [List.takeWhile_append_of_pos hall, List.dropWhile_append_of_pos hall]
  cases rest with
  | nil => simp
  | cons c more => simp [hrest c rfl]

theorem head?_dropWhile {p : Char → Bool} : ∀ c ∈ (text.dropWhile p).head?, p c = false := by
  intro c hc
  have hnot := List.head?_dropWhile_not p text
  rw [Option.mem_def.1 hc] at hnot
  exact hnot

theorem row?_eq_some_iff : row? text = some (digits, rest) ↔
    text = digits ++ rest ∧ IsDecimalRow digits ∧ ∀ c ∈ rest.head?, isDecimalDigit c = false := by
  constructor
  · intro h
    unfold row? at h
    split at h
    next => cases h
    next hne =>
      obtain ⟨rfl, rfl⟩ := Prod.mk.inj (Option.some.inj h)
      exact ⟨List.takeWhile_append_dropWhile.symm, ⟨hne, fun c => List.mem_takeWhile_imp⟩,
        head?_dropWhile⟩
  · rintro ⟨rfl, hrow, hrest⟩
    obtain ⟨htake, hdrop⟩ := span_append hrow.digits hrest
    unfold row?
    rw [htake, hdrop]
    split
    next => exact absurd rfl hrow.nonempty
    next => rfl

theorem afterPoint?_eq_some_iff : afterPoint? text = some rest ↔ text = '.' :: rest := by
  unfold afterPoint?
  split
  next => simp
  next h => simpa using fun he => (h _ he).elim

theorem rows?_eq_some_iff : rows? text = some rows ↔ ∃ major minor patch rest,
    text = major ++ '.' :: (minor ++ '.' :: (patch ++ rest)) ∧ rows = [major, minor, patch] ∧
      IsDecimalRow major ∧ IsDecimalRow minor ∧ IsDecimalRow patch ∧
      ∀ c ∈ rest.head?, isDecimalDigit c = false := by
  have hpoint (text : List Char) : ∀ c ∈ ('.' :: text).head?, isDecimalDigit c = false := by
    intro c hc
    obtain rfl : '.' = c := Option.some.inj hc
    decide
  unfold rows?
  simp only [Option.bind_eq_bind, Option.bind_eq_some_iff, Prod.exists, row?_eq_some_iff,
    afterPoint?_eq_some_iff]
  constructor
  · rintro ⟨major, _, ⟨rfl, hmajor, -⟩, _, rfl, minor, _, ⟨rfl, hminor, -⟩, _, rfl, patch, rest,
      ⟨rfl, hpatch, hrest⟩, hrows⟩
    exact ⟨major, minor, patch, rest, rfl, (Option.some.inj hrows).symm, hmajor, hminor, hpatch,
      hrest⟩
  · rintro ⟨major, minor, patch, rest, rfl, rfl, hmajor, hminor, hpatch, hrest⟩
    exact ⟨major, _, ⟨rfl, hmajor, hpoint _⟩, _, rfl, minor, _, ⟨rfl, hminor, hpoint _⟩, _, rfl,
      patch, rest, ⟨rfl, hpatch, hrest⟩, rfl⟩

/-! ### Where a version begins -/

/-- A text starts with a version that some rows of digits spell. The last row is as long as it can
be: no digit follows it. -/
inductive Begins : List Char → List (List Char) → Prop where
  | intro {blanks major minor patch rest : List Char} (hblanks : ∀ c ∈ blanks, isBlank c = true)
      (hne : blanks ≠ []) (hmajor : IsDecimalRow major) (hminor : IsDecimalRow minor)
      (hpatch : IsDecimalRow patch) (hrest : ∀ c ∈ rest.head?, isDecimalDigit c = false) :
      Begins (mark ++ (blanks ++ (major ++ '.' :: (minor ++ '.' :: (patch ++ rest)))))
        [major, minor, patch]

/-- The first and the last of the characters that stand together among the blanks. -/
def blankSpans : List (Nat × Nat) :=
  [(0x09, 0x0D), (0x1C, 0x20), (0x85, 0x85), (0xA0, 0xA0), (0x1680, 0x1680), (0x2000, 0x200A),
    (0x2028, 0x2029), (0x202F, 0x202F), (0x205F, 0x205F), (0x3000, 0x3000)]

theorem exists_blankSpan {c : Char} (h : isBlank c = true) :
    ∃ span ∈ blankSpans, span.1 ≤ c.toNat ∧ c.toNat ≤ span.2 := by
  simp only [isBlank, isWhiteSpace, Bool.or_eq_true, Bool.and_eq_true, decide_eq_true_eq,
    beq_iff_eq] at h
  simp only [blankSpans, List.mem_cons, List.not_mem_nil, or_false, exists_eq_or_imp,
    exists_eq_left]
  omega

theorem isBlank_of_isDecimalDigit {c : Char} (h : isDecimalDigit c = true) : isBlank c = false := by
  have hapart : ∀ first ∈ decimalZeros, ∀ span ∈ blankSpans,
      span.2 < first ∨ first + 9 < span.1 := by decide
  obtain ⟨first, hfirst, hdigit⟩ := List.any_eq_true.1 h
  simp only [Bool.and_eq_true, decide_eq_true_eq] at hdigit
  refine Bool.eq_false_iff.2 fun hblank => ?_
  obtain ⟨span, hspan, hlo, hhi⟩ := exists_blankSpan hblank
  have := hapart first hfirst span hspan
  omega

theorem rowsHere?_eq_some_iff : rowsHere? text = some rows ↔ Begins text rows := by
  constructor
  · intro h
    unfold rowsHere? at h
    split at h
    next hmark =>
      obtain ⟨after, rfl⟩ := List.isPrefixOf_iff_prefix.1 hmark
      rw [List.drop_left] at h
      dsimp only at h
      split at h
      next => cases h
      next hne =>
        obtain ⟨major, minor, patch, rest, hrest, rfl, hmajor, hminor, hpatch, hend⟩ :=
          rows?_eq_some_iff.1 h
        have hafter : after = after.takeWhile isBlank ++
            (major ++ '.' :: (minor ++ '.' :: (patch ++ rest))) := by
          rw [← hrest, List.takeWhile_append_dropWhile]
        rw [hafter]
        refine .intro (fun c => List.mem_takeWhile_imp) ?_ hmajor hminor hpatch hend
        simpa using hne
    next => cases h
  · rintro @⟨blanks, major, minor, patch, rest, hblanks, hne, hmajor, hminor, hpatch, hend⟩
    have hrows := rows?_eq_some_iff.2 ⟨major, minor, patch, rest, rfl, rfl, hmajor, hminor, hpatch,
      hend⟩
    have hfirst : ∀ c ∈ (major ++ '.' :: (minor ++ '.' :: (patch ++ rest))).head?,
        isBlank c = false := by
      intro c hc
      obtain ⟨first, others, rfl⟩ := List.exists_cons_of_ne_nil hmajor.nonempty
      obtain rfl : first = c := Option.some.inj hc
      exact isBlank_of_isDecimalDigit (hmajor.digits first List.mem_cons_self)
    obtain ⟨htake, hdrop⟩ := span_append hblanks hfirst
    unfold rowsHere?
    rw [if_pos (List.isPrefixOf_iff_prefix.2 (List.prefix_append _ _)), List.drop_left]
    dsimp only
    rw [htake, hdrop, if_neg (by simpa using hne), hrows]

/-! ### The first version -/

/-- Some version begins in a text. -/
def Holds (text : List Char) : Prop :=
  ∃ after rows, after <:+ text ∧ Begins after rows

/-- The first version in a text is spelled by some rows of digits. -/
def First (text : List Char) (rows : List (List Char)) : Prop :=
  ∃ after, after <:+ text ∧ Begins after rows ∧
    ∀ earlier, earlier <:+ text → after.length < earlier.length → ∀ others, ¬ Begins earlier others

theorem not_begins_nil : ¬ Begins [] rows := by
  rintro ⟨⟩

theorem firstRows?_eq_some_iff : firstRows? text = some rows ↔ First text rows := by
  induction text with
  | nil =>
    refine iff_of_false (by simp [firstRows?]) ?_
    rintro ⟨after, hafter, hbegins, -⟩
    rw [List.suffix_nil.1 hafter] at hbegins
    exact not_begins_nil hbegins
  | cons c text ih =>
    unfold firstRows?
    cases hhere : rowsHere? (c :: text) with
    | some here =>
      have hbegins := rowsHere?_eq_some_iff.1 hhere
      constructor
      · intro h
        obtain rfl := Option.some.inj h
        refine ⟨c :: text, List.suffix_refl _, hbegins, fun earlier hearlier hlength => ?_⟩
        exact absurd hearlier.length_le (Nat.not_le.2 hlength)
      · rintro ⟨after, hafter, hrows, hfirst⟩
        have hlength : ¬ after.length < (c :: text).length :=
          fun hlt => hfirst _ (List.suffix_refl _) hlt here hbegins
        have hle := hafter.length_le
        obtain rfl : after = c :: text := hafter.eq_of_length (by omega)
        exact hhere.symm.trans (rowsHere?_eq_some_iff.2 hrows)
    | none =>
      have hnot (others : List (List Char)) : ¬ Begins (c :: text) others := fun h => by
        simp [rowsHere?_eq_some_iff.2 h] at hhere
      refine ih.trans ⟨?_, ?_⟩
      · rintro ⟨after, hafter, hrows, hfirst⟩
        refine ⟨after, hafter.trans (List.suffix_cons _ _), hrows,
          fun earlier hearlier hlength => ?_⟩
        rcases List.suffix_cons_iff.1 hearlier with rfl | hearlier
        · exact hnot
        · exact hfirst earlier hearlier hlength
      · rintro ⟨after, hafter, hrows, hfirst⟩
        rcases List.suffix_cons_iff.1 hafter with rfl | hafter
        · exact absurd hrows (hnot rows)
        · exact ⟨after, hafter, hrows,
            fun earlier hearlier => hfirst earlier (hearlier.trans (List.suffix_cons _ _))⟩

theorem firstRows?_eq_none_iff : firstRows? text = none ↔ ¬ Holds text := by
  induction text with
  | nil =>
    refine iff_of_true rfl ?_
    rintro ⟨after, rows, hafter, hbegins⟩
    rw [List.suffix_nil.1 hafter] at hbegins
    exact not_begins_nil hbegins
  | cons c text ih =>
    unfold firstRows?
    cases hhere : rowsHere? (c :: text) with
    | some here =>
      refine iff_of_false (by simp) (not_not.2 ?_)
      exact ⟨c :: text, here, List.suffix_refl _, rowsHere?_eq_some_iff.1 hhere⟩
    | none =>
      refine ih.trans (not_congr ⟨?_, ?_⟩)
      · rintro ⟨after, rows, hafter, hbegins⟩
        exact ⟨after, rows, hafter.trans (List.suffix_cons _ _), hbegins⟩
      · rintro ⟨after, rows, hafter, hbegins⟩
        rcases List.suffix_cons_iff.1 hafter with rfl | hafter
        · simp [rowsHere?_eq_some_iff.2 hbegins] at hhere
        · exact ⟨after, rows, hafter, hbegins⟩

/-! ### What comes before a version -/

/-- No part of the linter's name is both at its start and at its end. -/
theorem mark_unbordered {part : List Char} (hstart : part <+: mark) (hend : part <:+ mark) :
    part = [] ∨ part = mark := by
  have hall : ∀ part ∈ mark.tails, part <+: mark → part = [] ∨ part = mark := by decide
  exact hall part ((List.mem_tails part mark).2 hend) hstart

/-- Two of the linter's names in a text do not overlap. -/
theorem mark_prefix_of_append (h : before ++ (mark ++ more) = mark ++ rest) (hne : before ≠ []) :
    mark <+: before := by
  rcases List.append_eq_append_iff.1 h with ⟨part, hmark, hrest⟩ | ⟨part, rfl, -⟩
  · have hend : part <:+ mark := hmark ▸ List.suffix_append before part
    have hstart : part <+: mark := by
      have hboth : part <+: mark ++ more := hrest ▸ List.prefix_append part rest
      exact List.prefix_of_prefix_length_le hboth (List.prefix_append _ _) hend.length_le
    rcases mark_unbordered hstart hend with rfl | rfl
    · rw [List.append_nil] at hmark
      exact hmark ▸ List.prefix_refl mark
    · exact absurd (by simpa using hmark) hne
  · exact List.prefix_append _ _

/-- What a version is spelled with after the linter's name does not occur in that name. -/
theorem notMem_numbers (hblanks : ∀ c ∈ blanks, isBlank c = true) (hmajor : IsDecimalRow major)
    (hminor : IsDecimalRow minor) (hpatch : IsDecimalRow patch) :
    'n' ∉ blanks ++ (major ++ '.' :: (minor ++ '.' :: patch)) := by
  have hblank : 'n' ∉ blanks := fun h => absurd (hblanks _ h) (by decide)
  have hdigit {digits : List Char} (h : IsDecimalRow digits) : 'n' ∉ digits :=
    fun hmem => absurd (h.digits _ hmem) (by decide)
  simp [hblank, hdigit hmajor, hdigit hminor, hdigit hpatch]

/-- A version that has begun is over before the linter's name comes again. -/
theorem Begins.of_append (h : Begins (before ++ (mark ++ more)) rows) (hne : before ≠ []) :
    Begins before rows := by
  generalize hall : before ++ (mark ++ more) = all at h
  obtain @⟨blanks, major, minor, patch, rest, hblanks, hnonempty, hmajor, hminor, hpatch, hend⟩ := h
  obtain ⟨taken, rfl⟩ := mark_prefix_of_append hall hne
  have hn := notMem_numbers hblanks hmajor hminor hpatch
  obtain ⟨left, rfl, hleft⟩ : ∃ left,
      taken = blanks ++ (major ++ '.' :: (minor ++ '.' :: patch)) ++ left ∧
        ∀ c ∈ left.head?, isDecimalDigit c = false := by
    have hsplit : taken ++ (mark ++ more) =
        blanks ++ (major ++ '.' :: (minor ++ '.' :: patch)) ++ rest := by
      simpa using hall
    rcases List.append_eq_append_iff.1 hsplit with ⟨part, hpart, hrest⟩ | ⟨left, rfl, rfl⟩
    · cases part with
      | nil => exact ⟨[], by simpa using hpart.symm, by simp⟩
      | cons c part =>
        obtain rfl : 'n' = c := (List.cons.inj hrest).1
        exact absurd (hpart ▸ by simp) hn
    · refine ⟨left, rfl, fun c hc => hend c ?_⟩
      rw [List.head?_append, hc]
      rfl
  simpa using Begins.intro hblanks hnonempty hmajor hminor hpatch hleft

/-- A text without versions does not matter to what comes after it, if that begins with the
linter's name. -/
theorem first_append (hbefore : ¬ Holds before) (h : Begins (mark ++ more) rows) :
    First (before ++ (mark ++ more)) rows := by
  refine ⟨mark ++ more, List.suffix_append _ _, h,
    fun earlier hearlier hlength others hbegins => ?_⟩
  obtain ⟨part, rfl⟩ :=
    List.suffix_of_suffix_length_le (List.suffix_append _ _) hearlier (Nat.le_of_lt hlength)
  have hne : part ≠ [] := by
    rintro rfl
    simp at hlength
  obtain ⟨start, hstart⟩ := hearlier
  rw [← List.append_assoc] at hstart
  exact hbefore ⟨part, others, ⟨start, List.append_cancel_right hstart⟩, hbegins.of_append hne⟩

/-! ### The version that is read -/

theorem First.unique {others : List (List Char)} (h : First text rows) (h' : First text others) :
    rows = others :=
  Option.some.inj ((firstRows?_eq_some_iff.2 h).symm.trans (firstRows?_eq_some_iff.2 h'))

theorem First.exists_rows (h : First text rows) :
    ∃ major minor patch, rows = [major, minor, patch] := by
  obtain ⟨after, -, hbegins, -⟩ := h
  cases hbegins
  exact ⟨_, _, _, rfl⟩

theorem ofOutput_of_not_holds (h : ¬ Holds text) : ofOutput text = .ok none := by
  unfold ofOutput
  rw [firstRows?_eq_none_iff.2 h]

/-- What is read depends on the first version only. -/
theorem ofOutput_of_first (h : First text [major, minor, patch]) : ofOutput text =
    if ∀ row ∈ [major, minor, patch], row.all Char.isDigit = true then
      if ∃ row ∈ [major, minor, patch], Json.maxIntDigits < row.length then
        .error .oversizedInteger
      else .ok (some ⟨digitsValue major, digitsValue minor, digitsValue patch⟩)
    else .ok none := by
  have hdigits : ([major, minor, patch].any fun row => !row.all Char.isDigit) = true ↔
      ¬ ∀ row ∈ [major, minor, patch], row.all Char.isDigit = true := by
    simp only [List.any_eq_true, Bool.not_eq_true', not_forall, Bool.not_eq_true, exists_prop]
  have hlong : ([major, minor, patch].any fun row => Json.maxIntDigits < row.length) = true ↔
      ∃ row ∈ [major, minor, patch], Json.maxIntDigits < row.length := by
    simp only [List.any_eq_true, decide_eq_true_eq]
  unfold ofOutput
  rw [firstRows?_eq_some_iff.2 h]
  simp only [hdigits, hlong, ite_not]

/-- The first version in a text is spelled with ASCII digits, and one of its numbers with more of
them than are read. -/
def Overlong (text : List Char) : Prop :=
  ∃ rows, First text rows ∧ (∀ row ∈ rows, row.all Char.isDigit = true) ∧
    ∃ row ∈ rows, Json.maxIntDigits < row.length

theorem ofOutput_eq_error_iff {fault : Fault} :
    ofOutput text = .error fault ↔ Overlong text ∧ fault = .oversizedInteger := by
  by_cases hfirst : ∃ rows, First text rows
  · obtain ⟨rows, hrows⟩ := hfirst
    have hoverlong : Overlong text ↔ (∀ row ∈ rows, row.all Char.isDigit = true) ∧
        ∃ row ∈ rows, Json.maxIntDigits < row.length := by
      refine ⟨?_, fun h => ⟨rows, hrows, h⟩⟩
      rintro ⟨others, hothers, h⟩
      exact hrows.unique hothers ▸ h
    obtain ⟨major, minor, patch, rfl⟩ := hrows.exists_rows
    rw [hoverlong, ofOutput_of_first hrows]
    split
    next hdigits =>
      split
      next hlong =>
        rw [Except.error.injEq, and_iff_right ⟨hdigits, hlong⟩]
        exact eq_comm
      next hshort => exact iff_of_false (by simp) fun h => hshort h.1.2
    next hnot => exact iff_of_false (by simp) fun h => hnot h.1.1
  · have hnone : firstRows? text = none := by
      refine Option.eq_none_iff_forall_not_mem.2 fun rows hrows => hfirst ⟨rows, ?_⟩
      exact firstRows?_eq_some_iff.1 hrows
    rw [ofOutput_of_not_holds (firstRows?_eq_none_iff.1 hnone)]
    refine iff_of_false (by simp) ?_
    rintro ⟨⟨rows, hrows, -⟩, -⟩
    exact hfirst ⟨rows, hrows⟩

theorem first_spelled (hbefore : ¬ Holds before) (hblanks : ∀ c ∈ blanks, isBlank c = true)
    (hne : blanks ≠ []) (hmajor : IsRow major) (hminor : IsRow minor) (hpatch : IsRow patch)
    (hrest : ∀ c ∈ rest.head?, isDecimalDigit c = false) :
    First (before ++ (mark ++ (blanks ++ (major ++ '.' :: (minor ++ '.' :: (patch ++ rest))))))
      [major, minor, patch] :=
  first_append hbefore (.intro hblanks hne hmajor.decimal hminor.decimal hpatch.decimal hrest)

/-- An output that begins with a version is read as that version, provided that integers of that
length are read. -/
theorem ofOutput_spelled (hblanks : ∀ c ∈ blanks, isBlank c = true) (hne : blanks ≠ [])
    (hmajor : IsRow major) (hminor : IsRow minor) (hpatch : IsRow patch)
    (hrest : ∀ c ∈ rest.head?, isDecimalDigit c = false) :
    ofOutput (mark ++ (blanks ++ (major ++ '.' :: (minor ++ '.' :: (patch ++ rest))))) =
      if [major, minor, patch].any fun row => Json.maxIntDigits < row.length then
        .error .oversizedInteger
      else .ok (some ⟨digitsValue major, digitsValue minor, digitsValue patch⟩) := by
  have hnone : ¬ Holds [] := firstRows?_eq_none_iff.1 rfl
  have hfirst := first_spelled hnone hblanks hne hmajor hminor hpatch hrest
  rw [List.nil_append] at hfirst
  rw [ofOutput_of_first hfirst, if_pos (all_isDigit hmajor hminor hpatch)]
  simp only [List.any_eq_true, decide_eq_true_eq]

/-! ### The numbers that rows of digits spell -/

/-- A row of ASCII digits that spells a number, perhaps after some zeros. -/
structure Spells (row : List Char) (n : ℕ) : Prop extends IsRow row where
  value : digitsValue row = n

theorem spells_toDigits (n : ℕ) : Spells (Nat.toDigits 10 n) n :=
  ⟨⟨Nat.toDigits_ne_nil, fun _ => Nat.isDigit_of_mem_toDigits (by decide) (by decide)⟩,
    Nat.ofDigitChars_ten_toDigits⟩

theorem toList_toText (a b c : ℕ) : (toText ⟨a, b, c⟩).toList =
    Nat.toDigits 10 a ++ '.' :: (Nat.toDigits 10 b ++ '.' :: Nat.toDigits 10 c) := by
  have hrepr (n : ℕ) : (n : ℤ).repr.toList = Nat.toDigits 10 n := by
    simp [Int.repr_eq_if]
  have hpoint : (toString ".").toList = ['.'] := rfl
  simp [toText, hrepr, hpoint]

/-! ### Newer and older versions -/

/-- Versions are compared by their numbers, the first of them before the others. -/
def key (v : Version) : ℤ ×ₗ ℤ ×ₗ ℤ :=
  toLex (v.major, toLex (v.minor, v.patch))

theorem format_eq_ranged_iff {v : Version} (hmajor : 0 ≤ v.major) (hminor : 0 ≤ v.minor) :
    v.format = .ranged ↔ key ⟨0, 0, rangedSince⟩ ≤ key v := by
  have hformat : v.format = .ranged ↔ 0 < v.major ∨ 0 < v.minor ∨ rangedSince ≤ v.patch := by
    unfold format
    split <;> simp_all
  rw [hformat, key, key, Prod.Lex.toLex_le_toLex, Prod.Lex.toLex_le_toLex]
  dsimp only
  omega

/-- The version in an output is the first one that is spelled there, and the format that goes with
it is the ranged one since some version.

* Wherever that version is, only what comes before it matters, and its numbers may be spelled with
  leading zeros. A version is read back from its own text.
* In an output without versions there is nothing to read.
* A newer version knows all formats that an older one knows. -/
theorem ofOutput_first (hbefore : ¬ Holds before) (hblanks : ∀ c ∈ blanks, isBlank c = true)
    (hne : blanks ≠ []) (hrest : ∀ c ∈ rest.head?, isDecimalDigit c = false) :
    (∀ (a b c : ℕ) (major minor patch : List Char),
      Spells major a → Spells minor b → Spells patch c →
      (∀ row ∈ [major, minor, patch], row.length ≤ Json.maxIntDigits) →
        ofOutput (before ++ (mark ++ (blanks ++
          (major ++ '.' :: (minor ++ '.' :: (patch ++ rest)))))) = .ok (some ⟨a, b, c⟩) ∧
        (format ⟨a, b, c⟩ = .ranged ↔ key ⟨0, 0, 37⟩ ≤ key ⟨a, b, c⟩)) ∧
    (∀ a b c : ℕ, (∀ n ∈ [a, b, c], n < 10 ^ Json.maxIntDigits) →
      ofOutput (before ++ (mark ++ (blanks ++ ((toText ⟨a, b, c⟩).toList ++ rest)))) =
        .ok (some ⟨a, b, c⟩)) ∧
    (∀ text, ¬ Holds text → ofOutput text = .ok none) ∧
    ∀ a b c a' b' c' : ℕ, key ⟨a, b, c⟩ ≤ key ⟨a', b', c'⟩ →
      format ⟨a, b, c⟩ = .ranged → format ⟨a', b', c'⟩ = .ranged := by
  have hformat (a b c : ℕ) : format ⟨a, b, c⟩ = .ranged ↔ key ⟨0, 0, 37⟩ ≤ key ⟨a, b, c⟩ :=
    format_eq_ranged_iff (Int.natCast_nonneg a) (Int.natCast_nonneg b)
  have hread (a b c : ℕ) (major minor patch : List Char) (hmajor : Spells major a)
      (hminor : Spells minor b) (hpatch : Spells patch c)
      (hlength : ∀ row ∈ [major, minor, patch], row.length ≤ Json.maxIntDigits) :
      ofOutput (before ++ (mark ++ (blanks ++
        (major ++ '.' :: (minor ++ '.' :: (patch ++ rest)))))) = .ok (some ⟨a, b, c⟩) := by
    have hfirst := first_spelled hbefore hblanks hne hmajor.toIsRow hminor.toIsRow hpatch.toIsRow
      hrest
    have hdigits := all_isDigit hmajor.toIsRow hminor.toIsRow hpatch.toIsRow
    have hshort : ¬ ∃ row ∈ [major, minor, patch], Json.maxIntDigits < row.length := by
      simpa using hlength
    rw [ofOutput_of_first hfirst, if_pos hdigits, if_neg hshort, hmajor.value, hminor.value,
      hpatch.value]
  refine ⟨fun a b c major minor patch hmajor hminor hpatch hlength =>
    ⟨hread a b c major minor patch hmajor hminor hpatch hlength, hformat a b c⟩,
    fun a b c hbound => ?_, fun text => ofOutput_of_not_holds, fun a b c a' b' c' hle hranged => ?_⟩
  · have hlength : ∀ row ∈ [Nat.toDigits 10 a, Nat.toDigits 10 b, Nat.toDigits 10 c],
        row.length ≤ Json.maxIntDigits := by
      have hpos : 0 < Json.maxIntDigits := by decide
      intro row hrow
      obtain ⟨n, hn, rfl⟩ : ∃ n ∈ [a, b, c], row = Nat.toDigits 10 n := by simpa using hrow
      exact (Nat.length_toDigits_le_iff (by decide) hpos).2 (hbound n hn)
    have h := hread a b c _ _ _ (spells_toDigits a) (spells_toDigits b) (spells_toDigits c) hlength
    simpa [toList_toText] using h
  · exact (hformat a' b' c').2 (((hformat a b c).1 hranged).trans hle)

/-- After the linter's name and a version that breaks off, the version that counts is the next one,
after a tab and with leading zeros. -/
theorem ofOutput_first_broken : ¬ Holds "nu-lint 1.2 ".toList ∧
    ofOutput "nu-lint 1.2 nu-lint\t00.0.37-nu-lint 9.9.9".toList = .ok (some ⟨0, 0, 37⟩) ∧
      format ⟨0, 0, 37⟩ = .ranged := by
  have hbefore : ¬ Holds "nu-lint 1.2 ".toList := firstRows?_eq_none_iff.1 (by decide)
  have hblanks : ∀ c ∈ ['\t'], isBlank c = true := List.forall_mem_singleton.2 rfl
  have hrest : ∀ c ∈ "-nu-lint 9.9.9".toList.head?, isDecimalDigit c = false := by
    intro c hc
    obtain rfl : '-' = c := Option.some.inj hc
    rfl
  have hspells {row : List Char} {n : ℕ} (hne : row ≠ []) (hall : row.all Char.isDigit = true)
      (hvalue : digitsValue row = n) : Spells row n :=
    ⟨⟨hne, List.all_eq_true.1 hall⟩, hvalue⟩
  have h := (ofOutput_first hbefore hblanks (by decide) hrest).1 0 0 37 ['0', '0'] ['0'] ['3', '7']
    (hspells (by decide) rfl rfl) (hspells (by decide) rfl rfl) (hspells (by decide) rfl rfl)
    (by decide)
  exact ⟨hbefore, h.1, h.2.2 (by decide)⟩

end LintBridge.Version
