import LintBridge.Proofs.Reading
import LintBridge.Report.Output

/-!
# LintBridge.Proofs.Containment

Which failures reading the linter's output can end with. A caller expects a report or a rejection
that names the format it asked for (`Report.Contained`), and gets one of them unless the JSON reader
gives up on an integer that is too long, or on arrays and objects that are nested too deep. Those
faults are not taken for rejections, so they escape.

Main result: `Report.parse_contained_iff`. By `Json.parse_long_integer` the reader gives up on every
text that begins with such an integer, and by `Json.parse_replicate` on every text that begins with
more brackets than there is room for.
-/

namespace LintBridge.Data.Json

open LintBridge.Text

variable {room : Nat} {digits rest text : List Char} {c d : Char}

/-! ### Integers that are too long -/

theorem ne_of_isDigit (hc : c.isDigit = true) (hd : d.isDigit = false) : c ≠ d := by
  rintro rfl
  rw [hc] at hd
  exact Bool.noConfusion hd

/-- The whole part of a number ends before the first character that is no digit. -/
theorem whole_digits_append (hall : ∀ c ∈ digits, c.isDigit = true) (hne : digits ≠ [])
    (hzero : digits.head? ≠ some '0') (hrest : ∀ c ∈ rest.head?, c.isDigit = false) :
    whole (digits ++ rest) = (digits, rest) := by
  unfold whole
  split
  next after htext =>
    obtain ⟨c, more, rfl⟩ := List.exists_cons_of_ne_nil hne
    obtain ⟨rfl, -⟩ := List.cons.inj htext
    exact absurd rfl hzero
  · rw [List.takeWhile_append_of_pos hall, List.dropWhile_append_of_pos hall]
    cases rest with
    | nil => simp
    | cons c more => simp [hrest c rfl]

/-- No fixed word begins with a digit. -/
theorem word?_of_isDigit (hc : c.isDigit = true) : word? (c :: text) = none := by
  have hheads : ∀ entry ∈ words, entry.1.head?.any Char.isDigit = false ∧ entry.1 ≠ [] := by decide
  refine List.findSome?_eq_none_iff.2 fun ⟨word, v⟩ hword => ?_
  obtain ⟨hhead, hne⟩ := hheads _ hword
  obtain ⟨first, others, rfl⟩ := List.exists_cons_of_ne_nil hne
  have hfirst : first ≠ c := (ne_of_isDigit hc hhead).symm
  simp [hfirst]

/-- A value that begins with a digit is a number. -/
theorem value_of_isDigit (hc : c.isDigit = true) (fuel : Nat) :
    value (fuel + 1) room (c :: text) = number (c :: text) := by
  unfold value
  split
  next h => exact absurd (List.cons.inj h).1 (ne_of_isDigit hc rfl)
  next h => exact absurd (List.cons.inj h).1 (ne_of_isDigit hc rfl)
  next h => exact absurd (List.cons.inj h).1 (ne_of_isDigit hc rfl)
  · rw [word?_of_isDigit hc]

theorem number_long_integer (hall : ∀ c ∈ digits, c.isDigit = true)
    (hlong : maxIntDigits < digits.length) (hzero : digits.head? ≠ some '0')
    (hrest : ∀ c ∈ rest.head?, c.isDigit = false) (hfraction : fraction? rest = none)
    (hexponent : exponent? rest = none) : number (digits ++ rest) = .error .oversized := by
  have hne : digits ≠ [] := List.ne_nil_of_length_pos (by omega)
  unfold number
  split
  next negative unsigned hsign =>
    have hunsigned : unsigned = digits ++ rest := by
      split at hsign
      next after htext =>
        obtain ⟨c, more, rfl⟩ := List.exists_cons_of_ne_nil hne
        have hc : c.isDigit = true := hall c List.mem_cons_self
        exact absurd (List.cons.inj htext).1 (ne_of_isDigit hc rfl)
      · exact (Prod.mk.inj hsign).2.symm
    rw [hunsigned, whole_digits_append hall hne hzero hrest]
    dsimp only
    rw [if_neg (by simpa using hne), hfraction]
    dsimp only [Option.map_none, Option.getD_none]
    rw [hexponent]
    exact if_pos hlong

/-- A text that begins with an integer of too many digits is given up, whatever follows it. -/
theorem parse_long_integer (hall : ∀ c ∈ digits, c.isDigit = true)
    (hlong : maxIntDigits < digits.length) (hzero : digits.head? ≠ some '0')
    (hrest : ∀ c ∈ rest.head?, c.isDigit = false) (hfraction : fraction? rest = none)
    (hexponent : exponent? rest = none) : parse room (digits ++ rest) = .error .oversized := by
  have hnumber := number_long_integer hall hlong hzero hrest hfraction hexponent
  obtain ⟨c, more, rfl⟩ := List.exists_cons_of_ne_nil
    (List.ne_nil_of_length_pos (by omega) : digits ≠ [])
  have hc : c.isDigit = true := hall c List.mem_cons_self
  have hspace : isSpace c = false := by
    simp [isSpace, ne_of_isDigit hc]
  rw [List.cons_append] at hnumber ⊢
  unfold parse
  dsimp only
  split
  next h => exact absurd (List.cons.inj h).1 (ne_of_isDigit hc rfl)
  · rw [skipSpace, List.dropWhile_cons_of_neg (by simpa using hspace), value_of_isDigit hc, hnumber]

end LintBridge.Data.Json

namespace LintBridge.Report

open LintBridge.Data LintBridge.Text

variable {room : Nat} {format : Format} {output : List Char}

/-! ### What escapes -/

/-- A caller who asked for the format is prepared for the outcome. -/
def Contained (format : Format) : Except Failure Report → Prop
  | .ok _ => True
  | .error failure => ∃ reason, failure = .lint (.rejected format reason)

theorem contained_ofFields (format : Format) (fields : Fields) :
    Contained format ((ofFields format fields).mapError .lint) := by
  unfold ofFields
  split
  · trivial
  · exact ⟨_, rfl⟩

theorem isBlank_of_isDigit {c : Char} (h : c.isDigit = true) : isBlank c = false := by
  have hbounds : 48 ≤ c.toNat ∧ c.toNat ≤ 57 := by
    simp only [Char.isDigit, Bool.and_eq_true, decide_eq_true_eq] at h
    exact ⟨UInt32.le_iff_toNat_le.1 h.1, UInt32.le_iff_toNat_le.1 h.2⟩
  simp only [isBlank, isWhiteSpace, Bool.or_eq_false_iff, Bool.and_eq_false_iff,
    decide_eq_false_iff_not, beq_eq_false_iff_ne]
  omega

/-- There is no integer in a blank text. -/
theorem parse_ne_oversized_of_blank (h : output.all isBlank = true) :
    Json.parse room output ≠ .error .oversized := by
  intro hparse
  obtain ⟨digits, rest, hsuffix, hall, hlong, -⟩ := Json.hasLongInteger_of_parse hparse
  obtain ⟨c, hc⟩ := List.exists_mem_of_length_pos (by omega : 0 < digits.length)
  have hmem : c ∈ output := hsuffix.subset (List.mem_append_left rest hc)
  have hblank := List.all_eq_true.1 h c hmem
  rw [isBlank_of_isDigit (hall c hc)] at hblank
  exact Bool.noConfusion hblank

/-- Nor is there a bracket. -/
theorem parse_ne_tooDeep_of_blank (h : output.all isBlank = true) :
    Json.parse room output ≠ .error .tooDeep := by
  intro hparse
  have hopens : 0 < Json.opens output := Nat.lt_of_le_of_lt (Nat.zero_le _)
    (Json.lt_opens_of_parse hparse)
  obtain ⟨c, hc, hbracket⟩ := List.countP_pos_iff.1 hopens
  have hblank := List.all_eq_true.1 h c hc
  obtain rfl | rfl : c = '[' ∨ c = '{' := by simpa using hbracket
  all_goals exact absurd hblank (by decide)

/-- The faults of the reader are passed on as they are. -/
theorem parse_of_oversized (format : Format) (h : Json.parse room output = .error .oversized) :
    parse room format output = .error (.fault .oversizedInteger) := by
  have hblank : ¬ output.all isBlank = true := fun hblank => parse_ne_oversized_of_blank hblank h
  unfold parse ofJson
  rw [if_neg hblank, h]

theorem parse_of_tooDeep (format : Format) (h : Json.parse room output = .error .tooDeep) :
    parse room format output = .error (.fault .tooDeep) := by
  have hblank : ¬ output.all isBlank = true := fun hblank => parse_ne_tooDeep_of_blank hblank h
  unfold parse ofJson
  rw [if_neg hblank, h]

theorem contained_parse (format : Format) (hsize : Json.parse room output ≠ .error .oversized)
    (hdepth : Json.parse room output ≠ .error .tooDeep) :
    Contained format (parse room format output) := by
  unfold parse
  split
  · trivial
  · unfold ofJson
    split
    next hparse => exact absurd hparse hsize
    next hparse => exact absurd hparse hdepth
    · exact ⟨_, rfl⟩
    next fields _ => exact contained_ofFields format fields
    · exact ⟨_, rfl⟩

theorem not_contained_fault (format : Format) (fault : Fault) :
    ¬ Contained format (.error (.fault fault)) := by
  rintro ⟨reason, hreason⟩
  exact Failure.noConfusion hreason

/-- A report or a rejection in the format is what comes of every output, however much room there is
for nested arrays and objects. The exceptions are an integer that the JSON reader refuses for its
length and nesting for which there is no room; both come out as faults. -/
theorem parse_contained_iff (room : Nat) (format : Format) (output : List Char) :
    (Contained format (parse room format output) ↔
      Json.parse room output ≠ .error .oversized ∧ Json.parse room output ≠ .error .tooDeep) ∧
      (Json.parse room output = .error .oversized →
        parse room format output = .error (.fault .oversizedInteger) ∧
          Json.HasLongInteger output) ∧
      (Json.parse room output = .error .tooDeep →
        parse room format output = .error (.fault .tooDeep) ∧ room < Json.opens output) := by
  refine ⟨⟨fun hcontained => ⟨fun hparse => ?_, fun hparse => ?_⟩,
    fun h => contained_parse format h.1 h.2⟩,
    fun hparse => ⟨parse_of_oversized format hparse, Json.hasLongInteger_of_parse hparse⟩,
    fun hparse => ⟨parse_of_tooDeep format hparse, Json.lt_opens_of_parse hparse⟩⟩
  · rw [parse_of_oversized format hparse] at hcontained
    exact not_contained_fault format _ hcontained
  · rw [parse_of_tooDeep format hparse] at hcontained
    exact not_contained_fault format _ hcontained

end LintBridge.Report

namespace LintBridge.Sample

open LintBridge.Data

/-- An output of nothing but one digit more than an integer may have. -/
theorem parse_ones_escapes :
    Report.parse 900 .legacy (List.replicate 4301 '1') = .error (.fault .oversizedInteger) ∧
      ¬ Report.Contained .legacy (Report.parse 900 .legacy (List.replicate 4301 '1')) := by
  have hread (n : Nat) (hn : Json.maxIntDigits < n) :
      Json.parse 900 (List.replicate n '1') = .error .oversized := by
    have hparse : Json.parse 900 (List.replicate n '1' ++ []) = .error .oversized := by
      refine Json.parse_long_integer ?_ ?_ ?_ ?_ rfl rfl
      · intro c hc
        rw [List.eq_of_mem_replicate hc]
        rfl
      · rwa [List.length_replicate]
      · rw [List.head?_replicate]
        split
        · simp
        · decide
      · intro c hc
        simp at hc
    rwa [List.append_nil] at hparse
  have hparse := Report.parse_of_oversized .legacy (hread 4301 (by decide))
  refine ⟨hparse, ?_⟩
  rw [hparse]
  exact Report.not_contained_fault _ _

end LintBridge.Sample
