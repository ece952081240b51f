/-!
# LintBridge.Text.Letter

Texts that need not be Unicode. A letter is a character, or a unit of some other kind that stands
where a character should be. Two kinds of units occur:

* A document that escapes UTF-16 units can spell one *half* of a surrogate pair alone. Whatever
  comes out of a document, and whatever is made of that, is a `Str`.
* The name of a file is a row of bytes, and a byte that is not part of UTF-8 is *stray*. Whatever
  names a file is a `Spelling`.

A stray byte is told to those who ask for a `Str` as one of the halves (`Spelling.toStr`). The other
halves stand for nothing that a name could hold, so not every `Str` names a file (`Str.spelling?`).
-/

namespace LintBridge

/-- A character, or a unit that is none. -/
inductive Letter (υ : Type) where
  | char (c : Char)
  | unit (u : υ)
  deriving DecidableEq, Repr

/-- A text in which units may stand where characters should be. -/
abbrev Letters (υ : Type) := List (Letter υ)

/-- Half a surrogate pair, counted from U+D800. -/
abbrev Half := Fin 0x800

/-- A byte that is not part of UTF-8, counted from 0x80. -/
abbrev Stray := Fin 0x80

/-- A text as documents spell it. -/
abbrev Str := Letters Half

/-- A text as it names a file. -/
abbrev Spelling := Letters Stray

namespace Letter

variable {υ υ' : Type}

instance : Coe Char (Letter υ) := ⟨char⟩

/-- The character, if the letter is one. -/
def char? : Letter υ → Option Char
  | char c => some c
  | unit _ => none

/-- The letter with its unit converted, if it is one. -/
def map (f : υ → υ') : Letter υ → Letter υ'
  | char c => char c
  | unit u => unit (f u)

/-- The letter as it is shown: a unit counts as three broken bytes. -/
def shown : Letter υ → List Char
  | char c => [c]
  | unit _ => ['\uFFFD', '\uFFFD', '\uFFFD']

end Letter

namespace Letters

variable {υ : Type}

/-- The letters of a proper text. -/
def ofString (text : String) : Letters υ :=
  text.toList.map .char

instance : Coe String (Letters υ) := ⟨ofString⟩

/-- The characters, if every letter is one. -/
def chars? (text : Letters υ) : Option (List Char) :=
  text.mapM Letter.char?

/-- The text, if every letter is a character. -/
def toString? (text : Letters υ) : Option String :=
  text.chars?.map String.ofList

/-- The text for showing. -/
def shown (text : Letters υ) : String :=
  String.ofList (text.flatMap Letter.shown)

@[simp] theorem ofString_inj {a b : String} : (ofString a : Letters υ) = ofString b ↔ a = b := by
  refine ⟨fun h => String.ext ?_, congrArg _⟩
  exact (List.map_inj_right fun _ _ => Letter.char.inj).1 h

@[simp] theorem ofString_eq_nil {text : String} : (ofString text : Letters υ) = [] ↔ text = "" := by
  simp [ofString]

@[simp] theorem char_mem_ofString {c : Char} {text : String} :
    .char c ∈ (ofString text : Letters υ) ↔ c ∈ text.toList := by
  simp [ofString]

theorem ofString_append (a b : String) :
    (ofString (a ++ b) : Letters υ) = ofString a ++ ofString b := by
  simp [ofString]

/-- Every letter is a character. -/
def IsProper (text : Letters υ) : Prop :=
  ∀ u, .unit u ∉ text

variable {text : Letters υ}

theorem chars?_eq_some_iff {chars : List Char} :
    text.chars? = some chars ↔ text = chars.map .char := by
  unfold chars?
  induction text generalizing chars with
  | nil => cases chars <;> simp
  | cons l rest ih =>
    cases l with
    | unit u => cases chars <;> simp [Letter.char?]
    | char c =>
      cases chars with
      | nil => simp [Letter.char?, Option.bind_eq_some_iff]
      | cons d others => simpa [Letter.char?, Option.bind_eq_some_iff, ih] using and_comm

@[simp] theorem chars?_ofString (text : String) :
    (ofString text : Letters υ).chars? = some text.toList :=
  chars?_eq_some_iff.2 rfl

@[simp] theorem toString?_ofString (text : String) :
    (ofString text : Letters υ).toString? = some text := by
  simp [toString?]

@[simp] theorem isProper_append {text' : Letters υ} :
    IsProper (text ++ text') ↔ text.IsProper ∧ text'.IsProper := by
  simp [IsProper, forall_and]

@[simp] theorem isProper_ofString (text : String) : (ofString text : Letters υ).IsProper := by
  simp [IsProper, ofString]

theorem exists_chars?_iff : (∃ chars, text.chars? = some chars) ↔ text.IsProper := by
  constructor
  · rintro ⟨chars, hchars⟩ u hu
    rw [chars?_eq_some_iff.1 hchars] at hu
    simp at hu
  · intro h
    simp only [chars?_eq_some_iff]
    induction text with
    | nil => exact ⟨[], rfl⟩
    | cons l rest ih =>
      obtain ⟨chars, rfl⟩ := ih fun u hu => h u (List.mem_cons_of_mem _ hu)
      cases l with
      | char c => exact ⟨c :: chars, rfl⟩
      | unit u => exact absurd List.mem_cons_self (h u)

instance (text : Letters υ) : Decidable text.IsProper :=
  decidable_of_iff (text.chars?.isSome = true) (Option.isSome_iff_exists.trans exists_chars?_iff)

theorem chars?_eq_none_iff : text.chars? = none ↔ ¬ text.IsProper := by
  rw [← exists_chars?_iff, Option.eq_none_iff_forall_ne_some, not_exists]

end Letters

/-! ### Between the kinds of units -/

/-- The half that a stray byte is told as: the bytes from 0x80 on are told from U+DC80 on. -/
def Stray.half (b : Stray) : Half :=
  ⟨b.val + 0x480, by omega⟩

/-- The stray byte that a half stands for, if it stands for one. -/
def Half.stray? (h : Half) : Option Stray :=
  if inside : 0x480 ≤ h.val ∧ h.val < 0x500 then some ⟨h.val - 0x480, by omega⟩ else none

/-- The number of a letter of a name, a stray byte being told as a half. Names are sorted by the
numbers of their letters. -/
def Letter.point : Letter Stray → Nat
  | char c => c.toNat
  | unit b => 0xD800 + b.half.val

instance : LT (Letter Stray) := ⟨fun a b => a.point < b.point⟩

instance (a b : Letter Stray) : Decidable (a < b) :=
  inferInstanceAs (Decidable (a.point < b.point))

/-- The text that spells a name. -/
def Spelling.toStr (text : Spelling) : Str :=
  text.map (Letter.map Stray.half)

/-- The letter of a name that a letter stands for, if it stands for one. -/
def Letter.spelling? : Letter Half → Option (Letter Stray)
  | char c => some (char c)
  | unit h => h.stray?.map unit

/-- The name that a text spells, if it spells one. -/
def Str.spelling? (text : Str) : Option Spelling :=
  text.mapM Letter.spelling?

theorem Stray.stray?_half (b : Stray) : b.half.stray? = some b := by
  simp [Half.stray?, half]

/-- A name that has been told as a text is found again. -/
@[simp] theorem Spelling.spelling?_toStr (text : Spelling) : text.toStr.spelling? = some text := by
  have hletter (l : Letter Stray) : (l.map Stray.half).spelling? = some l := by
    cases l <;> simp [Letter.map, Letter.spelling?, Stray.stray?_half]
  unfold Str.spelling? toStr
  rw [List.mapM_map]
  induction text with
  | nil => rfl
  | cons l rest ih => simp [ih, hletter]

/-- A proper text spells the same name. -/
@[simp] theorem Str.spelling?_ofString (text : String) :
    Str.spelling? (Letters.ofString text) = some (Letters.ofString text) := by
  unfold Str.spelling? Letters.ofString
  rw [List.mapM_map]
  induction text.toList with
  | nil => rfl
  | cons c rest ih => simp [Letter.spelling?, ih]

end LintBridge
