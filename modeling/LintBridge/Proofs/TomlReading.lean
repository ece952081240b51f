import LintBridge.Data.Toml
import LintBridge.Failure
import Mathlib.Data.List.TakeWhile

/-!
# LintBridge.Proofs.TomlReading

What the TOML reader does with a text, whatever the text is. Every reader takes a part from the
start of its text and leaves the rest for the next one, or it stops (`Toml.Takes`). What is left is
always the end of the text, and this ties the place where a reader gives up to the whole document.

Main results: `Toml.hasLongInteger_of_parse` and `Toml.lt_opens_of_parse`. By `Toml.parse_replicate`
the reader gives up on every document that begins with a field of more brackets than there is room
for.
-/

namespace LintBridge.Data.Toml

open LintBridge.Number LintBridge.Text

variable {α β : Type} {room n : Nat} {text rest : List Char}

/-! ### What a reader may do -/

/-- Somewhere in the text there are more digits in a row than an integer may have, and neither a
fraction nor an exponent follows them. Underscores may stand between the digits. -/
def HasLongInteger (text : List Char) : Prop :=
  ∃ row rest, row ++ rest <:+ text ∧ (∀ c ∈ row, c.isDigit = true ∨ c = '_') ∧
    maxIntDigits < (row.filter Char.isDigit).length ∧
    fraction? rest = none ∧ exponent? rest = none

theorem HasLongInteger.of_suffix (h : HasLongInteger rest) (hrest : rest <:+ text) :
    HasLongInteger text := by
  obtain ⟨row, more, hrow, hlong⟩ := h
  exact ⟨row, more, hrow.trans hrest, hlong⟩

theorem not_hasLongInteger_of_length_le (h : text.length ≤ maxIntDigits) :
    ¬ HasLongInteger text := by
  intro hlong
  obtain ⟨row, rest, hsuffix, -, hrow, -⟩ := hlong
  have hlength := hsuffix.length_le
  have hfilter := List.length_filter_le Char.isDigit row
  rw [List.length_append] at hlength
  omega

/-- How many brackets and braces are opened in a text. -/
def opens (text : List Char) : Nat :=
  text.countP fun c => c = '[' || c = '\x7b'

theorem opens_le_of_suffix (h : rest <:+ text) : opens rest ≤ opens text :=
  h.sublist.countP_le

/-- What may come of reading a text: something that leaves a part at the end of the text for the
next reader, or a text that is malformed, or an integer that is too long, or more brackets and
braces than there is room for. -/
def Takes (room : Nat) (left : α → List Char) (text : List Char) : Except Error α → Prop
  | .ok a => left a <:+ text
  | .error .malformed => True
  | .error .oversized => HasLongInteger text
  | .error .tooDeep => room < callsInTable * opens text

namespace Takes

variable {left : α → List Char} {left' : β → List Char} {x : Except Error α}

theorem of_suffix (h : Takes room left rest x) (hrest : rest <:+ text) :
    Takes room left text x := by
  cases x with
  | ok a => exact List.IsSuffix.trans h hrest
  | error e =>
    cases e with
    | malformed => trivial
    | oversized => exact HasLongInteger.of_suffix h hrest
    | tooDeep =>
      exact Nat.lt_of_lt_of_le h (Nat.mul_le_mul_left _ (opens_le_of_suffix hrest))

variable {bracket : Char} {calls : Nat}

theorem lt_opens_cons (h : room - calls < callsInTable * opens text ∨ room < calls)
    (hcalls : calls ≤ callsInTable) (hbracket : (bracket = '[' || bracket = '\x7b') = true) :
    room < callsInTable * opens (bracket :: text) := by
  have hopens : opens (bracket :: text) = opens text + 1 := List.countP_cons_of_pos hbracket
  rw [hopens, Nat.mul_succ]
  omega

/-- There is a bracket where there is no room for what is behind one. -/
theorem tooDeep (h : room < calls) (hcalls : calls ≤ callsInTable)
    (hbracket : (bracket = '[' || bracket = '\x7b') = true) :
    Takes room left (bracket :: text) (.error .tooDeep) :=
  lt_opens_cons (.inr h) hcalls hbracket

/-- Behind a bracket there is room for fewer calls, by as many as a level takes. -/
theorem behind (h : Takes (room - calls) left rest x) (hcalls : calls ≤ callsInTable)
    (hbracket : (bracket = '[' || bracket = '\x7b') = true) (hrest : rest <:+ text) :
    Takes room left (bracket :: text) x := by
  cases x with
  | ok a => exact List.IsSuffix.trans h (hrest.trans (List.suffix_cons _ _))
  | error e =>
    cases e with
    | malformed => trivial
    | oversized => exact HasLongInteger.of_suffix h (hrest.trans (List.suffix_cons _ _))
    | tooDeep =>
      have hmore : callsInTable * opens rest ≤ callsInTable * opens text :=
        Nat.mul_le_mul_left _ (opens_le_of_suffix hrest)
      exact lt_opens_cons (.inl (Nat.lt_of_lt_of_le h hmore)) hcalls hbracket

/-- The next reader goes on with what is left. -/
theorem bind {f : α → Except Error β} (h : Takes room left text x)
    (hf : ∀ a, Takes room left' (left a) (f a)) : Takes room left' text (x >>= f) := by
  cases x with
  | ok a => exact (hf a).of_suffix h
  | error e =>
    cases e with
    | malformed => trivial
    | oversized | tooDeep => exact h

theorem map {f : α → β} (h : Takes room left text x) (hf : ∀ a, left' (f a) <:+ left a) :
    Takes room left' text (x.map f) := by
  cases x with
  | ok a => exact (hf a).trans h
  | error e =>
    cases e with
    | malformed => trivial
    | oversized | tooDeep => exact h

theorem map_of_suffix {f : α → β} (h : Takes room left rest x) (hrest : rest <:+ text)
    (hf : ∀ a, left' (f a) <:+ left a) : Takes room left' text (x.map f) :=
  (h.map hf).of_suffix hrest

end Takes

/-! ### Digits -/

/-- A run of digits is a row of digits and underscores, from which the underscores are dropped. -/
theorem exists_row (p : Char → Bool) (text : List Char) :
    ∃ row, row ++ (digitRun p text).2 = text ∧ (∀ c ∈ row, p c = true ∨ c = '_') ∧
      (p '_' = false → (digitRun p text).1 = row.filter p) := by
  fun_induction digitRun p text with
  | case1 c rest hc digits after hrun ih =>
    rw [hrun] at ih
    obtain ⟨row, happend, hrow, hdigits⟩ := ih
    refine ⟨'_' :: c :: row, by simpa using happend, by simpa [hc] using hrow, fun hmark => ?_⟩
    simpa [hc, hmark] using hdigits hmark
  | case2 c rest hc => exact ⟨[], by simp⟩
  | case3 c rest hnot hc digits after hrun ih =>
    rw [hrun] at ih
    obtain ⟨row, happend, hrow, hdigits⟩ := ih
    refine ⟨c :: row, by simpa using happend, by simpa [hc] using hrow, fun hmark => ?_⟩
    simpa [hc] using hdigits hmark
  | case4 c rest hnot hc => exact ⟨[], by simp⟩
  | case5 => exact ⟨[], by simp⟩

variable {p : Char → Bool} {digits : List Char}

theorem digits?_eq_some (h : digits? p text = some (digits, rest)) :
    digitRun p text = (digits, rest) := by
  unfold digits? at h
  split at h
  next c more =>
    split at h
    · exact Option.some.inj h
    · cases h
  next => cases h

theorem digits?_suffix (h : digits? p text = some (digits, rest)) : rest <:+ text := by
  obtain ⟨row, happend, -⟩ := exists_row p text
  rw [digits?_eq_some h] at happend
  exact ⟨row, happend⟩

/-- What is made of digits leaves what stands after them. -/
theorem digits?_bind_suffix {make : List Char × List Char → Option (α × List Char)} {a : α}
    (h : (digits? p text).bind make = some (a, rest))
    (hmake : ∀ pair, make pair = some (a, rest) → pair.2 = rest) : rest <:+ text := by
  obtain ⟨pair, hpair, heq⟩ := Option.bind_eq_some_iff.1 h
  rw [← hmake pair heq]
  exact digits?_suffix hpair

/-! ### Numbers -/

theorem getD_suffix {found : Option (List Char)}
    (h : ∀ rest, found = some rest → rest <:+ text) : found.getD text <:+ text := by
  cases found with
  | none => exact List.suffix_refl _
  | some rest => exact h rest rfl

theorem rest_suffix {found : Option (α × List Char)}
    (h : ∀ a rest, found = some (a, rest) → rest <:+ text) :
    (found.map (·.2)).getD text <:+ text := by
  cases found with
  | none => exact List.suffix_refl _
  | some pair => exact h pair.1 pair.2 rfl

theorem sign_suffix (text : List Char) : (sign text).2 <:+ text := by
  unfold sign
  split
  · exact List.suffix_cons _ _
  · exact List.suffix_cons _ _
  · exact List.suffix_refl _

theorem prefixed?_suffix {n : Nat} (h : prefixed? text = some (n, rest)) : rest <:+ text := by
  have two (a b : Char) (after : List Char) : after <:+ a :: b :: after :=
    List.suffix_append [a, b] _
  unfold prefixed? at h
  split at h
  next after =>
    have hrest := digits?_bind_suffix h fun _ heq => congrArg Prod.snd (Option.some.inj heq)
    exact hrest.trans (two _ _ after)
  next after =>
    have hrest := digits?_bind_suffix h fun _ heq => congrArg Prod.snd (Option.some.inj heq)
    exact hrest.trans (two _ _ after)
  next after =>
    have hrest := digits?_bind_suffix h fun _ heq => congrArg Prod.snd (Option.some.inj heq)
    exact hrest.trans (two _ _ after)
  next => cases h

theorem fraction?_suffix (h : fraction? text = some (digits, rest)) : rest <:+ text := by
  unfold fraction? at h
  split at h
  · exact (digits?_suffix h).trans (List.suffix_cons _ _)
  · cases h

theorem exponent?_suffix {power : Int} (h : exponent? text = some (power, rest)) :
    rest <:+ text := by
  unfold exponent? at h
  split at h
  next e more =>
    split at h
    · have hrest := digits?_bind_suffix h fun _ heq => congrArg Prod.snd (Option.some.inj heq)
      exact hrest.trans ((sign_suffix more).trans (List.suffix_cons _ _))
    · cases h
  next => cases h

/-- The only reader that gives up on an integer. -/
theorem takes_number {x : Except Error (Value × List Char)} (h : number? text = some x) :
    Takes room Prod.snd text x := by
  unfold number? at h
  split at h
  next n after hprefixed =>
    obtain rfl := Option.some.inj h
    exact prefixed?_suffix hprefixed
  next =>
    have hsign := sign_suffix text
    generalize sign text = signed at h hsign
    obtain ⟨negative, unsigned⟩ := signed
    dsimp only at h hsign
    obtain ⟨⟨whole, afterWhole⟩, hwhole, rfl⟩ := Option.map_eq_some_iff.1 h
    -- a zero that leads is a row of its own
    have hrow : ∃ row, row ++ afterWhole = unsigned ∧
        (∀ c ∈ row, c.isDigit = true ∨ c = '_') ∧ whole = row.filter Char.isDigit := by
      split at hwhole
      next rest =>
        obtain ⟨rfl, rfl⟩ := Prod.mk.inj (Option.some.inj hwhole)
        exact ⟨['0'], by simp, by simp, by decide⟩
      next =>
        obtain ⟨row, happend, hdigits, hfilter⟩ := exists_row Char.isDigit unsigned
        rw [digits?_eq_some hwhole] at happend hfilter
        exact ⟨row, happend, hdigits, hfilter rfl⟩
    obtain ⟨row, rfl, hdigits, rfl⟩ := hrow
    have hrest := (List.suffix_append row afterWhole).trans hsign
    dsimp only
    generalize hfraction : fraction? afterWhole = places?
    have hplaces : (places?.map (·.2)).getD afterWhole <:+ text := by
      refine (rest_suffix fun digits rest hfound => ?_).trans hrest
      exact fraction?_suffix (hfraction.trans hfound)
    split
    next hpower =>
      split
      next hlong => exact ⟨row, afterWhole, hsign, hdigits, hlong, hfraction, hpower⟩
      next => exact hrest
    next => exact (rest_suffix fun _ _ => exponent?_suffix).trans hplaces

theorem special?_suffix {v : Value} (h : special? text = some (v, rest)) : rest <:+ text := by
  have hsign := sign_suffix text
  unfold special? at h
  generalize sign text = signed at h hsign
  obtain ⟨negative, unsigned⟩ := signed
  dsimp only at h hsign
  split at h
  · obtain ⟨-, rfl⟩ := Prod.mk.inj (Option.some.inj h)
    exact (List.suffix_append [_, _, _] _).trans hsign
  · obtain ⟨-, rfl⟩ := Prod.mk.inj (Option.some.inj h)
    exact (List.suffix_append [_, _, _] _).trans hsign
  · cases h

/-! ### Dates and times -/

theorem places?_suffix {n low high value : Nat} (h : places? n low high text = some (value, rest)) :
    rest <:+ text := by
  unfold places? at h
  dsimp only at h
  split at h
  · obtain ⟨-, rfl⟩ := Prod.mk.inj (Option.some.inj h)
    exact List.drop_suffix n text
  · cases h

theorem after?_suffix {c : Char} (h : after? c text = some rest) : rest <:+ text := by
  unfold after? at h
  split at h
  next d more =>
    split at h
    · obtain rfl := Option.some.inj h
      exact List.suffix_cons _ _
    · cases h
  next => cases h

theorem time?_suffix (h : time? text = some rest) : rest <:+ text := by
  unfold time? at h
  simp only [Option.bind_eq_bind, Option.bind_eq_some_iff, Prod.exists] at h
  obtain ⟨_, _, hhour, _, hcolon, _, _, hminute, _, hcolon', _, after, hsecond, h⟩ := h
  have hafter := (places?_suffix hsecond).trans <| (after?_suffix hcolon').trans <|
    (places?_suffix hminute).trans <| (after?_suffix hcolon).trans (places?_suffix hhour)
  split at h
  next c more =>
    split at h
    · obtain rfl := Option.some.inj h
      exact (List.dropWhile_suffix _).trans ((List.suffix_cons _ _).trans hafter)
    · obtain rfl := Option.some.inj h
      exact hafter
  next =>
    obtain rfl := Option.some.inj h
    exact hafter

theorem offset_suffix (text : List Char) : offset text <:+ text := by
  unfold offset
  split
  next c more =>
    split
    · exact List.suffix_cons _ _
    split
    · refine getD_suffix fun rest h => ?_
      simp only [Option.bind_eq_bind, Option.bind_eq_some_iff, Prod.exists] at h
      obtain ⟨_, _, hhour, _, hcolon, _, _, hminute, hend⟩ := h
      obtain rfl := Option.some.inj hend
      exact (places?_suffix hminute).trans <| (after?_suffix hcolon).trans <|
        (places?_suffix hhour).trans (List.suffix_cons _ _)
    · exact List.suffix_refl _
  next => exact List.suffix_refl _

theorem date?_suffix {valid : Bool} (h : date? text = some (valid, rest)) : rest <:+ text := by
  unfold date? at h
  simp only [Option.bind_eq_bind, Option.bind_eq_some_iff, Prod.exists] at h
  obtain ⟨_, _, hyear, _, hdash, _, _, hmonth, _, hdash', _, after, hday, h⟩ := h
  have hafter := (places?_suffix hday).trans <| (after?_suffix hdash').trans <|
    (places?_suffix hmonth).trans <| (after?_suffix hdash).trans (places?_suffix hyear)
  split at h
  next c more =>
    split at h
    · split at h
      next end_ htime =>
        obtain ⟨-, rfl⟩ := Prod.mk.inj (Option.some.inj h)
        exact (offset_suffix _).trans <|
          (time?_suffix htime).trans ((List.suffix_cons _ _).trans hafter)
      next =>
        obtain ⟨-, rfl⟩ := Prod.mk.inj (Option.some.inj h)
        exact hafter
    · obtain ⟨-, rfl⟩ := Prod.mk.inj (Option.some.inj h)
      exact hafter
  next =>
    obtain ⟨-, rfl⟩ := Prod.mk.inj (Option.some.inj h)
    exact hafter

/-! ### Strings and keys -/

theorem takes_hexChar (n : Nat) (text : List Char) : Takes room Prod.snd text (hexChar n text) := by
  unfold hexChar
  dsimp only
  split
  · trivial
  split
  · trivial
  split
  · exact List.drop_suffix n text
  · trivial

theorem takes_escape (lines : Bool) (text : List Char) :
    Takes room Prod.snd text (escape lines text) := by
  unfold escape
  split
  next => trivial
  next c rest =>
    have hrest : rest <:+ c :: rest := List.suffix_cons c rest
    split
    · split
      next => exact List.nil_suffix
      next after hspace =>
        have hafter : '\n' :: after <:+ c :: rest := hspace ▸ List.dropWhile_suffix isSpace
        exact (List.dropWhile_suffix _).trans ((List.suffix_cons _ _).trans hafter)
      next => trivial
    · split
      · exact (takes_hexChar 4 rest).map_of_suffix hrest fun _ => List.suffix_refl _
      · exact (takes_hexChar 8 rest).map_of_suffix hrest fun _ => List.suffix_refl _
      all_goals first | exact hrest | trivial

theorem takes_basic (lines : Bool) (fuel : Nat) (text : List Char) :
    Takes room Prod.snd text (basic lines fuel text) := by
  induction fuel generalizing text with
  | zero => trivial
  | succ fuel ih =>
    -- the cases are the end of the text, a quotation mark, an escape and any other character
    unfold basic
    split
    next => trivial
    next rest =>
      split
      · exact List.suffix_cons _ _
      · split
        next after => exact List.suffix_append ['"', '"', '"'] after
        next =>
          exact (ih rest).map_of_suffix (List.suffix_cons _ _) fun _ => List.suffix_refl _
    next rest =>
      have hescape : Takes room Prod.snd rest (escape lines rest) := takes_escape lines rest
      split
      next e he =>
        rw [he] at hescape
        have herror : Takes room Prod.snd rest (.error e) := hescape
        exact herror.of_suffix (List.suffix_cons _ _)
      next cs after he =>
        rw [he] at hescape
        exact (ih after).map_of_suffix (hescape.trans (List.suffix_cons _ _))
          fun _ => List.suffix_refl _
    next c rest _ _ =>
      by_cases hcontrol : (if lines then isControlInLines c else isControl c) = true
      · rw [if_pos hcontrol]
        trivial
      · rw [if_neg hcontrol]
        exact (ih rest).map_of_suffix (List.suffix_cons _ _) fun _ => List.suffix_refl _

theorem takes_literal (text : List Char) : Takes room Prod.snd text (literal text) := by
  unfold literal
  split
  next after hafter =>
    dsimp only
    split
    · trivial
    · exact (List.suffix_cons _ _).trans (hafter ▸ List.dropWhile_suffix _)
  next => trivial

theorem takes_literalLines (text : List Char) : Takes room Prod.snd text (literalLines text) := by
  fun_induction literalLines text with
  | case1 => trivial
  | case2 after => exact List.suffix_append ['\'', '\'', '\''] after
  | case3 c rest _ _ => trivial
  | case4 c rest _ _ ih =>
    exact ih.map_of_suffix (List.suffix_cons _ _) fun _ => List.suffix_refl _

theorem trailing_suffix (quote : Char) (body text : List Char) :
    (trailing quote body text).2 <:+ text := by
  unfold trailing
  split
  next a b rest =>
    split
    · exact List.suffix_append [a, b] rest
    split
    · exact List.suffix_cons _ _
    · exact List.suffix_refl _
  next a =>
    split
    · exact List.nil_suffix
    · exact List.suffix_refl _
  next => exact List.suffix_refl _

theorem afterOpening_suffix (text : List Char) : afterOpening text <:+ text := by
  unfold afterOpening
  split
  · exact List.suffix_cons _ _
  · exact List.suffix_refl _

theorem takes_lineString {x : Except Error (String × List Char)} (h : lineString? text = some x) :
    Takes room Prod.snd text x := by
  unfold lineString? at h
  split at h
  next rest =>
    obtain rfl := Option.some.inj h
    exact (takes_basic _ _ rest).map_of_suffix (List.suffix_cons _ _) fun _ => List.suffix_refl _
  next rest =>
    obtain rfl := Option.some.inj h
    exact (takes_literal rest).map_of_suffix (List.suffix_cons _ _) fun _ => List.suffix_refl _
  next => cases h

theorem takes_string {x : Except Error (String × List Char)} (h : string? text = some x) :
    Takes room Prod.snd text x := by
  unfold string? at h
  split at h
  next rest =>
    obtain rfl := Option.some.inj h
    have hinside := (afterOpening_suffix rest).trans (List.suffix_append ['"', '"', '"'] rest)
    exact (takes_basic _ _ _).map_of_suffix hinside fun _ => trailing_suffix _ _ _
  next rest =>
    obtain rfl := Option.some.inj h
    have hinside := (afterOpening_suffix rest).trans (List.suffix_append ['\'', '\'', '\''] rest)
    exact (takes_literalLines _).map_of_suffix hinside fun _ => trailing_suffix _ _ _
  next => exact takes_lineString h

theorem takes_keyPart (text : List Char) : Takes room Prod.snd text (keyPart text) := by
  unfold keyPart
  split
  · cases hline : lineString? text with
    | none => trivial
    | some x => exact takes_lineString hline
  · exact List.dropWhile_suffix _

theorem takes_dottedKey (fuel : Nat) (text : List Char) :
    Takes room Prod.snd text (dottedKey fuel text) := by
  induction fuel generalizing text with
  | zero => trivial
  | succ fuel ih =>
    refine (takes_keyPart text).bind fun (part, rest) => ?_
    have hspace : rest.dropWhile isSpace <:+ rest := List.dropWhile_suffix isSpace
    dsimp only
    split
    next more hmore =>
      have hmore : '.' :: more <:+ rest := hmore ▸ hspace
      have hnext : more.dropWhile isSpace <:+ rest :=
        (List.dropWhile_suffix isSpace).trans ((List.suffix_cons _ _).trans hmore)
      exact ((ih _).of_suffix hnext).bind fun _ => List.suffix_refl _
    next => exact hspace

/-! ### Comments and line breaks -/

theorem takes_comment (text : List Char) : Takes room id text (skipComment text) := by
  unfold skipComment
  split
  next rest =>
    split
    · trivial
    · exact (List.dropWhile_suffix _).trans (List.suffix_cons _ _)
  next => exact List.suffix_refl _

theorem takes_lines (fuel : Nat) (text : List Char) : Takes room id text (skipLines fuel text) := by
  induction fuel generalizing text with
  | zero => exact List.suffix_refl _
  | succ fuel ih =>
    have hspace : text.dropWhile isSpaceOrLine <:+ text := List.dropWhile_suffix isSpaceOrLine
    unfold skipLines
    dsimp only
    split
    · exact ((takes_comment _).bind ih).of_suffix hspace
    · exact hspace

/-! ### Values -/

/-- What the four readers of nested values do with the fuel that they share. -/
structure TakesNested (fuel : Nat) : Prop where
  value : ∀ room text, Takes room Prod.snd text (Toml.value fuel room text)
  elements : ∀ room text, Takes room Prod.snd text (Toml.elements fuel room text)
  entries : ∀ room fields frozen text,
    Takes room Prod.snd text (Toml.entries fuel room fields frozen text)
  pair : ∀ room text, Takes room (fun read => read.2.2) text (Toml.pair fuel room text)

namespace TakesNested

variable {fuel : Nat} (ih : TakesNested fuel)
include ih

theorem value_succ (room : Nat) (text : List Char) :
    Takes room Prod.snd text (Toml.value (fuel + 1) room text) := by
  unfold Toml.value
  split
  next x hstring => exact (takes_string hstring).map fun _ => List.suffix_refl _
  next =>
    split
    next after _ => exact List.suffix_append ['t', 'r', 'u', 'e'] after
    next after _ => exact List.suffix_append ['f', 'a', 'l', 's', 'e'] after
    next rest _ =>
      split
      next hroom => exact .tooDeep hroom (by decide) rfl
      next =>
        refine Takes.behind ((takes_lines rest.length rest).bind fun inside => ?_)
          (by decide : callsInArray ≤ callsInTable) rfl (List.suffix_refl rest)
        split
        · exact List.suffix_cons _ _
        · exact (ih.elements _ _).bind fun _ => List.suffix_refl _
    next rest _ =>
      split
      next hroom => exact .tooDeep hroom (Nat.le_refl _) rfl
      next =>
        have hspace : rest.dropWhile isSpace <:+ rest := List.dropWhile_suffix isSpace
        split
        next after hafter =>
          exact ((List.suffix_cons _ _).trans (hafter ▸ hspace)).trans (List.suffix_cons _ _)
        · exact ((ih.entries _ _ _ _).behind (Nat.le_refl _) rfl hspace).bind
            fun _ => List.suffix_refl _
    · split
      next valid after hdate =>
        split
        · exact date?_suffix hdate
        · trivial
      next =>
        split
        next after htime => exact time?_suffix htime
        next =>
          split
          next x hnumber => exact takes_number hnumber
          next =>
            split
            next found hspecial => exact special?_suffix hspecial
            · trivial

theorem elements_succ (room : Nat) (text : List Char) :
    Takes room Prod.snd text (Toml.elements (fuel + 1) room text) := by
  unfold Toml.elements
  refine (ih.value room text).bind fun (v, rest) => ?_
  refine (takes_lines _ rest).bind fun line => ?_
  split
  · exact List.suffix_cons _ _
  next more =>
    refine ((takes_lines _ more).bind fun next => ?_).of_suffix (List.suffix_cons _ _)
    split
    · exact List.suffix_cons _ _
    · exact (ih.elements _ _).bind fun _ => List.suffix_refl _
  · trivial

theorem entries_succ (room : Nat) (fields : Fields) (frozen : Marks) (text : List Char) :
    Takes room Prod.snd text (Toml.entries (fuel + 1) room fields frozen text) := by
  unfold Toml.entries
  refine (ih.pair room text).bind fun (key, v, rest) => ?_
  have hspace : rest.dropWhile isSpace <:+ rest := List.dropWhile_suffix isSpace
  dsimp only
  split
  · trivial
  · split
    next after hafter => exact (List.suffix_cons _ _).trans (hafter ▸ hspace)
    next more hmore =>
      have hmore : '\x2c' :: more <:+ rest := hmore ▸ hspace
      exact (ih.entries _ _ _ _).of_suffix <|
        (List.dropWhile_suffix isSpace).trans ((List.suffix_cons _ _).trans hmore)
    · trivial

theorem pair_succ (room : Nat) (text : List Char) :
    Takes room (fun read => read.2.2) text (Toml.pair (fuel + 1) room text) := by
  unfold Toml.pair
  refine (takes_dottedKey _ text).bind fun (key, rest) => ?_
  dsimp only
  split
  next more =>
    refine Takes.of_suffix ?_ ((List.dropWhile_suffix isSpace).trans (List.suffix_cons _ _))
    exact (ih.value _ _).bind fun _ => List.suffix_refl _
  · trivial

end TakesNested

theorem takesNested (fuel : Nat) : TakesNested fuel := by
  induction fuel with
  | zero =>
    constructor
    · intro room text
      unfold value
      trivial
    · intro room text
      unfold elements
      trivial
    · intro room fields frozen text
      unfold entries
      trivial
    · intro room text
      unfold pair
      trivial
  | succ fuel ih => exact ⟨ih.value_succ, ih.elements_succ, ih.entries_succ, ih.pair_succ⟩

/-! ### Documents -/

theorem takes_header (closing text : List Char) :
    Takes room Prod.snd text (header closing text) := by
  unfold header
  refine ((takes_dottedKey _ _).bind fun (key, rest) => ?_).of_suffix
    (List.dropWhile_suffix isSpace)
  dsimp only
  split
  · exact List.drop_suffix _ _
  · trivial

/-- A rule that is broken is broken whatever follows. -/
theorem takes_require {left : β → List Char} (draft : Option Draft)
    {f : Draft → Except Error β} (h : ∀ draft, Takes room left text (f draft)) :
    Takes room left text (require draft >>= f) := by
  cases draft with
  | none => trivial
  | some draft => exact h draft

theorem takes_statement (room : Nat) (draft : Draft) (table : Key) (text : List Char) :
    Takes room (fun read => read.2.2) text (statement room draft table text) := by
  unfold statement
  split
  next rest =>
    refine ((takes_header _ rest).bind fun (key, after) => ?_).of_suffix
      (List.suffix_append ['[', '['] rest)
    exact takes_require _ fun _ => List.suffix_refl _
  next rest _ =>
    refine ((takes_header _ rest).bind fun (key, after) => ?_).of_suffix (List.suffix_cons _ _)
    exact takes_require _ fun _ => List.suffix_refl _
  next c rest _ _ =>
    split
    · exact ((takesNested _).pair _ _).bind fun _ => takes_require _ fun _ => List.suffix_refl _
    split
    · exact List.suffix_refl _
    · trivial
  next => exact List.suffix_refl _

/-- Statements leave nothing. -/
theorem takes_statements (room fuel : Nat) (draft : Draft) (table : Key) (text : List Char) :
    Takes room (fun _ => []) text (statements room fuel draft table text) := by
  induction fuel generalizing draft table text with
  | zero => trivial
  | succ fuel ih =>
    have hspace : text.dropWhile isSpace <:+ text := List.dropWhile_suffix isSpace
    unfold statements
    split
    · exact List.nil_suffix
    next rest hrest =>
      exact (ih draft table rest).of_suffix ((List.suffix_cons _ _).trans (hrest ▸ hspace))
    · refine Takes.of_suffix ?_ hspace
      refine (takes_statement room draft table _).bind fun (draft, table, rest) => ?_
      refine ((takes_comment _).bind fun line => ?_).of_suffix (List.dropWhile_suffix isSpace)
      split
      · exact List.nil_suffix
      · exact (ih _ _ _).of_suffix (List.suffix_cons _ _)
      · trivial

theorem takes_parse (room : Nat) (text : List Char) :
    Takes room (fun _ => []) (joinBreaks text) (parse room text) :=
  takes_statements room ((joinBreaks text).length + 1) {} [] (joinBreaks text)

/-- A document that is refused for the size of an integer has one that is too long. -/
theorem hasLongInteger_of_parse (h : parse room text = .error .oversized) :
    HasLongInteger (joinBreaks text) := by
  have htakes := takes_parse room text
  rwa [h] at htakes

/-- A document that is refused for its nesting opens too many brackets and braces for the room. -/
theorem lt_opens_of_parse (h : parse room text = .error .tooDeep) :
    room < callsInTable * opens (joinBreaks text) := by
  have htakes := takes_parse room text
  rwa [h] at htakes

/-! ### Arrays that are nested too deep -/

theorem skipLines_bracket (fuel : Nat) (text : List Char) :
    skipLines fuel ('[' :: text) = .ok ('[' :: text) := by
  cases fuel with
  | zero => rfl
  | succ fuel => rfl

theorem value_replicate {fuel : Nat} (h : room < callsInArray * n) (hfuel : 2 * n ≤ fuel)
    (rest : List Char) : value fuel room (List.replicate n '[' ++ rest) = .error .tooDeep := by
  induction n generalizing room fuel with
  | zero => exact absurd h (Nat.not_lt_zero _)
  | succ n ih =>
    obtain ⟨fuel, rfl⟩ : ∃ less, fuel = less + 2 := ⟨fuel - 2, by omega⟩
    have hstring : string? ('[' :: (List.replicate n '[' ++ rest)) = none := rfl
    rw [List.replicate_succ, List.cons_append, value, hstring]
    dsimp only
    split
    · rfl
    next hroom =>
      -- there is room for this bracket, so it is not the last one
      obtain ⟨n, rfl⟩ : ∃ less, n = less + 1 :=
        Nat.exists_eq_succ_of_ne_zero (by rintro rfl; exact hroom h)
      have hleft : room - callsInArray < callsInArray * (n + 1) := by
        unfold callsInArray at *
        omega
      have helements : elements (fuel + 1) (room - callsInArray)
          (List.replicate (n + 1) '[' ++ rest) = .error .tooDeep := by
        rw [elements, ih hleft (by omega), error_bind]
      rw [List.replicate_succ, List.cons_append] at helements ⊢
      rw [skipLines_bracket]
      simp [helements]

theorem pair_replicate {fuel : Nat} (h : room < callsInArray * n) (hfuel : 2 * n ≤ fuel)
    (rest : List Char) :
    pair (fuel + 1) room ('a' :: '=' :: (List.replicate n '[' ++ rest)) = .error .tooDeep := by
  have hkey (fuel : Nat) : dottedKey (fuel + 1) ('a' :: '=' :: (List.replicate n '[' ++ rest)) =
      .ok (["a"], '=' :: (List.replicate n '[' ++ rest)) := rfl
  have hspace : (List.replicate n '[' ++ rest).dropWhile isSpace =
      List.replicate n '[' ++ rest := by
    obtain ⟨n, rfl⟩ : ∃ less, n = less + 1 :=
      Nat.exists_eq_succ_of_ne_zero (by rintro rfl; exact Nat.not_lt_zero _ h)
    rfl
  rw [pair, hkey, ok_bind]
  simp only [hspace, value_replicate h hfuel rest, error_bind]

theorem joinBreaks_replicate (rest : List Char) :
    joinBreaks (List.replicate n '[' ++ rest) = List.replicate n '[' ++ joinBreaks rest := by
  induction n with
  | zero => rfl
  | succ n ih =>
    rw [List.replicate_succ, List.cons_append, List.cons_append, ← ih]
    rfl

/-- A line that starts with a key is no statement if the key has no value. -/
theorem statement_of_pair {c : Char} {draft : Draft} {table : Key} {e : Error}
    (hc : isBareKeyChar c = true) (hc' : c ≠ '[')
    (h : pair (2 * (c :: rest).length + 2) room (c :: rest) = .error e) :
    statement room draft table (c :: rest) = .error e := by
  unfold statement
  split
  next heq => exact absurd (List.cons.inj heq).1 hc'
  next heq => exact absurd (List.cons.inj heq).1 hc'
  next heq =>
    obtain ⟨rfl, -⟩ := List.cons.inj heq
    rw [if_pos (by simp [hc]), h, error_bind]
  next heq => cases heq

/-- A document whose first line is no statement is none. -/
theorem statements_of_statement {c : Char} {fuel : Nat} {draft : Draft} {table : Key} {e : Error}
    (hspace : isSpace c = false) (hbreak : c ≠ '\n')
    (h : statement room draft table (c :: rest) = .error e) :
    statements room (fuel + 1) draft table (c :: rest) = .error e := by
  have hline : (c :: rest).dropWhile isSpace = c :: rest :=
    List.dropWhile_cons_of_neg (by simp [hspace])
  rw [statements, hline]
  split
  next heq => cases heq
  next heq => exact absurd (List.cons.inj heq).1 hbreak
  next => rw [h, error_bind]

/-- A field with more brackets than there is room for is too much, whatever follows. -/
theorem parse_replicate (h : room < callsInArray * n) (rest : List Char) :
    parse room ('a' :: '=' :: (List.replicate n '[' ++ rest)) = .error .tooDeep := by
  have hline : joinBreaks ('a' :: '=' :: (List.replicate n '[' ++ rest)) =
      'a' :: '=' :: (List.replicate n '[' ++ joinBreaks rest) := by
    rw [← joinBreaks_replicate]
    rfl
  have hfuel : 2 * n ≤
      2 * ('a' :: '=' :: (List.replicate n '[' ++ joinBreaks rest)).length + 1 := by
    simp only [List.length_cons, List.length_append, List.length_replicate]
    omega
  have hpair := pair_replicate h hfuel (joinBreaks rest)
  rw [parse, hline]
  exact statements_of_statement (by decide) (by decide)
    (statement_of_pair (by decide) (by decide) hpair)

end LintBridge.Data.Toml
