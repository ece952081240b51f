import LintBridge.Failure
import Mathlib.Data.List.TakeWhile

/-!
# LintBridge.Proofs.Reading

What the JSON reader does with a text, whatever the text is. Every reader takes a part from the
start of its text and leaves the rest as it is, or it stops (`Json.Takes`). Three things are carried
along: no table that is read has a key twice, the reader gives up on the size of an integer only at
an integer that is too long, and on the depth of nesting only after more brackets than it has room
for.

Main results: `Json.keyed_of_parse`, `Json.hasLongInteger_of_parse` and `Json.lt_opens_of_parse`; in
the other direction, `Json.parse_replicate`.
-/

namespace LintBridge.Data

/-! ### Tables that have no key twice -/

/-- No table in the value has a key twice, at whatever depth. -/
inductive Value.Keyed : Value → Prop where
  | plain {v : Value} (fields : v.fields = []) (items : v.items = []) : Keyed v
  | array {vs : List Value} (items : ∀ v ∈ vs, Keyed v) : Keyed (.array vs)
  | table {fields : Fields} (nodup : (fields.map (·.1)).Nodup) (values : ∀ f ∈ fields, Keyed f.2) :
    Keyed (.table fields)

/-- The fields of a table in which no key comes twice. -/
structure Fields.Keyed (fields : Fields) : Prop where
  nodup : (fields.map (·.1)).Nodup
  values : ∀ f ∈ fields, f.2.Keyed

theorem Value.Keyed.fields {fields : Fields} (h : (Value.table fields).Keyed) : fields.Keyed := by
  cases h with
  | plain hfields _ =>
    obtain rfl : fields = [] := hfields
    exact ⟨by simp, by simp⟩
  | table nodup values => exact ⟨nodup, values⟩

namespace Fields

variable {fields : Fields} {key k : Str} {v : Value} {field : Str × Value}

theorem mem_keys_set :
    k ∈ (fields.set key v).map (·.1) ↔ k = key ∨ k ∈ fields.map (·.1) := by
  induction fields with
  | nil => simp [set]
  | cons first rest ih =>
    obtain ⟨name, u⟩ := first
    by_cases hname : name = key
    · simp [set, hname]
    · simp only [set, hname, if_false, List.map_cons, List.mem_cons, ih]
      exact or_left_comm

theorem mem_of_mem_set (h : field ∈ fields.set key v) : field = (key, v) ∨ field ∈ fields := by
  induction fields with
  | nil => exact .inl (List.mem_singleton.1 h)
  | cons first rest ih =>
    obtain ⟨name, u⟩ := first
    by_cases hname : name = key
    · simp only [set, hname, if_true] at h
      exact (List.mem_cons.1 h).imp_right (List.mem_cons_of_mem _)
    · simp only [set, hname, if_false] at h
      rcases List.mem_cons.1 h with rfl | h
      · exact .inr (List.mem_cons_self ..)
      · exact (ih h).imp_right (List.mem_cons_of_mem _)

/-- A key that is given again keeps its place. -/
theorem nodup_keys_set (h : (fields.map (·.1)).Nodup) (key : Str) (v : Value) :
    ((fields.set key v).map (·.1)).Nodup := by
  induction fields with
  | nil => simp [Fields.set]
  | cons first rest ih =>
    obtain ⟨name, u⟩ := first
    obtain ⟨hnot, hrest⟩ := List.nodup_cons.1 h
    by_cases hname : name = key
    · subst hname
      rw [Fields.set, if_pos rfl]
      exact h
    · rw [Fields.set, if_neg hname, List.map_cons, List.nodup_cons, mem_keys_set]
      exact ⟨not_or.2 ⟨hname, hnot⟩, ih hrest⟩

/-- In a table that has no key twice, every field is found by its key. -/
theorem get?_eq_some_iff (h : (fields.map (·.1)).Nodup) :
    fields.get? key = some v ↔ (key, v) ∈ fields := by
  induction fields with
  | nil => simp
  | cons field rest ih =>
    obtain ⟨k, u⟩ := field
    obtain ⟨hk, hrest⟩ := List.nodup_cons.1 h
    rw [get?_cons, List.mem_cons]
    split
    next heq =>
      subst heq
      have hnot : (k, v) ∉ rest := fun hmem => hk (List.mem_map.2 ⟨_, hmem, rfl⟩)
      simp [hnot, eq_comm]
    next hne => simp [ih hrest, Ne.symm hne]

theorem Keyed.set (h : fields.Keyed) (hv : v.Keyed) : (fields.set key v).Keyed := by
  refine ⟨nodup_keys_set h.nodup key v, fun field hfield => ?_⟩
  rcases mem_of_mem_set hfield with rfl | hfield
  · exact hv
  · exact h.values field hfield

end Fields

end LintBridge.Data

namespace LintBridge.Data.Json

open LintBridge.Text

variable {α β : Type} {P : α → Prop} {Q : β → Prop} {room : Nat} {text rest : List Char}

/-! ### What a reader may do -/

/-- Somewhere in the text there are more digits in a row than an integer may have, and neither a
fraction nor an exponent follows them. -/
def HasLongInteger (text : List Char) : Prop :=
  ∃ digits rest, digits ++ rest <:+ text ∧ (∀ c ∈ digits, c.isDigit = true) ∧
    maxIntDigits < digits.length ∧ fraction? rest = none ∧ exponent? rest = none

theorem HasLongInteger.of_suffix (h : HasLongInteger rest) (hrest : rest <:+ text) :
    HasLongInteger text := by
  obtain ⟨digits, more, hdigits, hlong⟩ := h
  exact ⟨digits, more, hdigits.trans hrest, hlong⟩

/-- How many brackets are opened in a text. -/
def opens (text : List Char) : Nat :=
  text.countP fun c => c = '[' || c = '{'

theorem opens_le_of_suffix (h : rest <:+ text) : opens rest ≤ opens text :=
  h.sublist.countP_le

/-- What may come of reading a text: a value with the property `P`, made of a part from the start of
the text, or a fault, or an integer that is too long, or more brackets than there is room for. -/
def Takes (room : Nat) (P : α → Prop) (text : List Char) : Except Stop (α × List Char) → Prop
  | .ok (a, rest) => P a ∧ rest <:+ text
  | .error (.fault _ _) => True
  | .error .oversized => HasLongInteger text
  | .error .tooDeep => room < opens text

variable {x : Except Stop (α × List Char)}

theorem Takes.of_suffix (h : Takes room P rest x) (hrest : rest <:+ text) :
    Takes room P text x := by
  cases x with
  | ok pair => exact ⟨h.1, h.2.trans hrest⟩
  | error stop =>
    cases stop with
    | fault => trivial
    | oversized => exact HasLongInteger.of_suffix h hrest
    | tooDeep => exact Nat.lt_of_lt_of_le h (opens_le_of_suffix hrest)

/-- Behind a bracket there is room for one level less. -/
theorem Takes.behind {bracket : Char} (h : Takes (room - 1) P rest x)
    (hbracket : (bracket = '[' || bracket = '{') = true) (hrest : rest <:+ text) :
    Takes room P (bracket :: text) x := by
  cases x with
  | ok pair => exact ⟨h.1, h.2.trans (hrest.trans (List.suffix_cons _ _))⟩
  | error stop =>
    cases stop with
    | fault => trivial
    | oversized => exact HasLongInteger.of_suffix h (hrest.trans (List.suffix_cons _ _))
    | tooDeep =>
      have hinner : room - 1 < opens rest := h
      have hopens : opens (bracket :: text) = opens text + 1 := List.countP_cons_of_pos hbracket
      have := opens_le_of_suffix hrest
      show room < opens (bracket :: text)
      omega

theorem Takes.bind {f : α × List Char → Except Stop (β × List Char)} (h : Takes room P text x)
    (hf : ∀ a rest, P a → rest <:+ text → Takes room Q text (f (a, rest))) :
    Takes room Q text (x >>= f) := by
  cases x with
  | ok pair => exact hf pair.1 pair.2 h.1 h.2
  | error stop =>
    cases stop with
    | fault => trivial
    | oversized | tooDeep => exact h

theorem skipSpace_suffix (text : List Char) : skipSpace text <:+ text :=
  List.dropWhile_suffix _

/-! ### Strings -/

/-- One unit, and then the units of the text after it. -/
theorem takes_cons_units {start : List Char} {fuel unit : Nat}
    (h : Takes room (fun _ => True) rest (units start fuel rest)) (hrest : rest <:+ text) :
    Takes room (fun _ => True) text (do
      let (us, end_) ← units start fuel rest
      return (unit :: us, end_)) :=
  (h.of_suffix hrest).bind fun _ _ _ hend => ⟨trivial, hend⟩

theorem takes_units (start : List Char) (fuel : Nat) (text : List Char) :
    Takes room (fun _ => True) text (units start fuel text) := by
  induction fuel generalizing text with
  | zero => trivial
  | succ fuel ih =>
    unfold units
    split
    · trivial
    · exact ⟨trivial, List.suffix_cons _ _⟩
    next rest =>
      split
      · trivial
      next high _ =>
        have hafter : rest.drop 4 <:+ '\\' :: 'u' :: rest :=
          (List.drop_suffix 4 rest).trans ((List.suffix_cons _ _).trans (List.suffix_cons _ _))
        dsimp only
        split
        next more hmore =>
          -- a second escape follows: it is read together with the first, or left for the next unit
          have hlow : more.drop 4 <:+ '\\' :: 'u' :: rest :=
            (List.drop_suffix 4 more).trans <| (List.suffix_cons 'u' more).trans <|
              (List.suffix_cons '\\' _).trans (hmore ▸ hafter)
          split
          · split
            · trivial
            · split
              · exact takes_cons_units (ih _) hlow
              · exact takes_cons_units (ih _) (hmore ▸ hafter)
          · exact takes_cons_units (ih _) (hmore ▸ hafter)
        · exact takes_cons_units (ih _) hafter
    next c rest _ =>
      split
      · trivial
      · exact takes_cons_units (ih _) ((List.suffix_cons c rest).trans (List.suffix_cons _ _))
    · trivial
    next c rest _ _ _ _ =>
      split
      · trivial
      · exact takes_cons_units (ih _) (List.suffix_cons c rest)

theorem takes_string (start text : List Char) :
    Takes room (fun _ => True) text (string start text) :=
  (takes_units start _ text).bind fun _ _ _ h => ⟨trivial, h⟩

/-! ### Numbers -/

theorem whole_append (text : List Char) : (whole text).1 ++ (whole text).2 = text := by
  unfold whole
  split
  · rfl
  · exact List.takeWhile_append_dropWhile

theorem isDigit_whole (text : List Char) : ∀ c ∈ (whole text).1, c.isDigit = true := by
  unfold whole
  split
  · simp
  · exact fun c hc => List.mem_takeWhile_imp hc

theorem fraction?_suffix {digits : List Char} (h : fraction? text = some (digits, rest)) :
    rest <:+ text := by
  unfold fraction? at h
  split at h
  · split at h
    · obtain ⟨-, rfl⟩ := Prod.mk.inj (Option.some.inj h)
      exact (List.dropWhile_suffix _).trans (List.suffix_cons _ _)
    · simp at h
  · simp at h

theorem exponent?_suffix {power : Int} (h : exponent? text = some (power, rest)) :
    rest <:+ text := by
  unfold exponent? at h
  split at h
  next e after =>
    -- whatever the sign is, the digits after it are taken
    have hrest : ∀ sign digits, (if (digits.takeWhile Char.isDigit).isEmpty then none
        else some (if sign = true then -(digitsValue (digits.takeWhile Char.isDigit) : Int)
          else digitsValue (digits.takeWhile Char.isDigit), digits.dropWhile Char.isDigit)) =
        some (power, rest) → rest <:+ digits := by
      intro sign digits h
      split at h
      · simp at h
      · obtain ⟨-, rfl⟩ := Prod.mk.inj (Option.some.inj h)
        exact List.dropWhile_suffix _
    split at h
    · dsimp only at h
      split at h
      next more =>
        exact (hrest true more h).trans ((List.suffix_cons _ _).trans (List.suffix_cons _ _))
      next more =>
        exact (hrest false more h).trans ((List.suffix_cons _ _).trans (List.suffix_cons _ _))
      · exact (hrest false after h).trans (List.suffix_cons _ _)
    · simp at h
  · simp at h

/-- Only an integer is measured, and an integer is its whole part. -/
theorem takes_number (text : List Char) : Takes room Value.Keyed text (number text) := by
  unfold number
  split
  next negative unsigned hsign =>
    have hunsigned : unsigned <:+ text := by
      split at hsign
      · obtain ⟨-, rfl⟩ := Prod.mk.inj hsign
        exact List.suffix_cons _ _
      · obtain ⟨-, rfl⟩ := Prod.mk.inj hsign
        exact List.suffix_refl _
    have happend := whole_append unsigned
    have hdigits := isDigit_whole unsigned
    split
    next digits afterWhole hwhole =>
      rw [hwhole] at happend hdigits
      have hafter : afterWhole <:+ text :=
        (happend ▸ List.suffix_append digits afterWhole).trans hunsigned
      dsimp only
      split
      · trivial
      · split
        next hfraction hexponent =>
          split
          next hlong =>
            rw [hfraction] at hexponent
            exact ⟨digits, afterWhole, happend ▸ hunsigned, hdigits, hlong, hfraction, hexponent⟩
          · exact ⟨.plain rfl rfl, hafter⟩
        · -- a number with a fraction or an exponent may have any length
          refine ⟨.plain rfl rfl, ?_⟩
          have hfraction : ((fraction? afterWhole).map (·.2)).getD afterWhole <:+ text := by
            cases h : fraction? afterWhole with
            | none => exact hafter
            | some found => exact (fraction?_suffix h).trans hafter
          generalize ((fraction? afterWhole).map (·.2)).getD afterWhole = afterFraction
            at hfraction ⊢
          cases h : exponent? afterFraction with
          | none => exact hfraction
          | some found => exact (exponent?_suffix h).trans hfraction

/-! ### Values -/

theorem keyed_and_suffix_of_word? {v : Value} (h : word? text = some (v, rest)) :
    v.Keyed ∧ rest <:+ text := by
  obtain ⟨⟨word, v⟩, hword, hfound⟩ := List.exists_of_findSome?_eq_some h
  simp only [Option.ite_none_right_eq_some, Option.some.injEq, Prod.mk.injEq] at hfound
  obtain ⟨-, rfl, rfl⟩ := hfound
  refine ⟨?_, List.drop_suffix _ _⟩
  simp only [words, List.mem_cons, List.not_mem_nil, or_false, Prod.mk.injEq] at hword
  rcases hword with ⟨-, rfl⟩ | ⟨-, rfl⟩ | ⟨-, rfl⟩ | ⟨-, rfl⟩ | ⟨-, rfl⟩ | ⟨-, rfl⟩ <;>
    exact .plain rfl rfl

/-- What the three readers of nested values do with the fuel that they share. -/
structure TakesNested (fuel : Nat) : Prop where
  value : ∀ room text, Takes room Value.Keyed text (Json.value fuel room text)
  members : ∀ room fields text, Fields.Keyed fields →
    Takes room Fields.Keyed text (Json.members fuel room fields text)
  elements : ∀ room text,
    Takes room (fun vs => ∀ v ∈ vs, Value.Keyed v) text (Json.elements fuel room text)

namespace TakesNested

variable {fuel : Nat} (ih : TakesNested fuel)
include ih

theorem value_succ (room : Nat) (text : List Char) :
    Takes room Value.Keyed text (Json.value (fuel + 1) room text) := by
  unfold Json.value
  split
  next rest =>
    exact ((takes_string _ rest).of_suffix (List.suffix_cons _ _)).bind
      fun s after _ hafter => ⟨.plain rfl rfl, hafter⟩
  next rest =>
    have hinside : skipSpace rest <:+ '{' :: rest :=
      (skipSpace_suffix rest).trans (List.suffix_cons _ _)
    split
    next hroom =>
      show room < opens _
      simp [hroom, opens]
    next =>
      split
      next after hskip => exact ⟨.plain rfl rfl, (List.suffix_cons _ _).trans (hskip ▸ hinside)⟩
      · exact ((ih.members _ [] _ ⟨by simp, by simp⟩).behind rfl (skipSpace_suffix rest)).bind
          fun fields after hfields hafter => ⟨.table hfields.nodup hfields.values, hafter⟩
  next rest =>
    have hinside : skipSpace rest <:+ '[' :: rest :=
      (skipSpace_suffix rest).trans (List.suffix_cons _ _)
    split
    next hroom =>
      show room < opens _
      simp [hroom, opens]
    next =>
      split
      next after hskip => exact ⟨.plain rfl rfl, (List.suffix_cons _ _).trans (hskip ▸ hinside)⟩
      · exact ((ih.elements _ _).behind rfl (skipSpace_suffix rest)).bind
          fun items after hitems hafter => ⟨.array hitems, hafter⟩
  · split
    next found hfound => exact keyed_and_suffix_of_word? hfound
    · exact takes_number _

theorem members_succ (room : Nat) (fields : Fields) (text : List Char) (hfields : fields.Keyed) :
    Takes room Fields.Keyed text (Json.members (fuel + 1) room fields text) := by
  unfold Json.members
  split
  next rest =>
    refine ((takes_string _ rest).of_suffix (List.suffix_cons _ _)).bind
      fun key afterKey _ hkey => ?_
    have hcolon := (skipSpace_suffix afterKey).trans hkey
    dsimp only
    -- after the key a colon, after the colon a value, and after the value the end or more members
    split
    next afterColon hskip =>
      have hvalue : skipSpace afterColon <:+ '"' :: rest :=
        (skipSpace_suffix afterColon).trans ((List.suffix_cons _ _).trans (hskip ▸ hcolon))
      refine ((ih.value _ _).of_suffix hvalue).bind fun v afterValue hv hafter => ?_
      have hset : (Fields.set fields key v).Keyed := hfields.set hv
      have hend := (skipSpace_suffix afterValue).trans hafter
      dsimp only
      split
      next after hskip => exact ⟨hset, (List.suffix_cons _ _).trans (hskip ▸ hend)⟩
      next more hskip =>
        exact (ih.members _ _ _ hset).of_suffix
          ((skipSpace_suffix more).trans ((List.suffix_cons _ _).trans (hskip ▸ hend)))
      · trivial
    · trivial
  · trivial

theorem elements_succ (room : Nat) (text : List Char) :
    Takes room (fun vs => ∀ v ∈ vs, Value.Keyed v) text
      (Json.elements (fuel + 1) room text) := by
  unfold Json.elements
  refine (ih.value room text).bind fun v afterValue hv hafter => ?_
  have hend := (skipSpace_suffix afterValue).trans hafter
  dsimp only
  split
  next after hskip =>
    exact ⟨List.forall_mem_singleton.2 hv, (List.suffix_cons _ _).trans (hskip ▸ hend)⟩
  next more hskip =>
    have hmore : skipSpace more <:+ text :=
      (skipSpace_suffix more).trans ((List.suffix_cons _ _).trans (hskip ▸ hend))
    exact ((ih.elements _ _).of_suffix hmore).bind
      fun vs after hvs hafter => ⟨List.forall_mem_cons.2 ⟨hv, hvs⟩, hafter⟩
  · trivial

end TakesNested

theorem takesNested (fuel : Nat) : TakesNested fuel := by
  induction fuel with
  | zero =>
    constructor
    · intro room text
      unfold value
      trivial
    · intro room fields text hfields
      unfold members
      trivial
    · intro room text
      unfold elements
      trivial
  | succ fuel ih => exact ⟨ih.value_succ, ih.members_succ, ih.elements_succ⟩

/-! ### Whole texts -/

/-- No table of a document that is read has a key twice. -/
theorem keyed_of_parse {v : Value} (h : parse room text = .ok v) : v.Keyed := by
  have htakes := (takesNested (2 * text.length + 1)).value room (skipSpace text)
  unfold parse at h
  dsimp only at h
  split at h
  · simp at h
  · split at h
    · simp at h
    next found rest hvalue =>
      rw [hvalue] at htakes
      split at h
      · exact Except.ok.inj h ▸ htakes.1
      · simp at h

/-- An error that is no fault of the text comes up in the reader of its value. -/
theorem value_of_parse {stop : Stop} {e : Error} (h : parse room text = .error e)
    (he : e = .oversized ∧ stop = .oversized ∨ e = .tooDeep ∧ stop = .tooDeep) :
    value (2 * text.length + 1) room (skipSpace text) = .error stop := by
  unfold parse at h
  dsimp only at h
  split at h
  · rcases he with ⟨rfl, -⟩ | ⟨rfl, -⟩ <;> simp [Error.at] at h
  · split at h
    next found hvalue =>
      rw [hvalue]
      cases found <;> rcases he with ⟨rfl, rfl⟩ | ⟨rfl, rfl⟩ <;> simp [Error.at] at h ⊢
    · split at h <;> rcases he with ⟨rfl, -⟩ | ⟨rfl, -⟩ <;> simp [Error.at] at h

/-- A text that is refused for the size of an integer has one that is too long. -/
theorem hasLongInteger_of_parse (h : parse room text = .error .oversized) :
    HasLongInteger text := by
  have htakes := (takesNested (2 * text.length + 1)).value room (skipSpace text)
  rw [value_of_parse h (.inl ⟨rfl, rfl⟩)] at htakes
  exact HasLongInteger.of_suffix htakes (skipSpace_suffix text)

/-- A text that is refused for its nesting opens more brackets than there is room for. -/
theorem lt_opens_of_parse (h : parse room text = .error .tooDeep) : room < opens text := by
  have htakes := (takesNested (2 * text.length + 1)).value room (skipSpace text)
  rw [value_of_parse h (.inr ⟨rfl, rfl⟩)] at htakes
  exact Nat.lt_of_lt_of_le htakes (opens_le_of_suffix (skipSpace_suffix text))

theorem value_replicate (fuel room : Nat) (rest : List Char) :
    value (2 * room + fuel + 1) room (List.replicate (room + 1) '[' ++ rest) = .error .tooDeep := by
  induction room with
  | zero => simp [value]
  | succ room ih =>
    have hskip : skipSpace (List.replicate (room + 1) '[' ++ rest) =
        '[' :: (List.replicate room '[' ++ rest) := rfl
    have hfuel : 2 * (room + 1) + fuel = 2 * room + fuel + 1 + 1 := by omega
    have helements : elements (2 * room + fuel + 1 + 1) room
        ('[' :: (List.replicate room '[' ++ rest)) = .error .tooDeep := by
      rw [elements, ← List.cons_append, ← List.replicate_succ, ih]
      rfl
    rw [List.replicate_succ, List.cons_append, value, hskip, hfuel]
    simp [helements]

/-- One bracket more than there is room for is too many, whatever follows. -/
theorem parse_replicate (room : Nat) (rest : List Char) :
    parse room (List.replicate (room + 1) '[' ++ rest) = .error .tooDeep := by
  have hskip : skipSpace (List.replicate (room + 1) '[' ++ rest) =
      List.replicate (room + 1) '[' ++ rest := rfl
  have hfuel : 2 * (List.replicate (room + 1) '[' ++ rest).length + 1 =
      2 * room + (2 * rest.length + 2) + 1 := by
    rw [List.length_append, List.length_replicate]
    omega
  unfold parse
  dsimp only
  split
  next heq => simp [List.replicate_succ] at heq
  · rw [hskip, hfuel, value_replicate]

end LintBridge.Data.Json
