import LintBridge.Text.Utf8

/-!
# LintBridge.Proofs.Encoding

UTF-8 as it is read against UTF-8 as it is written. The bounds that `Utf8.next` puts on the second
byte leave exactly the encodings of characters (`next_eq_some_iff`), so that reading and writing
undo each other.

Main results:

* `decode?_eq_some_iff`: bytes are read as a text just if they are what the text is written as.
* `decodeLossy_encode`: where nothing is broken, showing what can be read loses nothing.
-/

namespace LintBridge.Text.Utf8

variable {c : Char} {b : UInt8} {bytes rest : List UInt8} {text : List Char} {lead low high : Nat}

/-! ### Bytes -/

theorem toNat_toUInt8 {n : Nat} (h : n < 256) : n.toUInt8.toNat = n :=
  UInt8.toNat_ofNat_of_lt h

theorem toUInt8_toNat (b : UInt8) : b.toNat.toUInt8 = b :=
  UInt8.ofNat_toNat

theorem toUInt8_of_eq {n : Nat} (h : b.toNat = n) : n.toUInt8 = b := by
  rw [← h, toUInt8_toNat]

/-- The numbers of characters leave a gap for the surrogates and end at U+10FFFF. -/
theorem isValidChar_toNat (c : Char) : c.toNat < 0xD800 ∨ (0xDFFF < c.toNat ∧ c.toNat < 0x110000) :=
  c.valid

theorem toNat_ofNat {n : Nat} (h : n < 0xD800 ∨ (0xDFFF < n ∧ n < 0x110000)) :
    (Char.ofNat n).toNat = n := by
  rw [Char.ofNat, dif_pos h]
  rfl

/-! ### Continuation bytes -/

/-- A continuation byte holds six bits. -/
theorem tail?_eq_some_iff (hlow : 0x80 ≤ low) (hhigh : high ≤ 0xBF) {x : Nat} :
    tail? low high b = some x ↔ low ≤ 0x80 + x ∧ 0x80 + x ≤ high ∧ b = (0x80 + x).toUInt8 := by
  unfold tail?
  constructor
  · intro h
    split at h
    next hbounds =>
      rw [Bool.and_eq_true, decide_eq_true_eq, decide_eq_true_eq] at hbounds
      have hx := Option.some.inj h
      have hb : b.toNat = 0x80 + x := by omega
      exact ⟨by omega, by omega, (toUInt8_of_eq hb).symm⟩
    next => cases h
  · intro h
    obtain ⟨hxlow, hxhigh, rfl⟩ := h
    rw [toNat_toUInt8 (by omega), if_pos (by simp [hxlow, hxhigh])]
    exact congrArg some (by omega)

theorem next2_eq_some_iff : next2 lead bytes = ⟨some c, rest⟩ ↔
    ∃ x, x < 0x40 ∧ bytes = (0x80 + x).toUInt8 :: rest ∧ Char.ofNat (0x40 * lead + x) = c := by
  cases bytes with
  | nil => simp [next2]
  | cons b bytes =>
    have htail (x : Nat) : tail? 0x80 0xBF b = some x ↔ x < 0x40 ∧ b = (0x80 + x).toUInt8 := by
      rw [tail?_eq_some_iff (by omega) (by omega)]
      constructor
      · exact fun h => ⟨by omega, h.2.2⟩
      · exact fun h => ⟨by omega, by omega, h.2⟩
    simp only [next2]
    cases hx : tail? 0x80 0xBF b with
    | none =>
      simp only [Piece.mk.injEq, reduceCtorEq, false_and, false_iff]
      intro h
      obtain ⟨x, hlt, hbytes, -⟩ := h
      rw [(htail x).2 ⟨hlt, (List.cons.inj hbytes).1⟩] at hx
      cases hx
    | some x =>
      obtain ⟨hlt, hb⟩ := (htail x).1 hx
      simp only [Piece.mk.injEq, Option.some.injEq, List.cons.injEq]
      constructor
      · intro h
        exact ⟨x, hlt, ⟨hb, h.2⟩, h.1⟩
      · intro h
        obtain ⟨x', hlt', ⟨hb', hrest⟩, hc⟩ := h
        obtain rfl := Option.some.inj (hx.symm.trans ((htail x').2 ⟨hlt', hb'⟩))
        exact ⟨hc, hrest⟩

theorem next3_eq_some_iff (hlow : 0x80 ≤ low) (hhigh : high ≤ 0xBF) :
    next3 lead low high bytes = ⟨some c, rest⟩ ↔
      ∃ x y, low ≤ 0x80 + x ∧ 0x80 + x ≤ high ∧ y < 0x40 ∧
        bytes = (0x80 + x).toUInt8 :: (0x80 + y).toUInt8 :: rest ∧
        Char.ofNat (0x40 * (0x40 * lead + x) + y) = c := by
  cases bytes with
  | nil => simp [next3]
  | cons b bytes =>
    have htail (x : Nat) := @tail?_eq_some_iff b low high hlow hhigh x
    simp only [next3]
    cases hx : tail? low high b with
    | none =>
      simp only [Piece.mk.injEq, reduceCtorEq, false_and, false_iff]
      intro h
      obtain ⟨x, y, hxlow, hxhigh, -, hbytes, -⟩ := h
      rw [(htail x).2 ⟨hxlow, hxhigh, (List.cons.inj hbytes).1⟩] at hx
      cases hx
    | some x =>
      obtain ⟨hxlow, hxhigh, hb⟩ := (htail x).1 hx
      simp only [next2_eq_some_iff, List.cons.injEq]
      constructor
      · intro h
        obtain ⟨y, hy, hbytes, hc⟩ := h
        exact ⟨x, y, hxlow, hxhigh, hy, ⟨hb, hbytes⟩, hc⟩
      · intro h
        obtain ⟨x', y, hxlow', hxhigh', hy, ⟨hb', hbytes⟩, hc⟩ := h
        obtain rfl := Option.some.inj (hx.symm.trans ((htail x').2 ⟨hxlow', hxhigh', hb'⟩))
        exact ⟨y, hy, hbytes, hc⟩

theorem next4_eq_some_iff (hlow : 0x80 ≤ low) (hhigh : high ≤ 0xBF) :
    next4 lead low high bytes = ⟨some c, rest⟩ ↔
      ∃ x y z, low ≤ 0x80 + x ∧ 0x80 + x ≤ high ∧ y < 0x40 ∧ z < 0x40 ∧
        bytes = (0x80 + x).toUInt8 :: (0x80 + y).toUInt8 :: (0x80 + z).toUInt8 :: rest ∧
        Char.ofNat (0x40 * (0x40 * (0x40 * lead + x) + y) + z) = c := by
  cases bytes with
  | nil => simp [next4]
  | cons b bytes =>
    have htail (x : Nat) := @tail?_eq_some_iff b low high hlow hhigh x
    have hnext (lead' : Nat) := @next3_eq_some_iff c bytes rest lead' 0x80 0xBF
      (Nat.le_refl _) (Nat.le_refl _)
    simp only [next4]
    cases hx : tail? low high b with
    | none =>
      simp only [Piece.mk.injEq, reduceCtorEq, false_and, false_iff]
      intro h
      obtain ⟨x, y, z, hxlow, hxhigh, -, -, hbytes, -⟩ := h
      rw [(htail x).2 ⟨hxlow, hxhigh, (List.cons.inj hbytes).1⟩] at hx
      cases hx
    | some x =>
      obtain ⟨hxlow, hxhigh, hb⟩ := (htail x).1 hx
      simp only [hnext, List.cons.injEq]
      constructor
      · intro h
        obtain ⟨y, z, hylow, hyhigh, hz, hbytes, hc⟩ := h
        exact ⟨x, y, z, hxlow, hxhigh, by omega, hz, ⟨hb, hbytes⟩, hc⟩
      · intro h
        obtain ⟨x', y, z, hxlow', hxhigh', hy, hz, ⟨hb', hbytes⟩, hc⟩ := h
        obtain rfl := Option.some.inj (hx.symm.trans ((htail x').2 ⟨hxlow', hxhigh', hb'⟩))
        exact ⟨y, z, by omega, by omega, hz, hbytes, hc⟩

/-! ### Characters -/

/-- The characters of two bytes. -/
theorem encodeChar_two {x : Nat} (hlead : 2 ≤ lead) (hlead' : lead < 0x20) (hx : x < 0x40) :
    encodeChar (Char.ofNat (0x40 * lead + x)) = [(0xC0 + lead).toUInt8, (0x80 + x).toUInt8] := by
  have hn : (Char.ofNat (0x40 * lead + x)).toNat = 0x40 * lead + x := toNat_ofNat (by omega)
  unfold encodeChar
  rw [hn, if_neg (by omega), if_pos (by omega), show (0x40 * lead + x) / 0x40 = lead by omega,
    show (0x40 * lead + x) % 0x40 = x by omega]

/-- The characters of three bytes. The numbers of the surrogates are left out. -/
theorem encodeChar_three {n x y : Nat} (hn : n = 0x40 * (0x40 * lead + x) + y) (hx : x < 0x40)
    (hy : y < 0x40) (hlow : 0x800 ≤ n) (hvalid : n < 0xD800 ∨ (0xDFFF < n ∧ n < 0x10000)) :
    encodeChar (Char.ofNat n) =
      [(0xE0 + lead).toUInt8, (0x80 + x).toUInt8, (0x80 + y).toUInt8] := by
  unfold encodeChar
  rw [toNat_ofNat (by omega), if_neg (by omega), if_neg (by omega), if_pos (by omega),
    show n / 0x1000 = lead by omega, show n / 0x40 % 0x40 = x by omega, show n % 0x40 = y by omega]

/-- The characters of four bytes. -/
theorem encodeChar_four {n x y z : Nat} (hn : n = 0x40 * (0x40 * (0x40 * lead + x) + y) + z)
    (hx : x < 0x40) (hy : y < 0x40) (hz : z < 0x40) (hlow : 0x10000 ≤ n) (hhigh : n < 0x110000) :
    encodeChar (Char.ofNat n) = [(0xF0 + lead).toUInt8, (0x80 + x).toUInt8, (0x80 + y).toUInt8,
      (0x80 + z).toUInt8] := by
  unfold encodeChar
  rw [toNat_ofNat (by omega), if_neg (by omega), if_neg (by omega), if_neg (by omega),
    show n / 0x40000 = lead by omega, show n / 0x1000 % 0x40 = x by omega,
    show n / 0x40 % 0x40 = y by omega, show n % 0x40 = z by omega]

/-- The bounds of the second byte leave out the numbers that need no third byte, and those of the
surrogates. -/
theorem eq_encodeChar_of_next3 (hlow : 0x80 ≤ low) (hhigh : high ≤ 0xBF)
    (hb : b.toNat = 0xE0 + lead) (hfirst : lead = 0 → 0xA0 ≤ low)
    (hvalid : lead < 0xD ∨ (0xD < lead ∧ lead < 0x10) ∨ (lead = 0xD ∧ high ≤ 0x9F))
    (h : next3 lead low high bytes = ⟨some c, rest⟩) : b :: bytes = encodeChar c ++ rest := by
  obtain ⟨x, y, hxlow, hxhigh, hy, hbytes, hc⟩ := (next3_eq_some_iff hlow hhigh).1 h
  rw [← hc, encodeChar_three rfl (by omega) hy (by omega) (by omega), hbytes, ← toUInt8_of_eq hb]
  rfl

/-- The bounds of the second byte leave out the numbers that need no fourth byte, and those that are
too great. -/
theorem eq_encodeChar_of_next4 (hlow : 0x80 ≤ low) (hhigh : high ≤ 0xBF)
    (hb : b.toNat = 0xF0 + lead) (hfirst : lead = 0 → 0x90 ≤ low)
    (hlast : lead < 4 ∨ (lead = 4 ∧ high ≤ 0x8F))
    (h : next4 lead low high bytes = ⟨some c, rest⟩) : b :: bytes = encodeChar c ++ rest := by
  obtain ⟨x, y, z, hxlow, hxhigh, hy, hz, hbytes, hc⟩ := (next4_eq_some_iff hlow hhigh).1 h
  rw [← hc, encodeChar_four rfl (by omega) hy hz (by omega) (by omega), hbytes, ← toUInt8_of_eq hb]
  rfl

/-- What is read as a character is what the character is written as. -/
theorem eq_encodeChar_of_next (h : next b bytes = ⟨some c, rest⟩) :
    b :: bytes = encodeChar c ++ rest := by
  simp only [next, Bool.and_eq_true, decide_eq_true_eq, beq_iff_eq] at h
  split at h
  next hb =>
    obtain ⟨hc, rfl⟩ := Piece.mk.inj h
    rw [← Option.some.inj hc]
    unfold encodeChar
    rw [toNat_ofNat (by omega), if_pos hb, toUInt8_toNat]
    rfl
  split at h
  next hb =>
    obtain ⟨x, hx, hbytes, hc⟩ := next2_eq_some_iff.1 h
    rw [← hc, encodeChar_two (by omega) (by omega) hx, hbytes,
      toUInt8_of_eq (show b.toNat = 0xC0 + (b.toNat - 0xC0) by omega)]
    rfl
  -- three bytes, of which the first is the least, or that of the surrogates, or any other
  split at h
  next hb =>
    exact eq_encodeChar_of_next3 (by omega) (by omega) hb (by omega) (by omega) h
  split at h
  next hb =>
    exact eq_encodeChar_of_next3 (by omega) (by omega) hb (by omega) (by omega) h
  split at h
  next hb =>
    exact eq_encodeChar_of_next3 (by omega) (by omega) (by omega) (by omega) (by omega) h
  -- four bytes, of which the first is the least, or any other, or the greatest
  split at h
  next hb =>
    exact eq_encodeChar_of_next4 (by omega) (by omega) hb (by omega) (by omega) h
  split at h
  next hb =>
    exact eq_encodeChar_of_next4 (by omega) (by omega) (by omega) (by omega) (by omega) h
  split at h
  next hb =>
    exact eq_encodeChar_of_next4 (by omega) (by omega) hb (by omega) (by omega) h
  · simp at h

theorem next3_of_digits {n : Nat} (hlead : n / 0x1000 = lead) (hlow : 0x80 ≤ low)
    (hhigh : high ≤ 0xBF) (hx : low ≤ 0x80 + n / 0x40 % 0x40 ∧ 0x80 + n / 0x40 % 0x40 ≤ high)
    (rest : List UInt8) :
    next3 lead low high ((0x80 + n / 0x40 % 0x40).toUInt8 :: (0x80 + n % 0x40).toUInt8 :: rest) =
      ⟨some (Char.ofNat n), rest⟩ :=
  (next3_eq_some_iff hlow hhigh).2
    ⟨_, _, hx.1, hx.2, by omega, rfl, congrArg Char.ofNat (by omega)⟩

theorem next4_of_digits {n : Nat} (hlead : n / 0x40000 = lead) (hlow : 0x80 ≤ low)
    (hhigh : high ≤ 0xBF)
    (hx : low ≤ 0x80 + n / 0x1000 % 0x40 ∧ 0x80 + n / 0x1000 % 0x40 ≤ high) (rest : List UInt8) :
    next4 lead low high ((0x80 + n / 0x1000 % 0x40).toUInt8 ::
      (0x80 + n / 0x40 % 0x40).toUInt8 :: (0x80 + n % 0x40).toUInt8 :: rest) =
      ⟨some (Char.ofNat n), rest⟩ :=
  (next4_eq_some_iff hlow hhigh).2
    ⟨_, _, _, hx.1, hx.2, by omega, by omega, rfl, congrArg Char.ofNat (by omega)⟩

/-- What a character is written as is read as the character. -/
theorem next_encodeChar (c : Char) (rest : List UInt8) : ∃ b bytes,
    encodeChar c = b :: bytes ∧ next b (bytes ++ rest) = ⟨some c, rest⟩ := by
  have hvalid := isValidChar_toNat c
  have hc := Char.ofNat_toNat c
  unfold encodeChar
  generalize c.toNat = n at hvalid hc
  subst hc
  dsimp only
  -- as many cases as bytes; the second byte's bounds follow from the number's
  split
  next hn =>
    refine ⟨_, _, rfl, ?_⟩
    rw [next, toNat_toUInt8 (by omega), if_pos hn]
    rfl
  split
  next hn =>
    refine ⟨_, _, rfl, ?_⟩
    simp only [next, toNat_toUInt8 (show 0xC0 + n / 0x40 < 256 by omega), Bool.and_eq_true,
      decide_eq_true_eq, beq_iff_eq]
    rw [if_neg (by omega), if_pos (by omega), next2_eq_some_iff]
    exact ⟨_, by omega, rfl, congrArg Char.ofNat (by omega)⟩
  split
  next hn =>
    refine ⟨_, _, rfl, ?_⟩
    simp only [next, toNat_toUInt8 (show 0xE0 + n / 0x1000 < 256 by omega), Bool.and_eq_true,
      decide_eq_true_eq, beq_iff_eq]
    rw [if_neg (by omega), if_neg (by omega)]
    split
    · exact next3_of_digits (by omega) (by omega) (by omega) (by omega) rest
    split
    · exact next3_of_digits (by omega) (by omega) (by omega) (by omega) rest
    · rw [if_pos (by omega)]
      exact next3_of_digits (by omega) (by omega) (by omega) (by omega) rest
  · refine ⟨_, _, rfl, ?_⟩
    simp only [next, toNat_toUInt8 (show 0xF0 + n / 0x40000 < 256 by omega), Bool.and_eq_true,
      decide_eq_true_eq, beq_iff_eq]
    rw [if_neg (by omega), if_neg (by omega), if_neg (by omega), if_neg (by omega),
      if_neg (by omega)]
    split
    · exact next4_of_digits (by omega) (by omega) (by omega) (by omega) rest
    split
    · exact next4_of_digits (by omega) (by omega) (by omega) (by omega) rest
    · rw [if_pos (by omega)]
      exact next4_of_digits (by omega) (by omega) (by omega) (by omega) rest

/-! ### Texts -/

@[simp] theorem encode_nil : encode [] = [] :=
  rfl

@[simp] theorem encode_cons (c : Char) (text : List Char) :
    encode (c :: text) = encodeChar c ++ encode text :=
  List.flatMap_cons

/-- Reading a text goes character by character. -/
theorem decode?_cons (b : UInt8) (bytes : List UInt8) : decode? (b :: bytes) =
    (next b bytes).char?.bind fun c => (decode? (next b bytes).rest).map (c :: ·) := by
  rw [decode?]
  cases (next b bytes).char? <;> rfl

/-- Bytes are read as a text just if they are what the text is written as. -/
theorem decode?_eq_some_iff : decode? bytes = some text ↔ bytes = encode text := by
  constructor
  · intro h
    induction text generalizing bytes with
    | nil =>
      cases bytes with
      | nil => rfl
      | cons b bytes =>
        rw [decode?_cons, Option.bind_eq_some_iff] at h
        obtain ⟨c, -, h⟩ := h
        simp at h
    | cons c text ih =>
      cases bytes with
      | nil => simp [decode?] at h
      | cons b bytes =>
        rw [decode?_cons, Option.bind_eq_some_iff] at h
        obtain ⟨c', hc, h⟩ := h
        obtain ⟨text', htext, heq⟩ := Option.map_eq_some_iff.1 h
        obtain ⟨rfl, rfl⟩ := List.cons.inj heq
        have hnext : next b bytes = ⟨some c', (next b bytes).rest⟩ := by rw [← hc]
        rw [eq_encodeChar_of_next hnext, ih htext, encode_cons]
  · intro h
    subst h
    induction text with
    | nil => simp [decode?]
    | cons c text ih =>
      obtain ⟨b, bytes, hbytes, hnext⟩ := next_encodeChar c (encode text)
      rw [encode_cons, hbytes, List.cons_append, decode?_cons, hnext]
      simp [ih]

/-- No two texts are written alike. -/
theorem encode_injective {text' : List Char} (h : encode text = encode text') : text = text' :=
  Option.some.inj ((decode?_eq_some_iff.2 rfl).symm.trans (decode?_eq_some_iff.2 h))

/-- What is not broken is shown as it is. -/
theorem decodeLossy_encode_append (text : List Char) (rest : List UInt8) :
    decodeLossy (encode text ++ rest) = text ++ decodeLossy rest := by
  induction text with
  | nil => rfl
  | cons c text ih =>
    obtain ⟨b, bytes, hbytes, hnext⟩ := next_encodeChar c (encode text ++ rest)
    rw [encode_cons, List.append_assoc, hbytes, List.cons_append, decodeLossy, hnext]
    simp [ih]

/-- Where nothing is broken, nothing is lost. -/
theorem decodeLossy_encode (text : List Char) : decodeLossy (encode text) = text := by
  have h := decodeLossy_encode_append text []
  simpa [decodeLossy] using h

end LintBridge.Text.Utf8
