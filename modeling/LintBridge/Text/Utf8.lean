/-!
# LintBridge.Text.Utf8

Reading and writing UTF-8. A reader takes one scalar value at a time; where the bytes cannot start
one, it takes the longest run of bytes that some scalar value starts with, and at least one byte
(the *maximal subpart*). `decodeLossy` shows every such run as U+FFFD, `decode?` refuses it.
-/

namespace LintBridge.Text.Utf8

/-- What the next bytes hold: a scalar value, or `none` for a broken run, and the bytes after it. -/
structure Piece where
  char? : Option Char
  rest : List UInt8

/-- A continuation byte in the range from `low` to `high`, as its six bits. -/
def tail? (low high : Nat) (b : UInt8) : Option Nat :=
  if low ≤ b.toNat && b.toNat ≤ high then some (b.toNat % 0x40) else none

/-- The bytes after a two-byte lead with the payload `lead`. -/
def next2 (lead : Nat) : List UInt8 → Piece
  | [] => ⟨none, []⟩
  | b :: rest =>
    match tail? 0x80 0xBF b with
    | some x => ⟨some (Char.ofNat (0x40 * lead + x)), rest⟩
    | none => ⟨none, b :: rest⟩

/-- The bytes after a three-byte lead; the second byte lies between `low` and `high`. -/
def next3 (lead low high : Nat) : List UInt8 → Piece
  | [] => ⟨none, []⟩
  | b :: rest =>
    match tail? low high b with
    | some x => next2 (0x40 * lead + x) rest
    | none => ⟨none, b :: rest⟩

/-- The bytes after a four-byte lead; the second byte lies between `low` and `high`. -/
def next4 (lead low high : Nat) : List UInt8 → Piece
  | [] => ⟨none, []⟩
  | b :: rest =>
    match tail? low high b with
    | some x => next3 (0x40 * lead + x) 0x80 0xBF rest
    | none => ⟨none, b :: rest⟩

/-- The first scalar value or broken run of a text that starts with the byte `b`. The bounds on
the second byte keep out overlong forms, surrogates and numbers above U+10FFFF. -/
def next (b : UInt8) (rest : List UInt8) : Piece :=
  let n := b.toNat
  if n < 0x80 then ⟨some (Char.ofNat n), rest⟩
  else if 0xC2 ≤ n && n ≤ 0xDF then next2 (n - 0xC0) rest
  else if n == 0xE0 then next3 0 0xA0 0xBF rest
  else if n == 0xED then next3 0xD 0x80 0x9F rest
  else if 0xE1 ≤ n && n ≤ 0xEF then next3 (n - 0xE0) 0x80 0xBF rest
  else if n == 0xF0 then next4 0 0x90 0xBF rest
  else if 0xF1 ≤ n && n ≤ 0xF3 then next4 (n - 0xF0) 0x80 0xBF rest
  else if n == 0xF4 then next4 4 0x80 0x8F rest
  else ⟨none, rest⟩

theorem next2_rest_le (lead : Nat) (bytes : List UInt8) :
    (next2 lead bytes).rest.length ≤ bytes.length := by
  cases bytes with
  | nil => simp [next2]
  | cons b rest => simp only [next2]; split <;> simp

theorem next3_rest_le (lead low high : Nat) (bytes : List UInt8) :
    (next3 lead low high bytes).rest.length ≤ bytes.length := by
  cases bytes with
  | nil => simp [next3]
  | cons b rest =>
      simp only [next3]
      split
      · exact Nat.le_succ_of_le (next2_rest_le _ _)
      · simp

theorem next4_rest_le (lead low high : Nat) (bytes : List UInt8) :
    (next4 lead low high bytes).rest.length ≤ bytes.length := by
  cases bytes with
  | nil => simp [next4]
  | cons b rest =>
      simp only [next4]
      split
      · exact Nat.le_succ_of_le (next3_rest_le _ _ _ _)
      · simp

/-- Every piece takes at least one byte. -/
theorem next_rest_le (b : UInt8) (bytes : List UInt8) :
    (next b bytes).rest.length ≤ bytes.length := by
  simp only [next]
  repeat' split
  all_goals
    first
      | exact next2_rest_le _ _
      | exact next3_rest_le _ _ _ _
      | exact next4_rest_le _ _ _ _
      | simp

/-- The text of `bytes`, with U+FFFD for every broken run. -/
def decodeLossy : List UInt8 → List Char
  | [] => []
  | b :: bytes => (next b bytes).char?.getD '\uFFFD' :: decodeLossy (next b bytes).rest
termination_by bytes => bytes.length
decreasing_by exact Nat.lt_succ_of_le (next_rest_le b bytes)

/-- The text of `bytes`; `none` when some run is broken. -/
def decode? : List UInt8 → Option (List Char)
  | [] => some []
  | b :: bytes =>
    match (next b bytes).char? with
    | some c => (decode? (next b bytes).rest).map (c :: ·)
    | none => none
termination_by bytes => bytes.length
decreasing_by exact Nat.lt_succ_of_le (next_rest_le b bytes)

/-- The bytes of a character. -/
def encodeChar (c : Char) : List UInt8 :=
  let n := c.toNat
  if n < 0x80 then [n.toUInt8]
  else if n < 0x800 then [(0xC0 + n / 0x40).toUInt8, (0x80 + n % 0x40).toUInt8]
  else if n < 0x10000 then
    [(0xE0 + n / 0x1000).toUInt8, (0x80 + n / 0x40 % 0x40).toUInt8, (0x80 + n % 0x40).toUInt8]
  else
    [(0xF0 + n / 0x40000).toUInt8, (0x80 + n / 0x1000 % 0x40).toUInt8,
      (0x80 + n / 0x40 % 0x40).toUInt8, (0x80 + n % 0x40).toUInt8]

/-- The bytes of `text`. -/
def encode (text : List Char) : List UInt8 :=
  text.flatMap encodeChar

end LintBridge.Text.Utf8
