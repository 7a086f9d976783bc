/-!
# Text of files

Bytes are read as UTF-8. Bytes that form no character become replacement characters, one for each
longest beginning of a character. Afterwards every line break is a line feed: a carriage return
alone or before a line feed becomes one.
-/

namespace IndexAdvice.Files

/-! ### UTF-8 -/

/-- The beginning of a character of several bytes. -/
structure Unfinished where
  /-- The bits read so far. -/
  bits : Nat
  /-- How many bytes are to come. -/
  missing : Nat
  /-- The least and the greatest value of the next byte. -/
  low : Nat
  high : Nat
deriving DecidableEq, Repr

/-- The character that stands for bytes that form none. -/
def replacement : Char :=
  '\ufffd'

/-- What a byte at the start of a character begins: a character of its own, or one of several bytes,
or none. The ranges of second bytes exclude overlong forms, surrogates and too large values. -/
def startByte (b : Nat) : Char ⊕ Option Unfinished :=
  if b < 0x80 then .inl (Char.ofNat b)
  else if 0xC2 ≤ b ∧ b ≤ 0xDF then .inr (some ⟨b - 0xC0, 1, 0x80, 0xBF⟩)
  else if b = 0xE0 then .inr (some ⟨0, 2, 0xA0, 0xBF⟩)
  else if b = 0xED then .inr (some ⟨0xD, 2, 0x80, 0x9F⟩)
  else if 0xE1 ≤ b ∧ b ≤ 0xEF then .inr (some ⟨b - 0xE0, 2, 0x80, 0xBF⟩)
  else if b = 0xF0 then .inr (some ⟨0, 3, 0x90, 0xBF⟩)
  else if 0xF1 ≤ b ∧ b ≤ 0xF3 then .inr (some ⟨b - 0xF0, 3, 0x80, 0xBF⟩)
  else if b = 0xF4 then .inr (some ⟨4, 3, 0x80, 0x8F⟩)
  else .inr none

/-- The characters of bytes, where `open?` is the character begun by the bytes before them and
`done` the characters so far, backwards. -/
def decodeFrom (open? : Option Unfinished) (done : List Char) : List UInt8 → List Char
  | [] => (if open?.isSome then replacement :: done else done).reverse
  | byte :: bytes =>
    let b := byte.toNat
    let startAt (done : List Char) : Option Unfinished × List Char :=
      match startByte b with
      | .inl c => (none, c :: done)
      | .inr (some u) => (some u, done)
      | .inr none => (none, replacement :: done)
    let next := match open? with
      | none => startAt done
      | some u =>
        if u.low ≤ b ∧ b ≤ u.high then
          let bits := u.bits * 64 + (b - 0x80)
          if u.missing ≤ 1 then (none, Char.ofNat bits :: done)
          else (some ⟨bits, u.missing - 1, 0x80, 0xBF⟩, done)
        else startAt (replacement :: done)
    decodeFrom next.1 next.2 bytes

/-- The characters of bytes. -/
def decode (bytes : List UInt8) : List Char :=
  decodeFrom none [] bytes

/-! ### Line breaks -/

/-- The text with line feeds for line breaks; `returned` tells whether a carriage return came just
before, and `done` is the result so far, backwards. -/
def lineFeedsFrom (returned : Bool) (done : List Char) : List Char → List Char
  | [] => done.reverse
  | c :: cs =>
    if c == '\r' then lineFeedsFrom true ('\n' :: done) cs
    else if c == '\n' && returned then lineFeedsFrom false done cs
    else lineFeedsFrom false (c :: done) cs

/-- The text with line feeds for line breaks. -/
def lineFeeds (cs : List Char) : List Char :=
  lineFeedsFrom false [] cs

/-- The text of a file with the given bytes. -/
def textOf (bytes : ByteArray) : String :=
  String.ofList (lineFeeds (decode bytes.toList))

end IndexAdvice.Files
