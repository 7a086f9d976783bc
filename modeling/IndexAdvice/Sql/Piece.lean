import IndexAdvice.Sql.Token
import IndexAdvice.Text.Search
import IndexAdvice.Text.Trim
import IndexAdvice.Text.Letter

/-!
# Cutting query text into pieces

Query text is cut into consecutive pieces, each of them a token of some kind or a stretch of
layout: one blank character, a line comment with its line break, or a block comment. Nothing is
refused. A comment, string or quoted name that is never closed reaches to the end of the text, and
a character that starts no token makes a piece of kind `other`.

`Piece.next` decides what the piece at a position is and how many characters it has after its
first. `Piece.cut` repeats it. `texts_cut` says that the pieces, put together, are the text.
-/

namespace IndexAdvice

open Text

/-- A stretch of query text: a token of the given kind, or layout. -/
structure Piece where
  kind : Option TokenKind
  text : List Char
deriving DecidableEq, Repr

namespace Piece

/-! ### Where a piece ends -/

/-- How many characters there are through the first occurrence of `mark`, or in all if there is
none. -/
def through (mark cs : List Char) : Nat :=
  (throughFirst? mark cs).getD cs.length

/-- How many characters a string literal has after its opening quote. A doubled quote stands for a
quote, and a backslash protects the character after it. -/
def stringTail : List Char → Nat
  | [] => 0
  | [_] => 1
  | c :: d :: cs =>
    if c == '\'' then if d == '\'' then stringTail cs + 2 else 1
    else if c == '\\' then stringTail cs + 2
    else stringTail (d :: cs) + 1

/-- How many further characters a number has. It holds at most one point, and an exponent letter
belongs to it only together with the digit or sign after it. -/
def numberTail (pointSeen : Bool) : List Char → Nat
  | [] => 0
  | [c] => if isDigit c || (c == '.' && !pointSeen) then 1 else 0
  | c :: d :: cs =>
    if isDigit c then numberTail pointSeen (d :: cs) + 1
    else if c == '.' && !pointSeen then numberTail true (d :: cs) + 1
    else if (c == 'e' || c == 'E') && (isDigit d || d == '+' || d == '-') then
      numberTail pointSeen cs + 2
    else 0

/-- What a word may go on with. -/
def isWordTail (c : Char) : Bool :=
  isAlphanumeric c || c == '_' || c == '$'

/-- How many characters the name of a bind parameter has. -/
def parameterName : List Char → Option Nat
  | [] => none
  | c :: cs => if isIdentStart c then some ((cs.takeWhile isWordChar).length + 1) else none

/-- How many further characters a bind parameter has that starts with `c`: numbered `$1`,
positional `?` or `?1`, named `:name` or `@name`. The second colon of a cast starts none. -/
def parameterTail (before : Option Char) (c : Char) (cs : List Char) : Option Nat :=
  if c == '$' then
    let n := (cs.takeWhile isDecimal).length
    if n == 0 then none else some n
  else if c == '?' then some (cs.takeWhile isDecimal).length
  else if c == ':' then if before == some ':' then none else parameterName cs
  else if c == '@' then parameterName cs
  else none

/-! ### Single characters and operators -/

/-- The kind of a character that is a token by itself. -/
def punctuation (c : Char) : Option TokenKind :=
  if c == '(' then some .lparen
  else if c == ')' then some .rparen
  else if c == ',' then some .comma
  else if c == '.' then some .dot
  else if c == '*' then some .star
  else if c == ';' then some .semicolon
  else none

/-- The operators of two characters. -/
def wideOperators : List (Char × Char) :=
  [('<', '='), ('>', '='), ('<', '>'), ('!', '='), ('|', '|'), (':', ':'), ('-', '>'), ('=', '>'),
    ('=', '='), ('!', '~')]

/-- The operators of one character. -/
def narrowOperators : List Char :=
  ['=', '<', '>', '+', '-', '/', '%', '!', '|', '&', '^', '~']

/-! ### The next piece -/

/-- The kind of the piece that starts with `c`, and how many of the characters `cs` after `c`
belong to it; `before` is the character before `c`. -/
def next (before : Option Char) (c : Char) (cs : List Char) : Option TokenKind × Nat :=
  if isBlank c then (none, 0)
  else if c == '-' && cs.head? == some '-' then (none, through ['\n'] cs)
  else if c == '/' && cs.head? == some '*' then (none, through ['*', '/'] cs.tail + 1)
  else if c == '\'' then (some .string, stringTail cs)
  else if c == '"' || c == '\x60' then (some .quoted, through [c] cs)
  else if isDigit c || (c == '.' && cs.head?.any isDigit) then
    (some .number, numberTail (c == '.') cs)
  else if isLetter c || c == '_' then (some .word, (cs.takeWhile isWordTail).length)
  else match parameterTail before c cs with
    | some n => (some .placeholder, n)
    | none => match punctuation c with
      | some kind => (some kind, 0)
      | none =>
        if cs.head?.any fun d => wideOperators.contains (c, d) then (some .operator, 1)
        else if narrowOperators.contains c then (some .operator, 0)
        else (some .other, 0)

/-- The pieces of a text whose first `skip` characters belong to a piece already cut; `before` is
the character before the text. -/
def cut : Option Char → Nat → List Char → List Piece
  | _, _, [] => []
  | _, skip + 1, c :: cs => cut (some c) skip cs
  | before, 0, c :: cs =>
    ⟨(next before c cs).1, c :: cs.take (next before c cs).2⟩ ::
      cut (some c) (next before c cs).2 cs

/-- The pieces of a text, in order. -/
def ofText (cs : List Char) : List Piece :=
  cut none 0 cs

/-! ### Nothing is lost -/

/-- The pieces of a text, put together, are the text. -/
theorem texts_cut (before : Option Char) (skip : Nat) (cs : List Char) :
    (cut before skip cs).flatMap Piece.text = cs.drop skip := by
  induction cs generalizing before skip with
  | nil => cases skip <;> simp [cut]
  | cons c cs ih =>
    cases skip with
    | succ k => simpa [cut] using ih (some c) k
    | zero => simp [cut, ih, List.take_append_drop]

/-- No piece is empty. -/
theorem text_ne_nil_of_mem_cut {before : Option Char} {skip : Nat} {cs : List Char} {p : Piece}
    (h : p ∈ cut before skip cs) : p.text ≠ [] := by
  induction cs generalizing before skip with
  | nil => cases skip <;> simp [cut] at h
  | cons c cs ih =>
    cases skip with
    | succ k => exact ih (by simpa [cut] using h)
    | zero =>
      simp only [cut, List.mem_cons] at h
      rcases h with rfl | h
      · simp
      · exact ih h

end Piece

end IndexAdvice
