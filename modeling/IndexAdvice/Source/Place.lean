import IndexAdvice.Source.Comment
import IndexAdvice.Text.Letter
import IndexAdvice.Text.Trim

/-!
# Places in source text

A `Place` lies between two characters of a text and holds what the text before it decides: the line,
whether a word can start, and whether code is commented out. It is commented out in a block comment
and on a line that starts with a comment mark. Going through a text, `Place.next` leads from every
place to the next one, so that no part of the text is looked at twice.
-/

namespace IndexAdvice.Source

open Text

/-- The marks that comment out a line: those of comments, and the star of a continued one. -/
def commentMarks : List (List Char) :=
  [['/', '/'], ['/', '*'], ['*']]

/-- How much of a line the marks need. -/
def markLength : Nat :=
  2

/-- A place in a text. -/
structure Place where
  /-- How many characters are before it. -/
  position : Nat := 0
  /-- The number of its line, counted from one. -/
  line : Nat := 1
  /-- The beginning of its line after blanks, as far as that is before the place and counts for a
  mark. -/
  lead : List Char := []
  /-- The character before it. -/
  before : Option Char := none
  /-- The block comments that end after it. -/
  comments : List (Nat × Nat) := []
deriving DecidableEq, Repr

namespace Place

/-- The place at the beginning of a text. -/
def start (text : List Char) : Place :=
  { comments := blockComments text }

/-- The beginning of a line after one more character. -/
def extendLead (lead : List Char) (c : Char) : List Char :=
  if c == '\n' then []
  else if lead.isEmpty && isBlank c || markLength ≤ lead.length then lead
  else lead ++ [c]

/-- The block comments of a list that end after a position, where those that end before it are left
out already. -/
def endingAfter (position : Nat) : List (Nat × Nat) → List (Nat × Nat)
  | [] => []
  | (start, stop) :: rest => if stop ≤ position then rest else (start, stop) :: rest

/-- The place after the character at `p`. -/
def next (p : Place) (c : Char) : Place where
  position := p.position + 1
  line := if c == '\n' then p.line + 1 else p.line
  lead := extendLead p.lead c
  before := some c
  comments := endingAfter (p.position + 1) p.comments

/-- Whether code at a place is commented out. -/
def isCommented (p : Place) : Bool :=
  p.comments.head?.any (·.1 ≤ p.position) || commentMarks.any (·.isPrefixOf p.lead)

/-- Whether a word can start at a place. -/
def atWordStart (p : Place) : Bool :=
  !p.before.any isWordChar

end Place

end IndexAdvice.Source
