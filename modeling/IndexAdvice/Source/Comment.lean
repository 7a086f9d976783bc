import IndexAdvice.Text.Search

/-!
# Comments in source text

Block comments do not nest, and one that is never closed is none. Line comments end before their
line break.
-/

namespace IndexAdvice.Source

open Text

/-- How many characters a block comment has that the text starts with. -/
def blockComment? (cs : List Char) : Option Nat :=
  (afterPrefix? ['/', '*'] cs).bind fun rest => (throughFirst? ['*', '/'] rest).map (· + 2)

/-- How many characters a line comment has that the text starts with, its line break excluded. -/
def lineComment? (cs : List Char) : Option Nat :=
  (afterPrefix? ['/', '/'] cs).map fun rest => (rest.takeWhile (· != '\n')).length + 2

/-- The block comments of a text that starts at `position` and whose first `skip` characters belong
to a comment found already. Where one is never closed, none after it is. -/
def blockCommentsFrom (position skip : Nat) : List Char → List (Nat × Nat)
  | [] => []
  | c :: cs =>
    match skip with
    | k + 1 => blockCommentsFrom (position + 1) k cs
    | 0 =>
      match afterPrefix? ['/', '*'] (c :: cs) with
      | none => blockCommentsFrom (position + 1) 0 cs
      | some content =>
        match throughFirst? ['*', '/'] content with
        | some n => (position, position + n + 2) :: blockCommentsFrom (position + 1) (n + 1) cs
        | none => []

/-- From where to where the block comments of a text reach. -/
def blockComments (cs : List Char) : List (Nat × Nat) :=
  blockCommentsFrom 0 0 cs

end IndexAdvice.Source
