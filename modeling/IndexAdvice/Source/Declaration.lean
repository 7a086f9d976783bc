import IndexAdvice.Source.Place

/-!
# Struct declarations

A struct declaration gives a subject its field list. Its **head** is the word `struct`, a name, and
possibly generic parameters and a `where` clause; the body reaches from the brace after it to the
matching one. The fields of the body are the names before a colon at the beginning of its segments,
which commas and line breaks outside brackets separate.
-/

namespace IndexAdvice.Source

open Text

/-- A named field list. -/
structure Declaration where
  name : String
  fields : List String
  /-- Where its head starts. -/
  position : Nat
  file : String
deriving DecidableEq, Repr

/-! ### Heads -/

/-- Whether the text starts with the word `where` and a blank. -/
def startsWhere (cs : List Char) : Bool :=
  (afterPrefix? "where".toList cs).any fun rest => rest.head?.any isBlank

/-- Whether nothing or a `where` clause comes next. -/
def endsHead (cs : List Char) : Bool :=
  (trimStart cs).isEmpty || startsWhere (trimStart cs)

/-- Whether the head may end after one of the closing angle brackets. -/
def endsAfterAngle : List Char → Bool
  | [] => false
  | c :: cs => if c == '>' && endsHead cs then true else endsAfterAngle cs

/-- Whether what stands between the name and the brace may stand there: generic parameters and a
`where` clause, both optional. -/
def isHeadTail (cs : List Char) : Bool :=
  endsHead cs || ((trimStart cs).head? == some '<' && endsAfterAngle (trimStart cs))

/-- The declared name, where `word` is what follows `struct`, and `tail` what follows the word up to
the brace. A word that ends in `where` may be read as a name and a `where` clause. -/
def declaredName? (word tail : List Char) : Option (List Char) :=
  if isHeadTail tail then some word
  else
    let name := word.take (word.length - 5)
    if !name.isEmpty && startsWhere (word.drop name.length ++ tail) then some name else none

/-- Whether a head may go on after its word. Only then the text up to the brace is looked at. -/
def mayGoOn (word afterWord : List Char) : Bool :=
  let next := trimStart afterWord
  next.head? == some '{' || next.head? == some '<' || startsWhere next ||
    (word.drop (word.length - 5) == "where".toList && afterWord.head?.any isBlank)

/-- Whether a character ends what stands between the name and the brace. -/
def isHeadStop (c : Char) : Bool :=
  c == '{' || c == ';'

/-- The name and the length of the head that the text starts with, its brace included. -/
def head? (cs : List Char) : Option (List Char × Nat) := do
  let rest ← afterPrefix? "struct".toList cs
  let afterBlanks := trimStart rest
  let word := afterBlanks.takeWhile isWordChar
  let afterWord := afterBlanks.drop word.length
  guard (rest.head?.any isBlank && word.head?.any isIdentStart && mayGoOn word afterWord)
  guard (afterWord.find? isHeadStop == some '{')
  let tail := afterWord.takeWhile (!isHeadStop ·)
  let name ← declaredName? word tail
  some (name, 6 + blankCount rest + word.length + tail.length + 1)

/-- A head in a text. -/
structure Head where
  name : List Char
  /-- Where it starts. -/
  place : Place
  /-- The text after the brace. -/
  body : List Char
deriving DecidableEq, Repr

/-- The heads in the text after a place, the first `skip` characters of which belong to a head found
already. -/
def headsFrom (place : Place) (skip : Nat) : List Char → List Head
  | [] => []
  | c :: cs =>
    match skip with
    | k + 1 => headsFrom (place.next c) k cs
    | 0 =>
      if place.atWordStart && c == 's' then
        match head? (c :: cs) with
        | some (name, n + 1) => ⟨name, place, cs.drop n⟩ :: headsFrom (place.next c) n cs
        | _ => headsFrom (place.next c) 0 cs
      else headsFrom (place.next c) 0 cs

/-! ### Bodies -/

/-- How many characters there are before the brace that closes a body, counted from `n`, where
`depth` braces are open. A body that is never closed reaches to the end. -/
def bodyLength (depth n : Nat) : List Char → Nat
  | [] => n
  | c :: cs =>
    if c == '{' then bodyLength (depth + 1) (n + 1) cs
    else if c == '}' then if depth ≤ 1 then n else bodyLength (depth - 1) (n + 1) cs
    else bodyLength depth (n + 1) cs

/-- How many characters an attribute has that the text starts with. -/
def attribute? (cs : List Char) : Option Nat := do
  let rest ← afterPrefix? ['#'] cs
  let bang := markCount '!' (trimStart rest)
  let inner := (trimStart rest).drop bang
  let content ← afterPrefix? ['['] (trimStart inner)
  let n ← throughFirst? [']'] content
  some (1 + blankCount rest + bang + blankCount inner + 1 + n)

/-- A body with a blank in place of every comment and every attribute. -/
def plainBody (body : List Char) : List Char :=
  replaceAll attribute? [' '] (replaceAll lineComment? [' '] (replaceAll blockComment? [' '] body))

/-- The bracket depth after `c`. The bracket of an arrow closes nothing. -/
def bracketDepth (before : Option Char) (c : Char) (depth : Nat) : Nat :=
  if ['<', '(', '[', '{'].contains c then depth + 1
  else if [')', ']', '}'].contains c || (c == '>' && before != some '-') then depth - 1
  else depth

/-- The segments of a body, where `held` is the segment read so far and `done` the segments before
it, all backwards. -/
def segmentsFrom (depth : Nat) (before : Option Char) (held : List Char)
    (done : List (List Char)) : List Char → List (List Char)
  | [] => (held.reverse :: done).reverse
  | c :: cs =>
    let depth' := bracketDepth before c depth
    if (c == ',' || c == '\n') && depth' == 0 then
      segmentsFrom depth' (some c) [] (held.reverse :: done) cs
    else segmentsFrom depth' (some c) (c :: held) done cs

/-- The segments of a body between commas and line breaks that no bracket holds. -/
def segments (body : List Char) : List (List Char) :=
  segmentsFrom 0 none [] [] body

/-! ### Fields -/

/-- The text after the blanks it starts with, if there are any. -/
def afterBlanks? (cs : List Char) : Option (List Char) :=
  if cs.head?.any isBlank then some (trimStart cs) else none

/-- The text after the parenthesised restriction of a visibility. -/
def afterRestriction? (cs : List Char) : Option (List Char) := do
  let inner ← afterPrefix? ['('] (trimStart cs)
  let n ← throughFirst? [')'] inner
  some (inner.drop n)

/-- Where the name of a field may start: after a visibility with a restriction, after one without,
or at the very beginning. -/
def nameStarts (cs : List Char) : List (List Char) :=
  match afterPrefix? "pub".toList cs with
  | some rest =>
    ((afterRestriction? rest).bind afterBlanks?).toList ++ (afterBlanks? rest).toList ++ [cs]
  | none => [cs]

/-- The name that the text starts with, if a single colon follows it. A raw name is listed without
its mark. -/
def nameBeforeColon? (cs : List Char) : Option (List Char) :=
  let cs := (afterPrefix? ['r', '#'] cs).getD cs
  let name := cs.takeWhile isWordChar
  if name.head?.any isIdentStart then
    match trimStart (cs.drop name.length) with
    | ':' :: rest => if rest.head? == some ':' then none else some name
    | _ => none
  else none

/-- The field that a segment declares. -/
def fieldName? (segment : List Char) : Option String :=
  ((nameStarts (trim segment)).findSome? nameBeforeColon?).map String.ofList

/-- The fields of a body, each once. -/
def bodyFields (body : List Char) : List String :=
  ((segments (plainBody body)).filterMap fieldName?).eraseDups

/-! ### Declarations -/

/-- The declarations of a source text that are not commented out, in order. -/
def declarations (file : String) (text : List Char) : List Declaration :=
  ((headsFrom (Place.start text) 0 text).filter (!·.place.isCommented)).map fun h =>
    { name := String.ofList h.name
      fields := bodyFields (h.body.take (bodyLength 1 0 h.body))
      position := h.place.position
      file }

end IndexAdvice.Source
