import IndexAdvice.Sorting
import IndexAdvice.Source.Place

/-!
# Query calls

A query call is `Subject::method("…")` or `Subject::method!("…")`, with blanks allowed between its
parts. Its argument is a plain string literal, whose escapes are resolved, or a raw one, which is
taken as it stands. Longer method names are tried before shorter ones.
-/

namespace IndexAdvice.Source

open Text

/-! ### String literals -/

/-- How many characters a plain literal has before its closing quote, counted from `n`. A backslash
protects the character after it. -/
def plainLength? (n : Nat) : List Char → Option Nat
  | [] => none
  | [c] => if c == '"' then some n else none
  | c :: d :: cs =>
    if c == '"' then some n
    else if c == '\\' then plainLength? (n + 2) cs
    else plainLength? (n + 1) (d :: cs)

/-- How many characters a line continuation has that the text starts with: a backslash before a
line break, and the blanks of the next line. -/
def continuation? : List Char → Option Nat
  | '\\' :: '\n' :: rest => some (2 + blankCount rest)
  | '\\' :: '\r' :: '\n' :: rest => some (3 + blankCount rest)
  | _ => none

/-- What a backslash and a character stand for. -/
def escaped (c : Char) : Char :=
  if c == 'n' then '\n' else if c == 't' then '\t' else if c == 'r' then '\r'
  else if c == '0' then '\x00' else c

/-- The text with its escapes resolved; `done` is the result so far, backwards. A backslash before a
line break stays. -/
def resolveEscapes (done : List Char) : List Char → List Char
  | [] => done.reverse
  | [c] => (c :: done).reverse
  | c :: d :: cs =>
    if c == '\\' && d != '\n' then resolveEscapes (escaped d :: done) cs
    else resolveEscapes (c :: done) (d :: cs)

/-- The value of a plain literal. -/
def plainValue (cs : List Char) : List Char :=
  resolveEscapes [] (replaceAll continuation? [] cs)

/-- The value of the literal that the text starts with, and how many characters it has. -/
def literal? : List Char → Option (List Char × Nat)
  | 'r' :: rest => do
    let hashes := rest.takeWhile (· == '#')
    let content ← afterPrefix? ['"'] (rest.drop hashes.length)
    let n ← throughFirst? ('"' :: hashes) content
    some (content.take (n - (hashes.length + 1)), 1 + hashes.length + 1 + n)
  | '"' :: rest => do
    let n ← plainLength? 0 rest
    some (plainValue (rest.take n), n + 2)
  | _ => none

/-! ### Calls -/

/-- A query call in a text. -/
structure Call where
  subject : String
  method : String
  /-- The value of the argument. -/
  argument : List Char
  /-- Where the subject starts. -/
  place : Place
deriving DecidableEq, Repr

/-- The argument of a call and how many characters there are through it, where `cs` follows the
method name. -/
def argument? (cs : List Char) : Option (List Char × Nat) := do
  let named := trimStart cs
  let bang := markCount '!' named
  let marked := named.drop bang
  let opened ← afterPrefix? ['('] (trimStart marked)
  let (value, n) ← literal? (trimStart opened)
  some (value, blankCount cs + bang + blankCount marked + 1 + blankCount opened + n)

/-- The call of a method that the text starts with: the method, the argument and how many characters
there are through it. -/
def methodCall? (methods : List (List Char)) (cs : List Char) :
    Option (List Char × List Char × Nat) :=
  methods.findSome? fun m => do
    let rest ← afterPrefix? m cs
    let (value, n) ← argument? rest
    some (m, value, m.length + n)

/-- The texts that are left when some of the blanks are skipped that a text starts with, each with
the number of those skipped. The most come first; `n` blanks and the texts `ends` came before. -/
def blankEndsFrom (n : Nat) (ends : List (Nat × List Char)) : List Char → List (Nat × List Char)
  | [] => (n, []) :: ends
  | c :: cs =>
    if isBlank c then blankEndsFrom (n + 1) ((n, c :: cs) :: ends) cs else (n, c :: cs) :: ends

/-- The texts that are left when blanks are skipped, with their number, the most first. -/
def blankEnds (cs : List Char) : List (Nat × List Char) :=
  blankEndsFrom 0 [] cs

/-- The call that starts a text at a place, and how many characters it has. -/
def call? (methods : List (List Char)) (place : Place) (cs : List Char) : Option (Call × Nat) := do
  let subject := cs.takeWhile isWordChar
  let afterSubject := cs.drop subject.length
  let path ← afterPrefix? [':', ':'] (trimStart afterSubject)
  let (m, value, n) ← (blankEnds path).findSome? fun (blanks, rest) =>
    (methodCall? methods rest).map fun (m, value, n) => (m, value, blanks + n)
  some (⟨String.ofList subject, String.ofList m, value, place⟩,
    subject.length + blankCount afterSubject + 2 + n)

/-- The calls in the text after a place, the first `skip` characters of which belong to a call found
already. -/
def callsFrom (methods : List (List Char)) (place : Place) (skip : Nat) : List Char → List Call
  | [] => []
  | c :: cs =>
    match skip with
    | k + 1 => callsFrom methods (place.next c) k cs
    | 0 =>
      if place.atWordStart && isIdentStart c then
        match call? methods place (c :: cs) with
        | some (found, n + 1) => found :: callsFrom methods (place.next c) n cs
        | _ => callsFrom methods (place.next c) 0 cs
      else callsFrom methods (place.next c) 0 cs

/-- The calls of the given methods in a text, in order. -/
def calls (methods : List String) (text : List Char) : List Call :=
  let longestFirst := sortBy (fun a b => b.length ≤ a.length) (methods.map (·.toList))
  callsFrom longestFirst (Place.start text) 0 text

end IndexAdvice.Source
