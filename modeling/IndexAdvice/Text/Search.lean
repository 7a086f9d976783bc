import IndexAdvice.Text.CharClass

/-!
# Searching, splitting and replacing in long texts

These functions run over whole source files, so they keep what they have found in an accumulator
and need no stack. A matcher tells how many characters of a text match from its beginning, none
counting as no match.
-/

namespace IndexAdvice.Text

/-- How many characters there are through the first occurrence of `pattern`, counted from `n`. -/
def searchFrom (pattern : List Char) (n : Nat) : List Char → Option Nat
  | [] => if pattern.isEmpty then some n else none
  | c :: cs =>
    if pattern.isPrefixOf (c :: cs) then some (n + pattern.length)
    else searchFrom pattern (n + 1) cs

/-- How many characters there are through the first occurrence of `pattern`. -/
def throughFirst? (pattern cs : List Char) : Option Nat :=
  searchFrom pattern 0 cs

/-- The text after `pattern`, if it starts with that. -/
def afterPrefix? (pattern cs : List Char) : Option (List Char) :=
  if pattern.isPrefixOf cs then some (cs.drop pattern.length) else none

/-- How many characters `mark` takes at the beginning of a text where it may stand. -/
def markCount (mark : Char) (cs : List Char) : Nat :=
  if cs.head? == some mark then 1 else 0

/-- The parts of a text between the occurrences of `mark`, where `held` is the part read so far,
backwards. -/
def splitFrom (mark : Char) (held : List Char) : List Char → List (List Char)
  | [] => [held.reverse]
  | c :: cs =>
    if c == mark then held.reverse :: splitFrom mark [] cs else splitFrom mark (c :: held) cs

/-- The parts of a text between the occurrences of a character, empty ones included. -/
def splitOn (mark : Char) (s : String) : List String :=
  (splitFrom mark [] s.toList).map String.ofList

/-- The text with every match replaced. The first `skip` characters belong to a match already
replaced, and `done` is the result so far, backwards. -/
def replaceFrom (matcher : List Char → Option Nat) (replacement : List Char) (skip : Nat)
    (done : List Char) : List Char → List Char
  | [] => done.reverse
  | c :: cs =>
    match skip with
    | k + 1 => replaceFrom matcher replacement k done cs
    | 0 =>
      match matcher (c :: cs) with
      | some (n + 1) => replaceFrom matcher replacement n (replacement.reverse ++ done) cs
      | _ => replaceFrom matcher replacement 0 (c :: done) cs

/-- The text with every match replaced, from left to right. -/
def replaceAll (matcher : List Char → Option Nat) (replacement cs : List Char) : List Char :=
  replaceFrom matcher replacement 0 [] cs

theorem replaceFrom_eq (matcher : List Char → Option Nat) (replacement : List Char) (skip : Nat)
    (done cs : List Char) :
    replaceFrom matcher replacement skip done cs =
      done.reverse ++ replaceFrom matcher replacement skip [] cs := by
  induction cs generalizing skip done with
  | nil => simp [replaceFrom]
  | cons c cs ih =>
    cases skip with
    | succ k => simpa only [replaceFrom] using ih k done
    | zero =>
      simp only [replaceFrom]
      split
      · rw [ih, ih _ (_ ++ [])]
        simp
      · rw [ih, ih _ [c]]
        simp

end IndexAdvice.Text
