import IndexAdvice.Text.Search

/-!
# Control sequences

A control sequence moves the cursor of a terminal or changes how it writes. It is an escape
character and an opening bracket, parameter characters, intermediate characters, and a final one.
Text for anything but a terminal is freed of them.
-/

namespace IndexAdvice.Text

/-- The characters of the parameters of a control sequence: digits and some punctuation marks. -/
def isParameter (c : Char) : Bool :=
  '0' ≤ c && c ≤ '?'

/-- The characters between the parameters and the final character. -/
def isIntermediate (c : Char) : Bool :=
  ' ' ≤ c && c ≤ '/'

/-- The characters that end a control sequence: letters and some punctuation marks. -/
def isFinal (c : Char) : Bool :=
  '@' ≤ c && c ≤ '~'

/-- How many characters a control sequence has that the text starts with. -/
def controlSequence? : List Char → Option Nat
  | '\x1b' :: '[' :: rest =>
    let parameters := rest.takeWhile isParameter
    let afterParameters := rest.drop parameters.length
    let intermediates := afterParameters.takeWhile isIntermediate
    if (afterParameters.drop intermediates.length).head?.any isFinal then
      some (parameters.length + intermediates.length + 3)
    else none
  | _ => none

/-- A text without its control sequences. -/
def withoutControl (s : String) : String :=
  String.ofList (replaceAll controlSequence? [] s.toList)

end IndexAdvice.Text
