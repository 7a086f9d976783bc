import IndexAdvice.Text.CharClass

/-!
# Trimming, words and excerpts

Blank characters at the ends of a text, the words between them, and the short forms of a text that
reports show. A position counts characters; `takeTo` reads a negative position from the end.
-/

namespace IndexAdvice.Text

/-! ### Blank ends -/

/-- How many blanks a text starts with. -/
def blankCount (cs : List Char) : Nat :=
  (cs.takeWhile isBlank).length

/-- The text without leading blanks. -/
def trimStart (cs : List Char) : List Char :=
  cs.dropWhile isBlank

/-- The text without trailing blanks. -/
def trimEnd (cs : List Char) : List Char :=
  (cs.reverse.dropWhile isBlank).reverse

/-- The text without blanks at either end. -/
def trim (cs : List Char) : List Char :=
  trimEnd (trimStart cs)

theorem length_trimStart_le (cs : List Char) : (trimStart cs).length ≤ cs.length :=
  (List.dropWhile_suffix _).length_le

theorem length_trimEnd_le (cs : List Char) : (trimEnd cs).length ≤ cs.length := by
  simpa [trimEnd] using (List.dropWhile_suffix (l := cs.reverse) isBlank).length_le

/-- Trimming never lengthens a text. -/
theorem length_trim_le (cs : List Char) : (trim cs).length ≤ cs.length :=
  Nat.le_trans (length_trimEnd_le _) (length_trimStart_le _)

/-- `trim` on strings. -/
def strip (s : String) : String :=
  String.ofList (trim s.toList)

/-- A text of blanks only. -/
def isBlankText (cs : List Char) : Bool :=
  cs.all isBlank

/-! ### Words -/

/-- The words of a text that continues a word read so far, given backwards. -/
def wordsFrom (word : List Char) : List Char → List (List Char)
  | [] => if word.isEmpty then [] else [word.reverse]
  | c :: cs =>
    if isBlank c then
      if word.isEmpty then wordsFrom [] cs else word.reverse :: wordsFrom [] cs
    else wordsFrom (c :: word) cs

/-- The maximal runs of non-blank characters. -/
def words (cs : List Char) : List (List Char) :=
  wordsFrom [] cs

/-! ### Excerpts -/

/-- The first `k` characters; a negative `k` leaves out that many at the end. -/
def takeTo (k : Int) (cs : List Char) : List Char :=
  if 0 ≤ k then cs.take k.toNat else cs.take (cs.length - k.natAbs)

/-- The characters from position `start` up to position `stop`. -/
def slice (cs : List Char) (start stop : Nat) : List Char :=
  (cs.drop start).take (stop - start)

theorem length_slice_le (cs : List Char) (start stop : Nat) :
    (slice cs start stop).length ≤ cs.length - start := by
  simp only [slice, List.length_take, List.length_drop]
  omega

/-- The text on one line, its words one space apart, cut to `limit` characters of which the last
three are dots. -/
def shorten (limit : Int) (s : String) : String :=
  let line := [' '].intercalate (words s.toList)
  if (line.length : Int) ≤ limit then String.ofList line
  else String.ofList (takeTo (limit - 3) line ++ ['.', '.', '.'])

/-- The number of the line that position `k` lies on, counted from one. -/
def lineNumber (cs : List Char) (k : Int) : Nat :=
  (takeTo k cs).count '\n' + 1

end IndexAdvice.Text
