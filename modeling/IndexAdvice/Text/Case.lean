import IndexAdvice.Text.CaseTable

/-!
# Upper and lower case

Full Unicode case mapping of texts. A letter may become several characters (`ß` becomes `SS`), and
a capital sigma becomes the final form `ς` at the end of a word: a cased letter stands before it,
none after it, and ignorable characters do not count on either side.
-/

namespace IndexAdvice.Text

/-- The upper-case form of one character. -/
def upperOf (c : Char) : List Char :=
  let n := c.toNat
  if n < 128 then [c.toUpper]
  else match CaseRun.map? upperRuns n with
    | some m => [Char.ofNat m]
    | none => match upperExpansions.lookup n with
      | some ms => ms.map Char.ofNat
      | none => [c]

/-- The text in upper case. -/
def upper (s : String) : String :=
  String.ofList (s.toList.flatMap upperOf)

/-- Whether, ignorable characters aside, the text starts with a cased letter. -/
def startsCased : List Char → Bool
  | [] => false
  | c :: cs =>
    if inRanges ignorableRanges c.toNat then startsCased cs else inRanges casedRanges c.toNat

/-- The lower-case form of `c` between the text `before` it, nearest character first, and the
text `after` it. -/
def lowerOf (before : List Char) (c : Char) (after : List Char) : List Char :=
  let n := c.toNat
  if n < 128 then [c.toLower]
  else if n == 931 then
    [if startsCased before && !startsCased after then 'ς' else 'σ']
  else match CaseRun.map? lowerRuns n with
    | some m => [Char.ofNat m]
    | none => match lowerExpansions.lookup n with
      | some ms => ms.map Char.ofNat
      | none => [c]

/-- Lower case of the characters after `before`, which is given nearest character first. -/
def lowerFrom (before : List Char) : List Char → List Char
  | [] => []
  | c :: cs => lowerOf before c cs ++ lowerFrom (c :: before) cs

/-- The text in lower case. -/
def lower (s : String) : String :=
  String.ofList (lowerFrom [] s.toList)

end IndexAdvice.Text
