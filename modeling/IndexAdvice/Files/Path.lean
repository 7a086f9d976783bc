import IndexAdvice.Text.Search

/-!
# Paths

A path is a list of names, from the root if it is absolute. Empty names and single dots in its text
mean nothing, while double dots are kept, and so are exactly two slashes at the beginning. The
suffix of a name is its last dot with what follows, unless the dot is the first or the last
character.
-/

namespace IndexAdvice.Files

/-- A path to a file or directory. -/
structure Path where
  /-- The slashes at the beginning: none, one or two. -/
  root : String
  parts : List String
deriving DecidableEq, Repr

namespace Path

/-- The slashes that count at the beginning of a text: more than two are one. -/
def rootOf (s : String) : String :=
  match (s.toList.takeWhile (· == '/')).length with
  | 0 => ""
  | 2 => "//"
  | _ => "/"

/-- The path of a text. -/
def ofString (s : String) : Path where
  root := rootOf s
  parts := (Text.splitOn '/' s).filter fun p => !p.isEmpty && p != "."

/-- The shortest text of a path. -/
def toString (p : Path) : String :=
  let text := p.root ++ "/".intercalate p.parts
  if text.isEmpty then "." else text

/-- The path that leads on from `p` by the given names. -/
def append (p : Path) (names : List String) : Path :=
  { p with parts := p.parts ++ names }

/-- The text of a path with names put after it one by one. -/
def textWith (p : Path) (names : List String) : String :=
  names.foldl (fun text name => text ++ (if text.endsWith "/" then "" else "/") ++ name) p.toString

/-- The suffix of a file name. -/
def suffix (name : String) : String :=
  let backwards := name.toList.reverse
  let tail := backwards.takeWhile (· != '.')
  if !tail.isEmpty && tail.length + 1 < backwards.length then String.ofList ('.' :: tail.reverse)
  else ""

end Path

end IndexAdvice.Files
