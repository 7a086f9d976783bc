import IndexAdvice.Text.Search

/-!
# Routes

A route is a path as a file system follows it, from name to name. It keeps the single dots of its
text and the slash at the end, for what stands before one of them has to be a directory. Some texts
are refused as routes whatever the tree holds, and a `DiskFault` tells why.
-/

namespace IndexAdvice.Files

/-- What can stand in the way of an access. -/
inductive DiskFault where
  | notFound | isDirectory | notDirectory | alreadyExists | tooManyLinks | nameTooLong
  /-- A directory to be removed holds something. -/
  | notEmpty
  /-- A directory cannot be removed as the single dot inside it. -/
  | invalid
  /-- A text with a null character names nothing. -/
  | nullCharacter
deriving DecidableEq, Repr

/-- A fault in words. -/
def DiskFault.message : DiskFault → String
  | .notFound => "No such file or directory"
  | .isDirectory => "Is a directory"
  | .notDirectory => "Not a directory"
  | .alreadyExists => "File exists"
  | .tooManyLinks => "Too many levels of symbolic links"
  | .nameTooLong => "File name too long"
  | .notEmpty => "Directory not empty"
  | .invalid => "Invalid argument"
  | .nullCharacter => "embedded null byte"

/-- A path as it is followed. -/
structure Route where
  absolute : Bool
  /-- The names on the way, with single and double dots. -/
  names : List String
  /-- Whether a slash stands at the end. -/
  closed : Bool
deriving DecidableEq, Repr

namespace Route

/-- How many bytes a name may have. -/
def maxNameBytes : Nat :=
  255

/-- How many bytes the text of a route may have. -/
def maxTextBytes : Nat :=
  4095

/-- The route that a text writes. -/
def read (text : String) : Route where
  absolute := text.toList.head? == some '/'
  names := (Text.splitOn '/' text).filter (!·.isEmpty)
  closed := text.toList.getLast? == some '/'

/-- The route that a text writes, if it is one that a file system takes. -/
def ofText (text : String) : Except DiskFault Route :=
  if text.isEmpty then .error .notFound
  else if text.toList.contains '\x00' then .error .nullCharacter
  else if maxTextBytes < text.utf8ByteSize then .error .nameTooLong
  else .ok (read text)

/-- The names on the way, and an empty one for a slash at the end. The empty name leads nowhere
else, just as a single dot. -/
def steps (r : Route) : List String :=
  if r.closed then r.names ++ [""] else r.names

/-- The steps to the directory in which the last name stands. -/
def outerSteps (r : Route) : List String :=
  r.names.dropLast ++ [""]

/-- The last name, which is empty if there is none. -/
def lastName (r : Route) : String :=
  r.names.getLastD ""

/-- Whether the route ends in a name that no entry has. -/
def endsInDots (r : Route) : Bool :=
  ["", ".", ".."].contains r.lastName

/-! ### The texts of outer directories -/

/-- The text before the last slash of a text. -/
def outerText (text : String) : String :=
  String.ofList ((text.toList.reverse.dropWhile (· != '/')).dropWhile (· == '/')).reverse

/-- The text of the directory in which the last name stands. -/
def parentText (text : String) : String :=
  outerText (String.ofList (text.toList.reverse.dropWhile (· == '/')).reverse)

/-- The beginnings of a text, after `before`, that end where a slash and a further name follow. -/
def beginningsFrom (before : List Char) : List Char → List String
  | [] => []
  | c :: cs =>
    let deeper := beginningsFrom (c :: before) cs
    if c == '/' && before.head?.any (· != '/') && cs.any (· != '/') then
      String.ofList before.reverse :: deeper
    else deeper

/-- The texts of the directories that a route leads through, the outermost first. -/
def outerTexts (text : String) : List String :=
  beginningsFrom [] text.toList

end Route

end IndexAdvice.Files
