import IndexAdvice.Error
import IndexAdvice.Files.Decode
import IndexAdvice.Files.Disk
import IndexAdvice.Files.Path
import IndexAdvice.Sorting

/-!
# Source files of a tree

The files that an analysis covers: a single file, or all files below a directory that have one of
the configured extensions. Excluded directories and linked ones are not entered. In every directory
its own files come first and then those of its subdirectories, in code-point order; `walkLe` is that
order on paths.
-/

namespace IndexAdvice.Files

/-- The order of a walk: at the first name in which two paths differ, a file comes before what lies
in a directory, and otherwise the names decide. -/
def walkLe : List String → List String → Bool
  | [], _ => true
  | _ :: _, [] => false
  | [a], [b] => a ≤ b
  | [_], _ :: _ :: _ => true
  | _ :: _ :: _, [_] => false
  | a :: a' :: as, b :: b' :: bs =>
    if a == b then walkLe (a' :: as) (b' :: bs) else a ≤ b

/-- Whether a file name has one of the configured extensions, in any letter case. -/
def hasExtension (settings : Settings) (name : String) : Bool :=
  (settings.extensions.map Text.lower).contains (Text.lower (Path.suffix name))

/-- The text of a source file with the given bytes, unless they are too many. -/
def sourceText? (settings : Settings) (content : ByteArray) : Option String :=
  if settings.maxFileSize < content.size then none else some (textOf content)

namespace Disk

/-- Whether an entry counts as a file when a directory is walked: a file, or a link to anything but
a directory. The text leads to the entry. -/
def isListed (disk : Disk) (text : String) : Entry → Bool
  | .directory => false
  | .file _ => true
  | .link _ => !disk.isDirectory text

/-- The source files below the directory `root`, in the order of a walk that enters it by `path`. A
directory is left out if the text of the path to it is too long. -/
def filesBelow (disk : Disk) (settings : Settings) (path : Path) (root : List String) :
    List (List String) :=
  let found := (disk.sub root).entries.filter fun (names, entry) =>
    names.getLast?.any (hasExtension settings) &&
      !names.dropLast.any settings.excludedDirs.contains &&
      (path.textWith names.dropLast).utf8ByteSize ≤ Route.maxTextBytes &&
      disk.isListed (path.textWith names) entry
  sortBy walkLe (found.map (·.1))

/-- The text of a source file, unless it is too large or cannot be read. -/
def readSource (disk : Disk) (settings : Settings) (path : Path) : Option String :=
  (disk.read? path.toString).bind (sourceText? settings)

/-- What a path to be scanned leads to, and whether that is a directory. A name that is too long is
a fault of its own. -/
def scanRoot (disk : Disk) (path : Path) : Except AdviceError (List String × Bool) :=
  match disk.realPath path.toString with
  | .ok real => .ok (real, disk.hasDirectory real)
  | .error .nameTooLong => .error (.disk .nameTooLong)
  | .error _ => .error (.pathNotFound path.toString)

/-- The source files at a path. -/
def sourceFiles (disk : Disk) (settings : Settings) (path : Path) :
    Except AdviceError (List Path) := do
  let (real, isDir) ← disk.scanRoot path
  if isDir then .ok ((disk.filesBelow settings path real).map path.append) else .ok [path]

/-- The readable source files at a path with their texts. A file below a directory is shown with its
path from there. -/
def sources (disk : Disk) (settings : Settings) (path : Path) :
    Except AdviceError (List (String × String)) := do
  let (real, isDir) ← disk.scanRoot path
  if isDir then
    .ok ((disk.filesBelow settings path real).filterMap fun names =>
      (disk.readSource settings (path.append names)).map ("/".intercalate names, ·))
  else .ok ((disk.readSource settings path).map (path.toString, ·)).toList

end Disk

end IndexAdvice.Files
