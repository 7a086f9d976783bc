import IndexAdvice.Files.Disk

/-!
# Changes to file trees

A simple change gives a new tree or tells what stood in its way. A change of several parts may be
stopped halfway: a `Change` is then the tree as it is afterwards, together with the fault. Files are
written through links, while directories, links and removals concern the entry that a route names.
-/

namespace IndexAdvice.Files

/-- A tree after changes, and what stopped them. -/
structure Change where
  disk : Disk
  fault : Option DiskFault := none

/-- Goes on with another change, unless a fault has stopped the changes already. -/
def Change.andThen (c : Change) (next : Disk → Except DiskFault Disk) : Change :=
  match c.fault with
  | some _ => c
  | none => match next c.disk with
    | .ok disk => { disk }
    | .error fault => { c with fault := some fault }

namespace Disk

/-- The tree with an entry at a path without links and dots. -/
def put (disk : Disk) (real : List String) (entry : Entry) : Disk :=
  { disk with entries := disk.entries.filter (·.1 != real) ++ [(real, entry)] }

/-- The tree without the entry at a path without links and dots. -/
def erase (disk : Disk) (real : List String) : Disk :=
  { disk with entries := disk.entries.filter (·.1 != real) }

/-- The tree without anything below a path without links and dots. -/
def eraseBelow (disk : Disk) (real : List String) : Disk :=
  { disk with entries := disk.entries.filter fun (p, _) => p == real || !real.isPrefixOf p }

/-! ### Files -/

/-- Writes a file. Links are followed, and a missing file is created, also where a link leads. -/
def write (disk : Disk) (text : String) (content : ByteArray) : Except DiskFault Disk := do
  let real ← disk.resolve true text
  if disk.hasDirectory real then .error .isDirectory else .ok (disk.put real (.file content))

/-! ### Entries -/

/-- Where the entry stands that a route names, whether or not it is there; none if the route ends in
dots. The directory has to be there. -/
def place (disk : Disk) (route : Route) : Except DiskFault (Option (List String)) := do
  let outer ← disk.follow false maxLinks (disk.origin route) route.outerSteps
  if route.endsInDots then .ok none
  else if Route.maxNameBytes < route.lastName.utf8ByteSize then .error .nameTooLong
  else .ok (some (outer ++ [route.lastName]))

/-- Whether a text names a link; a slash after it means what the link leads to. -/
def isLink (disk : Disk) (text : String) : Bool :=
  match Route.ofText text with
  | .ok route => match disk.place route with
    | .ok (some real) => !route.closed && (disk.entry? real).any Entry.isLink
    | _ => false
  | .error _ => false

/-- Makes a directory. -/
def makeDirectory (disk : Disk) (text : String) : Except DiskFault Disk := do
  let route ← Route.ofText text
  match ← disk.place route with
  | none => .error .alreadyExists
  | some real =>
    if (disk.entry? real).isSome then .error .alreadyExists else .ok (disk.put real .directory)

/-- The route of a new link, whose target has to be a route as well. Null characters are noticed
first. -/
def linkRoute (text target : String) : Except DiskFault Route :=
  match Route.ofText text, Route.ofText target with
  | .error .nullCharacter, _ => .error .nullCharacter
  | _, .error fault => .error fault
  | result, .ok _ => result

/-- Makes a symbolic link. A slash after its name would ask for a directory. -/
def makeLink (disk : Disk) (text target : String) : Except DiskFault Disk := do
  let route ← linkRoute text target
  match ← disk.place route with
  | none => .error .alreadyExists
  | some real =>
    if (disk.entry? real).isSome then .error .alreadyExists
    else if route.closed then .error .notFound
    else .ok (disk.put real (.link target))

/-- Removes a file or a link. -/
def removeFile (disk : Disk) (text : String) : Except DiskFault Disk := do
  let route ← Route.ofText text
  match ← disk.place route with
  | none => .error .isDirectory
  | some real => match disk.entry? real with
    | none => .error .notFound
    | some .directory => .error .isDirectory
    | some _ => if route.closed then .error .notDirectory else .ok (disk.erase real)

/-- Removes an empty directory. -/
def removeDirectory (disk : Disk) (text : String) : Except DiskFault Disk := do
  let route ← Route.ofText text
  match ← disk.place route with
  | none => .error (if route.lastName == ".." then .notEmpty else .invalid)
  | some real => match disk.entry? real with
    | none => .error .notFound
    | some .directory =>
      if disk.entries.any fun (p, _) => p != real && real.isPrefixOf p then .error .notEmpty
      else .ok (disk.erase real)
    | some _ => .error .notDirectory

/-! ### Changes of several parts -/

/-- Makes a directory if there is nothing yet. -/
def makeMissing (disk : Disk) (text : String) : Except DiskFault Disk :=
  if disk.isThere text then .ok disk
  else match disk.makeDirectory text with
    | .error .alreadyExists => .ok disk
    | result => result

/-- Whether a text ends in a single dot after a directory that is missing. Nothing is left to be
made for it once that directory is made. -/
def isMadeByParent (disk : Disk) (text : String) : Bool :=
  let parent := Route.parentText text
  (Route.read text).lastName == "." && !parent.isEmpty && !disk.isThere parent

/-- Makes a directory after the missing ones that its route leads through. With `mayExist` it may be
there already. -/
def makeDirectories (disk : Disk) (mayExist : Bool) (text : String) : Change :=
  let outer := (Route.outerTexts text).filter (!disk.isMadeByParent ·)
  let made := outer.foldl (fun change t => change.andThen (·.makeMissing t)) { disk }
  if disk.isMadeByParent text then made
  else made.andThen fun disk =>
    match disk.makeDirectory text with
    | .error fault => if mayExist && disk.isDirectory text then .ok disk else .error fault
    | result => result

/-- Makes the directory that holds a new entry. -/
def makeRoom (disk : Disk) (text : String) : Change :=
  let outer := Route.outerText text
  if outer.isEmpty then { disk } else disk.makeDirectories true outer

/-- Removes a file, a link, or a directory with everything in it. -/
def remove (disk : Disk) (text : String) : Change :=
  match disk.realPath text with
  | .ok real =>
    if disk.hasDirectory real && !disk.isLink text then
      { disk := disk.eraseBelow real : Change }.andThen (·.removeDirectory text)
    else { disk : Change }.andThen (·.removeFile text)
  | .error _ => { disk : Change }.andThen (·.removeFile text)

end Disk

end IndexAdvice.Files
