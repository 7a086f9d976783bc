import IndexAdvice.Files.Route

/-!
# File trees

A `Disk` is a tree of files, directories and symbolic links, held as the entries below its root,
with a working directory. A route is followed from the working directory, or from the root if it is
absolute, through directories and links; `realPath` is where it leads, a path from the root without
links and dots.
-/

namespace IndexAdvice.Files

/-- What a name in a directory stands for. -/
inductive Entry where
  | directory
  | file (content : ByteArray)
  | link (target : String)

/-- Whether the entry is a directory. -/
def Entry.isDirectory : Entry → Bool
  | .directory => true
  | _ => false

/-- Whether the entry is a symbolic link. -/
def Entry.isLink : Entry → Bool
  | .link _ => true
  | _ => false

/-- A file tree. -/
structure Disk where
  /-- The entries with their paths from the root. -/
  entries : List (List String × Entry) := []
  /-- The working directory. -/
  home : List String := []

namespace Disk

/-- An empty working directory in a tree of which nothing else is known. No route writes a name with
a slash, so that none leads back into the directory from outside. -/
def workspace : Disk where
  entries := [(["/"], .directory)]
  home := ["/"]

/-- The entry at a path without links and dots. -/
def entry? (disk : Disk) (real : List String) : Option Entry :=
  if real.isEmpty then some .directory else disk.entries.lookup real

/-- Whether there is a directory at a path without links and dots. -/
def hasDirectory (disk : Disk) (real : List String) : Bool :=
  (disk.entry? real).any Entry.isDirectory

/-- The tree below a directory that stands in the root. -/
def enter (disk : Disk) (name : String) : Disk where
  home := disk.home
  entries := disk.entries.filterMap fun (real, entry) =>
    match real with
    | first :: second :: rest => if first == name then some (second :: rest, entry) else none
    | _ => none

/-- The tree below a path without links and dots. -/
def sub (disk : Disk) (real : List String) : Disk :=
  real.foldl enter disk

/-- Where the steps `todo` lead from the directory `done`, below which there is the tree `here`. At
the last of them there need not be anything. `onLink` goes on at a link to `target` with the steps
after it. With `toWrite` a file is meant, so that a slash after the last name is a fault. -/
def walk (disk : Disk) (toWrite : Bool)
    (onLink : (done : List String) → (target : String) → (todo : List String) →
      Except DiskFault (List String)) (done : List String) (here : Disk) :
    (todo : List String) → Except DiskFault (List String)
  | [] => .ok done
  | name :: rest =>
    if name.isEmpty || name == "." then disk.walk toWrite onLink done here rest
    else if name == ".." then disk.walk toWrite onLink done.dropLast (disk.sub done.dropLast) rest
    else if toWrite && rest == [""] then .error .isDirectory
    else if Route.maxNameBytes < name.utf8ByteSize then .error .nameTooLong
    else match here.entry? [name] with
      | none => if rest.isEmpty then .ok (done ++ [name]) else .error .notFound
      | some .directory => disk.walk toWrite onLink (done ++ [name]) (here.enter name) rest
      | some (.file _) => if rest.isEmpty then .ok (done ++ [name]) else .error .notDirectory
      | some (.link target) => onLink done target rest

/-- Where steps lead from a directory, through at most `links` links. -/
def follow (disk : Disk) (toWrite : Bool) (links : Nat) (done todo : List String) :
    Except DiskFault (List String) :=
  let onLink := match links with
    | 0 => fun _ _ _ => .error .tooManyLinks
    | n + 1 => fun done target todo =>
      let onward := Route.read target
      disk.follow toWrite n (if onward.absolute then [] else done) (onward.steps ++ todo)
  disk.walk toWrite onLink done (disk.sub done) todo

/-- How many links a route may lead through. -/
def maxLinks : Nat :=
  40

/-- Where a route starts. -/
def origin (disk : Disk) (route : Route) : List String :=
  if route.absolute then [] else disk.home

/-- Where the route of a text leads. -/
def resolve (disk : Disk) (toWrite : Bool) (text : String) : Except DiskFault (List String) := do
  let route ← Route.ofText text
  disk.follow toWrite maxLinks (disk.origin route) route.steps

/-- The path without links and dots to what the route of a text leads to. -/
def realPath (disk : Disk) (text : String) : Except DiskFault (List String) := do
  let real ← disk.resolve false text
  if (disk.entry? real).isSome then .ok real else .error .notFound

/-- Whether a text leads to anything. -/
def isThere (disk : Disk) (text : String) : Bool :=
  (disk.realPath text).toOption.isSome

/-- Whether a text leads to a directory. -/
def isDirectory (disk : Disk) (text : String) : Bool :=
  (disk.resolve false text).toOption.any disk.hasDirectory

/-- The bytes of the file that a text leads to. -/
def read? (disk : Disk) (text : String) : Option ByteArray :=
  match (disk.realPath text).toOption.bind disk.entry? with
  | some (.file content) => some content
  | _ => none

end Disk

end IndexAdvice.Files
