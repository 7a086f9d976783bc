import IndexAdvice.CommandLine.Command
import IndexAdvice.Files.Change
import IndexAdvice.Files.Listing
import IndexAdvice.Text.ControlSequence

/-!
# Commands on a file tree

A plan is carried out on a file tree up to the first file that cannot be written. The outcome tells
what was printed until then, and the tree as it is afterwards. Standard output is no terminal, so
that control sequences are left out of it.
-/

namespace IndexAdvice.CommandLine

open Files

/-- What carrying out a plan leads to. -/
structure Outcome where
  disk : Disk
  printed : List Console.Item := []
  /-- The text on standard output. -/
  echoed : String := ""
  exitCode : Nat := 0
  /-- What broke the command off. -/
  fault : Option DiskFault := none

namespace Outcome

/-- The outcome of a command that is broken off. -/
def fail (o : Outcome) (fault : DiskFault) : Outcome :=
  { o with exitCode := 1, fault := some fault }

/-- Carries out actions up to the first that fails. -/
def perform (o : Outcome) : List Action → Outcome
  | [] => o
  | .print item :: rest => { o with printed := o.printed ++ [item] }.perform rest
  | .echo text :: rest => { o with echoed := o.echoed ++ Text.withoutControl text }.perform rest
  | .write path text :: rest =>
    match o.disk.write path text.toUTF8 with
    | .ok disk => { o with disk }.perform rest
    | .error fault => o.fail fault

/-- What a command line leads to on a file tree. -/
def ofArguments (now : Moment) (disk : Disk) (args : List String) : Outcome :=
  let command := Command.ofArguments args
  let sources := match command.scanned? with
    | some (settings, path) => disk.sources settings (Path.ofString path)
    | none => .ok []
  let plan := command.plan now sources
  let done := { disk, exitCode := plan.exitCode : Outcome }.perform plan.actions
  plan.fault.elim done done.fail

end Outcome

end IndexAdvice.CommandLine
