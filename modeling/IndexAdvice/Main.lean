import IndexAdvice.CommandLine.Command
import IndexAdvice.Files.Listing
import IndexAdvice.Report.Plain
import IndexAdvice.Text.ControlSequence
import Std.Time

/-!
# The program

Reads the command line, the source files that the command asks for and the clock, and carries out
the plan of the command. What is to be done is decided by the plan; here it is only done.
-/

namespace IndexAdvice.CommandLine

open Files

/-- How the program is called. -/
def usage : String :=
  "Usage: indexscout [--version] [--help] COMMAND\n\n" ++
  "  scan PATH              recommend indexes for a source file or directory\n" ++
  "  analyze-sql SQL -t TABLE [--fields NAMES]\n" ++
  "                         recommend indexes for a single query\n" ++
  "  dialects               show what each supported database accepts\n"

/-- The files below a directory, where `names` lead there from the directory that is read. Excluded
directories and links to directories are left out, and so is what cannot be read. -/
partial def readTree (settings : Settings) (directory : String) (names : List String) :
    IO (List (List String × Entry)) := do
  let here : IO.FS.DirEntry := ⟨directory, ""⟩
  let mut found := []
  for entry in ← here.root.readDir do
    let path := directory ++ "/" ++ entry.fileName
    let inner := names ++ [entry.fileName]
    try
      match (← entry.path.metadata).type with
      | .dir =>
        if (← entry.path.symlinkMetadata).type != .symlink &&
            !settings.excludedDirs.contains entry.fileName then
          found := (inner, .directory) :: (← readTree settings path inner) ++ found
      | _ =>
        if hasExtension settings entry.fileName then
          found := (inner, .file (← IO.FS.readBinFile entry.path)) :: found
    catch _ => pure ()
  return found

/-- The source files at a path with their texts. -/
def readSources (settings : Settings) (given : String) :
    IO (Except AdviceError (List (String × String))) := do
  let path := Path.ofString given
  let here : IO.FS.DirEntry := ⟨path.toString, ""⟩
  match ← here.root.metadata.toBaseIO with
  | .error _ => return .error (.pathNotFound path.toString)
  | .ok about =>
    if about.type == .dir then
      let disk : Disk := { entries := ← readTree settings path.toString [] }
      return disk.sources settings (Path.ofString ".")
    else
      match ← (IO.FS.readBinFile path.toString).toBaseIO with
      | .error _ => return .ok []
      | .ok content =>
        return .ok ((sourceText? settings content).map (path.toString, ·)).toList

/-- The time it is. -/
def currentMoment : IO Moment := do
  let now ← Std.Time.PlainDateTime.now
  let micros := now.format "SSSSSS"
  return {
    date := now.format "uuuu-MM-dd"
    time := now.format "HH:mm:ss"
    fraction := if micros == "000000" then "" else "." ++ micros }

/-- Does what an action says. -/
def Action.perform : Action → IO Unit
  | .print item => item.toLines.forM fun line => IO.println line
  | .echo text => do
    let isTerminal ← (← IO.getStdout).isTty
    IO.print (if isTerminal then text else Text.withoutControl text)
  | .write path text => IO.FS.writeFile path text

/-- Runs the command of a command line and gives the exit code. -/
def run (args : List String) : IO UInt32 := do
  let command := Command.ofArguments args
  if command == .help then IO.print usage
  if command == .misuse then IO.eprint usage
  let sources ← match command.scanned? with
    | some (settings, path) => readSources settings path
    | none => pure (.ok [])
  let plan := command.plan (← currentMoment) sources
  plan.actions.forM Action.perform
  if let some fault := plan.fault then IO.eprintln fault.message
  return UInt32.ofNat plan.exitCode

end IndexAdvice.CommandLine

/-- The program. -/
def main (args : List String) : IO UInt32 :=
  IndexAdvice.CommandLine.run args
