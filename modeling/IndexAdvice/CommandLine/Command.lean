import IndexAdvice.Advisor
import IndexAdvice.CommandLine.Arguments
import IndexAdvice.Report.Console
import IndexAdvice.Report.Document
import IndexAdvice.Report.Page
import IndexAdvice.Report.Script

/-!
# Commands

`Command.ofArguments` reads a command line. `Command.plan` says what the command does: a list of
actions, which print, write to standard output or write a file, and the exit code when all of them
succeed. Only the sources that `Command.scanned?` asks for come from outside.
-/

namespace IndexAdvice.CommandLine

/-! ### Reading the command line -/

/-- The forms in which a scan can be reported. -/
inductive Format where
  | console | json | html | sql
deriving DecidableEq, Repr

/-- The format of a name. -/
def Format.ofName? (name : String) : Option Format :=
  [("console", .console), ("json", .json), ("html", .html), ("sql", .sql)].lookup name

/-- What is to be scanned and where the report goes. -/
structure ScanRequest where
  settings : Settings
  path : String
  format : Format
  /-- The file to write, unless that is empty. -/
  output : String
  /-- The file for the rollback script, unless that is empty. -/
  rollback : String
  verbose : Bool
deriving DecidableEq, Repr

/-- What is to be analyzed. -/
structure QueryRequest where
  settings : Settings
  sql : String
  table : String
  fields : List String
  verbose : Bool
deriving DecidableEq, Repr

/-- The commands. -/
inductive Command where
  /-- The command line is malformed. -/
  | misuse
  | help
  | showVersion
  | scan (request : ScanRequest)
  | analyze (request : QueryRequest)
  | dialects (mysqlVersion : Int)
deriving DecidableEq, Repr

/-- The option that asks for help, which every command has. -/
def helpOption : OptionSpec :=
  { name := "help", takesValue := false }

/-- The options that say how to analyze. -/
def analysisOptions : List OptionSpec :=
  [{ name := "dialect", short := some 'd' }, { name := "mysql-version" },
    { name := "if-not-exists", takesValue := false }, { name := "snake-case", takesValue := false },
    { name := "no-split-or", takesValue := false },
    { name := "verbose", short := some 'v', takesValue := false }, helpOption]

/-- The last value of an option, read as it has to be, or a standard one. Values before the last do
not count, whatever they are. -/
def lastValue? {α : Type} (g : Given) (name : String) (parse? : String → Option α)
    (standard : α) : Option α :=
  match g.value? name with
  | some value => parse? value
  | none => some standard

/-- The settings that the options ask for. -/
def settingsOf (g : Given) (mysqlVersion : Int) : Settings :=
  let extensions := (g.values "ext").map fun e => if e.toList.head? == some '.' then e else "." ++ e
  { dialect := (g.value? "dialect").getD "postgres"
    mysqlVersion
    extensions := if extensions.isEmpty then [".rs"] else extensions
    splitOrBranches := !g.flag "no-split-or"
    ifNotExists := g.flag "if-not-exists"
    snakeCaseTables := g.flag "snake-case" }

/-- Whether a text has a null character, so that it cannot be a path. -/
def hasNull (s : String) : Bool :=
  s.toList.contains '\x00'

/-- The request of a scan command. A path that cannot be one is noticed before further arguments
are. -/
def scanRequest? (g : Given) : Option ScanRequest := do
  let path :: extra := g.positional | none
  let mysqlVersion ← lastValue? g "mysql-version" integer? 8
  let format ← lastValue? g "format" Format.ofName? .console
  guard (extra.isEmpty || hasNull path)
  some
    { settings := settingsOf g mysqlVersion
      path, format
      output := (g.value? "output").getD ""
      rollback := (g.value? "rollback").getD ""
      verbose := g.flag "verbose" }

/-- The request of a query command. -/
def queryRequest? (g : Given) : Option QueryRequest := do
  let [sql] := g.positional | none
  let mysqlVersion ← lastValue? g "mysql-version" integer? 8
  let table ← g.value? "table"
  some
    { settings := settingsOf g mysqlVersion
      sql, table
      fields := Text.splitOn ',' ((g.value? "fields").getD "")
      verbose := g.flag "verbose" }

/-- The command that options and arguments make, unless help is asked for. -/
def orHelp (given : Option Given) (command : Given → Option Command) : Command :=
  match given with
  | none => .misuse
  | some g => if g.flag "help" then .help else (command g).getD .misuse

namespace Command

/-- The command of a name with its arguments. -/
def named? (name : String) (args : List String) : Option Command :=
  if name == "scan" then
    let specs := analysisOptions ++ [{ name := "ext" }, { name := "output", short := some 'o' },
      { name := "rollback" }, { name := "format", short := some 'f' }]
    some (orHelp (read specs true args) fun g => (scanRequest? g).map .scan)
  else if name == "analyze-sql" then
    let specs := analysisOptions ++ [{ name := "table", short := some 't' }, { name := "fields" }]
    some (orHelp (read specs true args) fun g => (queryRequest? g).map .analyze)
  else if name == "dialects" then
    some (orHelp (read [{ name := "mysql-version" }, helpOption] true args) fun g =>
      if g.positional.isEmpty then (lastValue? g "mysql-version" integer? 8).map .dialects
      else none)
  else none

/-- Reads the options of the program itself, which stand before the name of a command. -/
def readProgramOptions (args : List String) : Option Given :=
  read [{ name := "version", takesValue := false }, helpOption] false args

/-- What the first option of the program itself asks for. -/
def ofProgramOption? (g : Given) : Option Command :=
  g.options.head?.map fun (name, _) => if name == "version" then .showVersion else .help

/-- The command of a command line. Two dashes do not hide an option of the program itself that
stands in place of a command. -/
def ofArguments (args : List String) : Command :=
  match readProgramOptions args with
  | none => .misuse
  | some g =>
    match ofProgramOption? g, g.positional with
    | some command, _ => command
    | none, [] => .misuse
    | none, name :: rest => (named? name rest).getD
      (((readProgramOptions (name :: rest)).bind ofProgramOption?).getD .misuse)

/-- The settings and the path of the sources that the command reads. -/
def scanned? : Command → Option (Settings × String)
  | .scan request => some (request.settings, request.path)
  | _ => none

end Command

/-! ### What a command does -/

/-- A single effect of a command. -/
inductive Action where
  | print (item : Console.Item)
  | echo (text : String)
  | write (path text : String)
deriving DecidableEq, Repr

/-- The effects of a command, in order, and the exit code if none of them fails. -/
structure Plan where
  actions : List Action
  exitCode : Nat
  /-- What breaks the command off after its effects. -/
  fault : Option Files.DiskFault := none
deriving DecidableEq, Repr

namespace Plan

/-- The plan that prints a line for each message and fails. -/
def refuse (messages : List String) : Plan where
  actions := messages.map fun m => .print (.line ("[red]Error:[/red] " ++ m))
  exitCode := 1

/-- The plan that reports an error. Each fault of settings has a line of its own, and one of the
file tree breaks the command off. -/
def ofError : AdviceError → Plan
  | .invalidSettings faults => refuse (faults.map (·.message))
  | .disk fault => { actions := [], exitCode := 1, fault := some fault }
  | e => refuse [e.message]

/-- The items of a report. -/
def printed (verbose : Bool) (r : Report) : List Action :=
  (Console.ofReport verbose r).map .print

/-- Writes a file and says so. -/
def saved (label path text : String) : List Action :=
  [.write path text, .print (.line ("[green]" ++ label ++ " saved to:[/green] " ++ path))]

/-- The effects of reporting a scan. -/
def ofReport (now : Moment) (request : ScanRequest) (r : Report) : List Action :=
  let toFile (text : String) :=
    if request.output.isEmpty then printed request.verbose r
    else
      [.write request.output text,
        .print (.line ("\n[green]Report saved to:[/green] " ++ request.output))]
  match request.format with
  | .console => printed request.verbose r
  | .json => toFile (r.toJson now).pretty
  | .html => toFile (r.toHtml now)
  | .sql =>
    (if request.output.isEmpty then [.echo r.createScript]
      else saved "Script" request.output r.createScript) ++
    (if request.rollback.isEmpty then []
      else saved "Rollback" request.rollback r.rollbackScript)

end Plan

/-- What a command does at the given time, with the sources it asked for. -/
def Command.plan (now : Moment) (sources : Except AdviceError (List (String × String))) :
    Command → Plan
  | .misuse => { actions := [], exitCode := 2 }
  | .help => { actions := [], exitCode := 0 }
  | .showVersion =>
    { actions := [.echo ("indexscout, version " ++ version ++ "\n")], exitCode := 0 }
  | .dialects mysqlVersion =>
    { actions := [.print (Console.dialectTable mysqlVersion)], exitCode := 0 }
  | .analyze request =>
    match Advisor.ofSettings none request.settings with
    | .error e => .ofError e
    | .ok advisor =>
      let report := advisor.analyzeQuery request.sql request.table request.fields
      { actions := Plan.printed request.verbose report, exitCode := 0 }
  | .scan request =>
    if hasNull request.path then .ofError (.disk .nullCharacter)
    else match Advisor.ofSettings none request.settings, sources with
    | .error e, _ => .ofError e
    | .ok _, .error e => .ofError e
    | .ok advisor, .ok texts =>
      let report := advisor.analyzeSources request.path texts
      { actions := Plan.ofReport now request report, exitCode := 0 }

end IndexAdvice.CommandLine
