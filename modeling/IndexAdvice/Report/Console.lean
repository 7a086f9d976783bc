import IndexAdvice.Report
import IndexAdvice.Text.Letter
import IndexAdvice.Text.Trim

/-!
# The report on a console

What is printed is a sequence of items: lines with style tags, framed panels, and tables. Values
that could be read as style tags are escaped: a tag-like stretch gets a backslash before it, and the
backslashes that were there are doubled.
-/

namespace IndexAdvice.Console

/-! ### Items -/

/-- A column of a printed table. -/
structure Column where
  header : String
  style : String := ""
  justify : String := "left"
deriving DecidableEq, Repr

/-- Something that is printed. -/
inductive Item where
  | line (text : String)
  | panel (text : String) (title : Option String) (style : String)
  | table (title : String) (showLines : Bool) (columns : List Column) (rows : List (List String))
deriving DecidableEq, Repr

/-! ### Escaping -/

/-- What may follow the bracket of a style tag. -/
def startsTag (c : Char) : Bool :=
  c.isLower || c == '#' || c == '/' || c == '@'

/-- How many characters a style tag has that the text starts with. -/
def tag? (cs : List Char) : Option Nat :=
  match cs with
  | '[' :: c :: rest =>
    if startsTag c then
      let inner := rest.takeWhile fun d => d != '[' && d != ']'
      if (rest.drop inner.length).head? == some ']' then some (inner.length + 3) else none
    else none
  | _ => none

/-- The text with its tags escaped. So many `slashes` stand right before the text, and they are not
part of `done`, the result so far, backwards; the first `skip` characters belong to a tag. -/
def escapeFrom (slashes skip : Nat) (done : List Char) : List Char → List Char
  | [] => (List.replicate slashes '\\' ++ done).reverse
  | c :: cs =>
    match skip with
    | k + 1 => escapeFrom 0 k (c :: done) cs
    | 0 =>
      if c == '\\' then escapeFrom (slashes + 1) 0 done cs
      else match tag? (c :: cs) with
        | some (n + 1) =>
          escapeFrom 0 n (c :: List.replicate (2 * slashes + 1) '\\' ++ done) cs
        | _ => escapeFrom 0 0 (c :: List.replicate slashes '\\' ++ done) cs

/-- The text as it has to be printed to appear as it is. A single backslash at its end is doubled,
so that it escapes nothing that follows. -/
def escape (s : String) : String :=
  let escaped := escapeFrom 0 0 [] s.toList
  match escaped.reverse with
  | '\\' :: '\\' :: _ => String.ofList escaped
  | '\\' :: _ => String.ofList (escaped ++ ['\\'])
  | _ => String.ofList escaped

/-! ### The report -/

/-- The panel at the top. -/
def header (r : Report) : Item :=
  .panel
    ("[bold white]IndexScout Report[/]\nSource: " ++
      escape (if r.source.isEmpty then "-" else r.source) ++
      "\nDialect: " ++ escape r.capabilities.summary ++
      s!"\nFiles scanned: {r.filesScanned}  Queries: {r.queries.length}  " ++
      s!"Recommendations: {r.recommendations.length}")
    none "bold blue"

/-- The row of a recommendation. -/
def recommendationRow (rec : Recommendation) : List String :=
  let covering := if rec.covering.isEmpty then ""
    else "\n[dim]include: " ++ ", ".intercalate rec.covering ++ "[/dim]"
  [escape rec.name, ", ".intercalate rec.columns ++ covering, escape rec.statement,
    escape rec.reason]

/-- The recommendations, a table for each table. -/
def recommendations (r : Report) : List Item :=
  if r.recommendations.isEmpty then [.line "[green]No index recommendations.[/green]"]
  else r.byTable.map fun (table, recs) =>
    .table ("Table: " ++ escape table) true
      [{ header := "Index", style := "bold" }, { header := "Columns" },
        { header := "Statement", style := "cyan" }, { header := "Reason", style := "dim" }]
      (recs.map recommendationRow)

/-- The notes, if there are any. -/
def notes (r : Report) : List Item :=
  if r.notes.isEmpty then []
  else [.panel ("\n".intercalate (r.notes.map fun note => "- " ++ escape note)) (some "Notes")
    "yellow"]

/-- The duplicates, if there are any. -/
def duplicates (r : Report) : List Item :=
  if r.duplicates.isEmpty then []
  else [.table "Folded Duplicates" false
    [{ header := "Table" }, { header := "Columns" }, { header := "Same As" },
      { header := "Query", style := "dim" }]
    (r.duplicates.map fun d =>
      [escape d.table, ", ".intercalate d.columns, escape d.duplicateOf,
        escape (Text.shorten 60 d.sql)])]

/-- The hotspots of the join graph, if there are any. -/
def hotspots (r : Report) : List Item :=
  let busy := r.joinGraph.hotspots.filter fun h => 0 < h.degree
  if busy.isEmpty then []
  else [.table "Join Hotspots" false
    [{ header := "Table" }, { header := "Joins", justify := "right" },
      { header := "Joined By", justify := "right" }]
    (busy.map fun h => [escape h.table, s!"{h.joins}", s!"{h.joinedBy}"])]

/-- The items of a report; duplicates are listed on request. -/
def ofReport (verbose : Bool) (r : Report) : List Item :=
  [header r] ++ recommendations r ++ notes r ++ (if verbose then duplicates r else []) ++ hotspots r

/-! ### Dialects -/

/-- A capability as yes or no. -/
def mark (supported : Bool) : String :=
  if supported then "[green]yes[/green]" else "[red]no[/red]"

/-- The table of all dialects and their capabilities. -/
def dialectTable (mysqlVersion : Int) : Item :=
  .table "Dialect Capabilities" false
    [{ header := "Dialect", style := "bold" }, { header := "INCLUDE", justify := "center" },
      { header := "Partial", justify := "center" },
      { header := "IF NOT EXISTS", justify := "center" },
      { header := "Transactional DDL", justify := "center" }, { header := "Join Types" }]
    (Dialect.all.map fun d =>
      let caps := Capabilities.of d (some mysqlVersion)
      [caps.title, mark caps.covering, mark caps.filtered, mark caps.guarded,
        mark caps.transactional, ", ".intercalate caps.joinKeywords])

end IndexAdvice.Console
