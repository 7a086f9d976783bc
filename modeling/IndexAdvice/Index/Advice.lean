import IndexAdvice.Sorting
import IndexAdvice.Index.Candidate
import IndexAdvice.Index.Statement
import IndexAdvice.Query
import IndexAdvice.Settings

/-!
# Index advice

Queries are grouped by table, a nested query under the subject that its table is named after. Each
candidate with a key that is new for its table becomes a recommendation; a candidate with a known
key is reported as a duplicate of the recommendation that has it. Notes tell what was left out and
why, each note once.
-/

namespace IndexAdvice

/-- A recommended index. -/
structure Recommendation where
  table : String
  name : String
  /-- The key columns. -/
  columns : List String
  covering : List String
  /-- The condition of a partial index. -/
  condition : Option String
  reason : String
  dialect : Dialect
  /-- The statement that creates the index. -/
  statement : String
  /-- Where the query was found. -/
  source : String
  /-- The text of the query. -/
  sql : String
  origin : Option Origin
deriving DecidableEq, Repr

/-- A candidate whose key another recommendation for its table has already. -/
structure Duplicate where
  table : String
  columns : List String
  /-- The name of the recommended index. -/
  duplicateOf : String
  source : String
  sql : String
deriving DecidableEq, Repr

/-- The outcome of an analysis. -/
structure Advice where
  recommendations : List Recommendation := []
  duplicates : List Duplicate := []
  notes : List String := []
deriving DecidableEq, Repr

/-- What decides how advice is worded: the target database and two settings. -/
structure Target where
  capabilities : Capabilities
  ifNotExists : Bool := false
  snakeCaseTables : Bool := false
deriving DecidableEq, Repr

/-- The target of the given settings. -/
def Target.of (caps : Capabilities) (settings : Settings) : Target :=
  ⟨caps, settings.ifNotExists, settings.snakeCaseTables⟩

namespace Advice

/-! ### Wording -/

/-- The note about a join that the database cannot execute. -/
def joinNote (caps : Capabilities) (table : String) (kind : JoinKind) (column : String) : String :=
  table ++ ": " ++ kind.keyword ++ " JOIN is not supported by " ++ caps.dialect.label ++ "; " ++
    column ++ " not used as a key column"

/-- The note about covering columns that are left out. -/
def coveringNote (caps : Capabilities) : String :=
  caps.dialect.label ++ " does not support INCLUDE; covering columns left out"

/-- The note about conditions that are left out. -/
def conditionNote (caps : Capabilities) : String :=
  caps.dialect.label ++ " does not support partial indexes; WHERE predicates left out"

/-- The note about a query on a table without known columns. -/
def fieldsNote (table : String) (query : Query) : String :=
  let place := if query.location.isEmpty then query.table else query.location
  table ++ ": no field list found for query at " ++ place

/-- The notes on the joins of a query that the database cannot execute. -/
def joinNotes (caps : Capabilities) (table : String) (clauses : Clauses) : List String :=
  clauses.joins.filterMap fun j =>
    if caps.supportsJoin j.kind then none else j.localColumn.map (joinNote caps table j.kind)

/-- Whether covering columns of the candidate have to be left out. -/
def lacksCovering (caps : Capabilities) (c : Candidate) : Bool :=
  !c.selectedOnly.isEmpty && !caps.covering

/-- Whether conditions of the candidate have to be left out. -/
def lacksCondition (caps : Capabilities) (c : Candidate) : Bool :=
  !c.literals.isEmpty && !caps.filtered

/-- The notes on what a recommendation for the candidate has to leave out. -/
def limitNotes (caps : Capabilities) (c : Candidate) : List String :=
  (if lacksCovering caps c then [coveringNote caps] else []) ++
    (if lacksCondition caps c then [conditionNote caps] else [])

/-- Why the candidate is recommended: the key columns with their motives, then what was left out
and where the query was nested. -/
def reason (caps : Capabilities) (query : Query) (c : Candidate) : String :=
  let columns := c.key.map fun k => k.column ++ " (" ++ ", ".intercalate k.motives ++ ")"
  let label := caps.dialect.label
  let extras :=
    (if lacksCovering caps c then ["INCLUDE omitted, not supported by " ++ label] else []) ++
    (if lacksCondition caps c then
      ["partial predicate omitted, not supported by " ++ label] else []) ++
    (query.origin.map fun o => "from " ++ o.phrase ++ " subquery").toList
  "; ".intercalate (", ".intercalate columns :: extras)

/-! ### Recommendations -/

/-- The recommendation for a candidate of a query. -/
def recommend (target : Target) (table : String) (query : Query) (c : Candidate) :
    Recommendation :=
  let caps := target.capabilities
  let covering := if caps.covering then c.selectedOnly else []
  let condition :=
    if !c.literals.isEmpty && caps.filtered then
      some (" AND ".intercalate (c.literals.map (·.render)))
    else none
  { table
    name := indexName table c.columns
    columns := c.columns
    covering, condition
    reason := reason caps query c
    dialect := caps.dialect
    statement := IndexSpec.createStatement caps
      { table
        columns := c.columns
        name := some (indexName table c.columns)
        covering, condition
        guarded := target.ifNotExists }
    source := query.location
    sql := query.sql
    origin := query.origin }

/-- The advice with one more note. -/
def note (advice : Advice) (message : String) : Advice :=
  { advice with notes := addNew advice.notes message }

/-- The advice with several more notes. -/
def noteAll (advice : Advice) (messages : List String) : Advice :=
  messages.foldl note advice

/-- The recommendation of a key for a table. -/
def find? (advice : Advice) (table : String) (columns : List String) : Option Recommendation :=
  advice.recommendations.find? fun r => r.table == table && r.columns == columns

/-- The advice after a candidate of a query: a new recommendation, a duplicate of one, or nothing
if the key is empty. -/
def addCandidate (target : Target) (table : String) (query : Query) (advice : Advice)
    (c : Candidate) : Advice :=
  if c.key.isEmpty then advice
  else match advice.find? table c.columns with
    | some first =>
      { advice with duplicates := advice.duplicates ++
          [⟨table, c.columns, first.name, query.location, query.sql⟩] }
    | none =>
      let noted := advice.noteAll (limitNotes target.capabilities c)
      { noted with recommendations := noted.recommendations ++ [recommend target table query c] }

/-- The advice after a query on `table`. -/
def addQuery (target : Target) (table : String) (advice : Advice) (record : Query × Clauses) :
    Advice :=
  let (query, clauses) := record
  if query.fields.isEmpty then advice.note (fieldsNote table query)
  else (Candidate.ofClauses target.capabilities clauses).foldl
    (addCandidate target table query)
    (advice.noteAll (joinNotes target.capabilities table clauses))

/-! ### Analysis -/

/-- The subjects of the queries that are not nested, under all their variants. -/
def subjects (records : List (Query × Clauses)) : List (String × String) :=
  subjectTable ((records.filter (!·.1.isNested)).map (·.1.table))

/-- A table name as it is written in advice. -/
def tableLabel (target : Target) (name : String) : String :=
  if target.snakeCaseTables then snakeCase name else name

/-- The name that advice about a query's table is filed under. -/
def filedUnder (target : Target) (subjects : List (String × String)) (query : Query) : String :=
  tableLabel target ((subjects.lookup (Text.lower query.table)).getD query.table)

/-- The queries by table. -/
def byTable (target : Target) (records : List (Query × Clauses)) :
    List (String × List (Query × Clauses)) :=
  let known := subjects records
  groupByFirst (records.map fun r => (filedUnder target known r.1, r))

/-- The advice on queries that have been read. -/
def ofRecords (target : Target) (records : List (Query × Clauses)) : Advice :=
  (byTable target records).foldl (fun advice group =>
    group.2.foldl (addQuery target group.1) advice) {}

end Advice

end IndexAdvice
