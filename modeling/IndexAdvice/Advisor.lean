import IndexAdvice.Error
import IndexAdvice.Parse
import IndexAdvice.Report
import IndexAdvice.Source.Extract

/-!
# The advisor

An `Advisor` holds valid settings and what they say about the target database. It analyzes a single
query against a field list, or the queries of several source texts, whose struct declarations supply
the field lists.
-/

namespace IndexAdvice

/-- Settings that have been found valid, and the capabilities of the target database. -/
structure Advisor where
  settings : Settings
  capabilities : Capabilities
deriving DecidableEq, Repr

namespace Advisor

/-- The advisor for the given settings. A dialect given apart is looked up first and takes the place
of the one in the settings. -/
def ofSettings (dialect : Option String) (settings : Settings) : Except AdviceError Advisor := do
  let settings ← match dialect with
    | some given => do
      let d ← Dialect.ofName given
      pure { settings with dialect := d.name }
    | none => pure settings
  if settings.faults.isEmpty then
    let d ← Dialect.ofName settings.dialect
    pure ⟨settings, Capabilities.of d (some settings.mysqlVersion)⟩
  else throw (.invalidSettings settings.faults)

/-- The report on queries, whose nested queries get their fields from the catalog. -/
def reportOn (advisor : Advisor) (catalog : Catalog) (filesScanned : Nat) (source : String)
    (queries : List Query) : Report :=
  let records := queries.flatMap (Query.records catalog advisor.settings.splitOrBranches)
  let advice := Advice.ofRecords (Target.of advisor.capabilities advisor.settings) records
  { capabilities := advisor.capabilities
    source, filesScanned
    queries := records.map (·.1)
    recommendations := advice.recommendations
    duplicates := advice.duplicates
    notes := advice.notes
    joinGraph := JoinGraph.ofRecords advisor.settings.snakeCaseTables records }

/-- The report on a single query with the given columns of its table. Blank columns do not count. -/
def analyzeQuery (advisor : Advisor) (sql table : String) (fields : List String) : Report :=
  let fields := (fields.map Text.strip).filter (!·.isEmpty)
  advisor.reportOn [(table, fields)] 0 table [{ table, fields, sql }]

/-- The field lists of declarations, the last of each name. -/
def catalogOf (declared : List Source.Declaration) : Catalog :=
  Catalog.ofDeclarations
    ((declared.filter (!·.fields.isEmpty)).map fun d => (d.name, d.fields))

/-- The field lists of the declarations of every source but the one at index `i`, the last
declaration first. -/
def fieldsElsewhere (declared : List (List Source.Declaration)) (i : Nat) : Catalog :=
  let others := (declared.eraseIdx i).flatten
  (others.reverse.filter (!·.fields.isEmpty)).map fun d => (d.name, d.fields)

/-- The report on source texts, given with their names. -/
def analyzeSources (advisor : Advisor) (source : String) (texts : List (String × String)) :
    Report :=
  let settings := advisor.settings
  let declared := texts.map fun (name, text) => Source.declarations name text.toList
  let queries := texts.zipIdx.flatMap fun ((name, text), i) =>
    let fallback := if settings.crossFileDeclarations then fieldsElsewhere declared i else []
    Source.queries settings.queryMethods fallback name text.toList
  advisor.reportOn (catalogOf declared.flatten) texts.length source queries

/-- The report on one source text. -/
def analyzeText (advisor : Advisor) (source text : String) : Report :=
  advisor.analyzeSources source [(source, text)]

end Advisor

end IndexAdvice
