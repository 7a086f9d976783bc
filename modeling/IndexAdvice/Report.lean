import IndexAdvice.JoinGraph

/-!
# Reports

The complete result of an analysis.
-/

namespace IndexAdvice

/-- The version of this advisor. -/
def version : String :=
  "1.0.0"

/-- The time at which a report is written. -/
structure Moment where
  date : String
  time : String
  /-- The fraction of the second with its point, empty for a whole second. -/
  fraction : String := ""
deriving DecidableEq, Repr

/-- Date and time as one word, to the fraction of a second. -/
def Moment.stamp (m : Moment) : String :=
  m.date ++ "T" ++ m.time ++ m.fraction

/-- Date and time as two words. -/
def Moment.phrase (m : Moment) : String :=
  m.date ++ " " ++ m.time

/-- The result of an analysis. -/
structure Report where
  capabilities : Capabilities
  /-- What was analyzed. -/
  source : String
  filesScanned : Nat
  /-- All queries that were read, nested ones included. -/
  queries : List Query
  recommendations : List Recommendation
  duplicates : List Duplicate
  notes : List String
  joinGraph : JoinGraph
deriving DecidableEq, Repr

namespace Report

/-- The target database. -/
def dialect (r : Report) : Dialect :=
  r.capabilities.dialect

/-- The recommendations by table, in order of arrival. -/
def byTable (r : Report) : List (String × List Recommendation) :=
  groupByFirst (r.recommendations.map fun rec => (rec.table, rec))

end Report

end IndexAdvice
