import IndexAdvice.Report
import IndexAdvice.Text.Trim

/-!
# SQL scripts

A report as a script that creates the recommended indexes, and the script that drops them again in
reverse order. For databases that can roll back such statements the script is one transaction.
Comment lines tell where each index comes from.
-/

namespace IndexAdvice.Report

/-- The comment lines at the top of a script. -/
def scriptHeader (r : Report) (title : String) : List String :=
  ["-- IndexScout " ++ version ++ " " ++ title,
    "-- Dialect: " ++ r.capabilities.summary,
    s!"-- Recommendations: {r.recommendations.length}",
    ""]

/-- The lines of a script around its statements. -/
def scriptBody (r : Report) (lines : List String) : List String :=
  if lines.isEmpty then ["-- Nothing to do."]
  else if r.capabilities.transactional then ["BEGIN;", ""] ++ lines ++ ["", "COMMIT;"]
  else lines

/-- The lines of one recommendation: comments, then its statement. -/
def createLines (rec : Recommendation) : List String :=
  ["-- " ++ rec.table ++ ": " ++ rec.reason] ++
    (if rec.source.isEmpty then [] else ["-- source: " ++ rec.source]) ++
    ["-- query: " ++ Text.shorten 120 rec.sql, rec.statement]

/-- The text of a script. -/
def scriptText (lines : List String) : String :=
  "\n".intercalate lines ++ "\n"

/-- The script that creates all recommended indexes. -/
def createScript (r : Report) : String :=
  scriptText (r.scriptHeader "index recommendations" ++
    r.scriptBody ([""].intercalate (r.recommendations.map createLines)))

/-- The script that drops all recommended indexes, the last one first. -/
def rollbackScript (r : Report) : String :=
  scriptText (r.scriptHeader "rollback" ++ r.scriptBody
    (r.recommendations.reverse.map fun rec => dropStatement r.dialect rec.table rec.name true))

end IndexAdvice.Report
