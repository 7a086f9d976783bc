import IndexAdvice.Advisor
import IndexAdvice.Files.Change
import IndexAdvice.Files.Listing
import IndexAdvice.Report.Document
import IndexAdvice.Report.Page
import IndexAdvice.Report.Script

/-!
# Exports

An export analyzes the sources at a path and writes the report to files: as a document, as a page,
or as a script together with the script that takes it back. A file that cannot be written stops the
export, and what was written before stays.
-/

namespace IndexAdvice

open Files

/-- What is written, and to which files. -/
inductive Export where
  | document (output : String)
  | page (output : String)
  /-- The second file is for the rollback script, unless its name is empty. -/
  | scripts (output rollback : String)
deriving DecidableEq, Repr

/-- The names of the files that an export writes, in order. -/
def Export.outputs : Export → List String
  | .document output | .page output => [output]
  | .scripts output rollback => output :: if rollback.isEmpty then [] else [rollback]

/-- What an export of a report can write, in the order of the files. -/
def Export.texts (now : Moment) (r : Report) : Export → List String
  | .document _ => [(r.toJson now).pretty]
  | .page _ => [r.toHtml now]
  | .scripts _ _ => [r.createScript, r.rollbackScript]

/-- Writes files in order, up to the first that cannot be written. -/
def Files.Disk.writeAll (disk : Disk) (files : List (String × String)) : Change :=
  files.foldl (fun change (name, text) => change.andThen (·.write name text.toUTF8)) { disk }

/-- Exports the report on the sources at a path. -/
def Advisor.exportFrom (advisor : Advisor) (now : Moment) (disk : Disk) (path : String)
    (wanted : Export) : Except AdviceError Change := do
  let texts ← disk.sources advisor.settings (Path.ofString path)
  let report := advisor.analyzeSources path texts
  return disk.writeAll (wanted.outputs.zip (wanted.texts now report))

end IndexAdvice
