import IndexAdvice.Files.Route
import IndexAdvice.Settings

/-!
# Errors

What can keep an analysis from running, and its wording.
-/

namespace IndexAdvice

/-- A cause of failure. -/
inductive AdviceError where
  /-- The name of the target database is unknown. -/
  | unsupportedDialect (given : String)
  /-- The settings have faults. -/
  | invalidSettings (faults : List Fault)
  /-- There is nothing at the path to be scanned. -/
  | pathNotFound (path : String)
  /-- A file cannot be accessed. -/
  | disk (fault : Files.DiskFault)
deriving DecidableEq, Repr

/-- The wording of an error. -/
def AdviceError.message : AdviceError → String
  | .unsupportedDialect given => (Fault.unsupportedDialect given).message
  | .invalidSettings faults => "; ".intercalate (faults.map (·.message))
  | .pathNotFound path => s!"Path not found: {path}"
  | .disk fault => fault.message

/-- The dialect of a name, which has to be known. -/
def Dialect.ofName (given : String) : Except AdviceError Dialect :=
  match Dialect.ofName? given with
  | some dialect => .ok dialect
  | none => .error (.unsupportedDialect given)

end IndexAdvice
