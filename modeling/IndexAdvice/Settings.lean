import IndexAdvice.Dialect

/-!
# Settings of an analysis

The settings with their defaults, and the faults that make an analysis refuse them. A fault is a
value of its own; `Fault.message` words it.
-/

namespace IndexAdvice

/-- The call names whose string argument is query text, unless others are given. -/
def defaultQueryMethods : List String :=
  ["where_query", "count_query", "delete_where_query", "make_query", "make_execute"]

/-- The directory names that are never entered, unless others are given. -/
def defaultExcludedDirs : List String :=
  ["target", "node_modules", ".git", "dist", "__pycache__", ".venv"]

/-- The settings of an analysis. -/
structure Settings where
  /-- The name of the target database, as given. -/
  dialect : String := "postgres"
  /-- The assumed major version of MySQL. -/
  mysqlVersion : Int := 8
  /-- Call names whose string argument is query text. -/
  queryMethods : List String := defaultQueryMethods
  /-- Extensions of the files that are read in a directory. -/
  extensions : List String := [".rs"]
  /-- Directory names that are never entered. -/
  excludedDirs : List String := defaultExcludedDirs
  /-- Larger files, in bytes, are skipped. -/
  maxFileSize : Int := 1000000
  /-- Whether field lists of other files are consulted. -/
  crossFileDeclarations : Bool := true
  /-- Whether each branch of a top-level `OR` is a candidate of its own. -/
  splitOrBranches : Bool := true
  /-- Whether `IF NOT EXISTS` is asked for. -/
  ifNotExists : Bool := false
  /-- Whether table and index names are written in snake case. -/
  snakeCaseTables : Bool := false
deriving DecidableEq, Repr

/-- What can be wrong with settings. -/
inductive Fault where
  | unsupportedDialect (given : String)
  | versionOutOfRange (version : Int)
  | sizeNotPositive (size : Int)
  | noQueryMethod
deriving DecidableEq, Repr

/-- The wording of a fault. -/
def Fault.message : Fault → String
  | .unsupportedDialect given => s!"Unsupported dialect: {given}"
  | .versionOutOfRange v => s!"MySQL version must be between 5 and 9, got {v}"
  | .sizeNotPositive n => s!"max_file_size must be positive, got {n}"
  | .noQueryMethod => "At least one query method name is required"

/-- The faults of the settings, in the order of the fields. -/
def Settings.faults (s : Settings) : List Fault :=
  (if (Dialect.ofName? s.dialect).isNone then [.unsupportedDialect s.dialect] else []) ++
  (if 5 ≤ s.mysqlVersion ∧ s.mysqlVersion ≤ 9 then [] else [.versionOutOfRange s.mysqlVersion]) ++
  (if s.maxFileSize ≤ 0 then [.sizeNotPositive s.maxFileSize] else []) ++
  (if s.queryMethods.isEmpty then [.noQueryMethod] else [])

/-- Settings are valid if no fault is found. -/
def Settings.Valid (s : Settings) : Prop :=
  s.faults = []

instance (s : Settings) : Decidable s.Valid :=
  inferInstanceAs (Decidable (_ = _))

end IndexAdvice
