import IndexAdvice.Sorting
import IndexAdvice.Text.Case
import IndexAdvice.Text.Trim

/-!
# Database dialects

What index syntax and which joins each supported database accepts. `Capabilities.of` is the only
source of these facts; whatever is emitted is decided by them.
-/

namespace IndexAdvice

/-! ### Dialects -/

/-- The supported databases. -/
inductive Dialect where
  | postgres | mysql | sqlite
deriving DecidableEq, Repr, Inhabited

namespace Dialect

/-- The name in settings and reports. -/
def name : Dialect → String
  | .postgres => "postgres"
  | .mysql => "mysql"
  | .sqlite => "sqlite"

/-- The name in prose. -/
def label : Dialect → String
  | .postgres => "PostgreSQL"
  | .mysql => "MySQL"
  | .sqlite => "SQLite"

/-- All dialects, in the order in which they are listed. -/
def all : List Dialect :=
  [.postgres, .mysql, .sqlite]

/-- The accepted names, aliases included. -/
def aliases : List (String × Dialect) :=
  [("postgres", .postgres), ("postgresql", .postgres), ("pg", .postgres), ("mysql", .mysql),
    ("mariadb", .mysql), ("sqlite", .sqlite), ("sqlite3", .sqlite)]

/-- The dialect of a name given in any letter case and with blanks around it. -/
def ofName? (given : String) : Option Dialect :=
  aliases.lookup (Text.lower (Text.strip given))

end Dialect

/-! ### Joins -/

/-- The kinds of join. A join without a modifier is an inner one. -/
inductive JoinKind where
  | inner | left | right | full | cross
deriving DecidableEq, Repr, Inhabited

namespace JoinKind

/-- The keyword of the kind. -/
def keyword : JoinKind → String
  | .inner => "INNER"
  | .left => "LEFT"
  | .right => "RIGHT"
  | .full => "FULL"
  | .cross => "CROSS"

/-- All kinds. -/
def all : List JoinKind :=
  [.inner, .left, .right, .full, .cross]

/-- The kind with the given keyword. -/
def ofKeyword? (word : String) : Option JoinKind :=
  all.find? (·.keyword == word)

end JoinKind

/-! ### Capabilities -/

/-- What one database accepts. -/
structure Capabilities where
  dialect : Dialect
  /-- Covering columns, `INCLUDE (…)`. -/
  covering : Bool
  /-- Partial indexes, `WHERE …`. -/
  filtered : Bool
  /-- `CREATE INDEX IF NOT EXISTS`. -/
  guarded : Bool
  /-- The kinds of join it can execute. -/
  joins : List JoinKind
  /-- Whether `CREATE INDEX` can run inside a transaction. -/
  transactional : Bool
  /-- The major version, where it matters. -/
  version : Option Int
deriving DecidableEq, Repr

namespace Capabilities

/-- The capabilities of a dialect; the version matters to MySQL only, which takes `INCLUDE` from
version 8 on and is taken to have that version if none is given. -/
def of (dialect : Dialect) (mysqlVersion : Option Int) : Capabilities :=
  match dialect with
  | .postgres => ⟨.postgres, true, true, true, [.inner, .left, .right, .full], true, none⟩
  | .mysql =>
    let version := mysqlVersion.getD 8
    ⟨.mysql, 8 ≤ version, false, false, [.inner, .left, .right], false, some version⟩
  | .sqlite => ⟨.sqlite, false, true, true, [.inner, .left], true, none⟩

/-- Whether the database can execute a join of this kind. -/
def supportsJoin (caps : Capabilities) (kind : JoinKind) : Bool :=
  caps.joins.contains kind

/-- The keywords of the executable joins, in alphabetical order. -/
def joinKeywords (caps : Capabilities) : List String :=
  sortTexts (caps.joins.map (·.keyword))

/-- The label of the dialect with its version. -/
def title (caps : Capabilities) : String :=
  match caps.version with
  | some v => s!"{caps.dialect.label} {v}"
  | none => caps.dialect.label

/-- The capabilities on one line. -/
def summary (caps : Capabilities) : String :=
  let yesNo (b : Bool) := if b then "yes" else "no"
  caps.title ++ " | INCLUDE: " ++ yesNo caps.covering ++ " | partial: " ++ yesNo caps.filtered ++
    " | IF NOT EXISTS: " ++ yesNo caps.guarded ++ " | joins: " ++
    ", ".intercalate caps.joinKeywords

end Capabilities

end IndexAdvice
