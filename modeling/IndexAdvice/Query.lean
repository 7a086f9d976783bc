/-!
# Queries

A query is a piece of SQL text together with what is known about it: the table it runs on, the
columns of that table, and where the text was found. A nested query also knows the queries around
it, innermost first; `Query.parent?` is the nearest of them.
-/

namespace IndexAdvice

/-- The position in the outer text that a nested query was found in. -/
inductive Origin where
  | whereIn | existsTest | fromDerived | scalar
deriving DecidableEq, Repr, Inhabited

/-- The name of a position in reports. -/
def Origin.name : Origin → String
  | .whereIn => "where_in"
  | .existsTest => "exists"
  | .fromDerived => "from_derived"
  | .scalar => "scalar"

/-- The name of a position in prose. -/
def Origin.phrase : Origin → String
  | .whereIn => "where in"
  | .existsTest => "exists"
  | .fromDerived => "from derived"
  | .scalar => "scalar"

/-- All positions. -/
def Origin.all : List Origin :=
  [.whereIn, .existsTest, .fromDerived, .scalar]

/-- SQL text and what is known about it. -/
structure Statement where
  /-- The subject it runs on. -/
  table : String := ""
  /-- The known columns of the table, in declaration order. -/
  fields : List String := []
  sql : String := ""
  /-- Where it was nested, if it was. -/
  origin : Option Origin := none
  /-- The name of the call that it was passed to. -/
  method : String := ""
  /-- The file it was found in. -/
  file : String := ""
  /-- The line it was found on, zero if that is not known. -/
  line : Int := 0
deriving DecidableEq, Repr, Inhabited

/-- A statement together with the statements that it is nested in, innermost first. -/
structure Query extends Statement where
  ancestors : List Statement := []
deriving DecidableEq, Repr, Inhabited

namespace Query

/-- The query that this one is nested in. -/
def parent? (q : Query) : Option Query :=
  match q.ancestors with
  | [] => none
  | p :: ps => some ⟨p, ps⟩

/-- Whether the query is nested in another. -/
def isNested (q : Query) : Bool :=
  !q.ancestors.isEmpty

/-- A query nested in `outer`; it comes from the same call. -/
def nestedIn (outer : Query) (table : String) (fields : List String) (origin : Origin)
    (sql : String) : Query where
  table := table
  fields := fields
  sql := sql
  origin := some origin
  method := outer.method
  file := outer.file
  line := outer.line
  ancestors := outer.toStatement :: outer.ancestors

/-- Where the query was found, `file:line` as far as that is known. -/
def location (q : Query) : String :=
  if q.file.isEmpty then
    if q.line = 0 then "" else s!"line {q.line}"
  else if q.line = 0 then q.file
  else s!"{q.file}:{q.line}"

end Query

end IndexAdvice
