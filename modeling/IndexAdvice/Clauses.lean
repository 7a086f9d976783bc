import IndexAdvice.Dialect

/-!
# The clauses of a query

What a query says about the columns of its own table, clause by clause. `Clauses.branches` has one
list of predicates for each branch of a top-level `OR` in the `WHERE` clause; without an `OR` there
is one branch, and without a `WHERE` clause none.
-/

namespace IndexAdvice

/-- How a predicate restricts its column. -/
inductive PredicateKind where
  | equality | range | nullCheck | unclassified
deriving DecidableEq, Repr, Inhabited

/-- The name of a kind in reports. -/
def PredicateKind.name : PredicateKind → String
  | .equality => "equality"
  | .range => "range"
  | .nullCheck => "null_check"
  | .unclassified => "unclassified"

/-- All kinds. -/
def PredicateKind.all : List PredicateKind :=
  [.equality, .range, .nullCheck, .unclassified]

/-- One condition of a `WHERE` or `HAVING` clause. -/
structure Predicate where
  /-- The column of the query's own table that it restricts, in declared spelling. -/
  column : Option String := none
  kind : PredicateKind := .unclassified
  /-- Whether the column is compared with constants only. -/
  isLiteral : Bool := false
  operator : String := ""
  /-- The text of the right-hand side. -/
  value : String := ""
  /-- The text of the whole condition. -/
  text : String := ""
  position : Int := 0
deriving DecidableEq, Repr, Inhabited

namespace Predicate

/-- Whether the predicate restricts a known column in a known way. -/
def isUsable (p : Predicate) : Bool :=
  p.column.isSome && p.kind != .unclassified

/-- The condition with the bare column name on its left, as partial indexes need it. -/
def render (p : Predicate) : String :=
  match p.column with
  | none => p.text
  | some column =>
    match p.kind with
    | .nullCheck => s!"{column} {p.operator}"
    | _ => s!"{column} {p.operator} {p.value}"

end Predicate

/-- A join, seen from the query's own table. -/
structure Join where
  /-- The column of the query's own table in the join condition. -/
  localColumn : Option String := none
  remoteTable : String := ""
  remoteColumn : Option String := none
  kind : JoinKind := .inner
  /-- The text of the join condition. -/
  condition : String := ""
  position : Int := 0
deriving DecidableEq, Repr, Inhabited

/-- A column that a query sorts by. -/
structure SortColumn where
  column : String := ""
  direction : String := "ASC"
deriving DecidableEq, Repr, Inhabited

/-- What a query says in each of its clauses. -/
structure Clauses where
  /-- The predicates of each branch of the `WHERE` clause. -/
  branches : List (List Predicate) := []
  joins : List Join := []
  groupBy : List String := []
  orderBy : List SortColumn := []
  having : List Predicate := []
  /-- Known columns that the select list refers to. -/
  selected : List String := []
  /-- The tables named after `FROM` and `UPDATE`. -/
  tables : List String := []
  /-- Whether the `WHERE` clause has a top-level `OR`. -/
  hasOr : Bool := false
deriving DecidableEq, Repr, Inhabited

namespace Clauses

/-- All predicates of the `WHERE` clause, in source order. -/
def predicates (c : Clauses) : List Predicate :=
  c.branches.flatten

/-- Whether no clause says anything. -/
def isEmpty (c : Clauses) : Bool :=
  c.branches.isEmpty && c.joins.isEmpty && c.groupBy.isEmpty && c.orderBy.isEmpty &&
    c.having.isEmpty && c.selected.isEmpty

end Clauses

end IndexAdvice
