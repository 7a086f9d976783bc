import IndexAdvice.Clause.Cut
import IndexAdvice.Clause.Scope

/-!
# Tables, grouping, sorting and the select list

The clauses that are lists of items: the tables after `FROM`, and the known columns after
`GROUP BY`, `ORDER BY` and `SELECT`. Columns are listed once, in order of first mention.
-/

namespace IndexAdvice

open Token

/-! ### Tables -/

/-- The tables of a `FROM` list with their aliases. A subquery and whatever is no name is left
out. -/
def listedTables (tokens : List Token) : List (String × Option String) :=
  (items tokens).filterMap fun item =>
    if item.head?.any (·.kind == .lparen) then none
    else (ColumnRef.read? item).map fun (ref, after) => (ref.name, aliasAt? after)

/-! ### Columns -/

/-- The column of the query's own table that an item is, an empty name aside. -/
def columnOf? (scope : Scope) (item : List Token) : Option String :=
  ((ColumnRef.whole? item).bind scope.resolve).filter (!·.isEmpty)

/-- The columns of a `GROUP BY` list. -/
def groupColumns (scope : Scope) (tokens : List Token) : List String :=
  ((items tokens).filterMap (columnOf? scope)).eraseDups

/-- The tokens without `NULLS FIRST` or `NULLS LAST` at their end. -/
def dropNullsOrder (item : List Token) : List Token :=
  match item.reverse with
  | last :: nulls :: rest =>
    if nulls.isKeyword ["NULLS"] && last.isKeyword ["FIRST", "LAST"] then rest.reverse else item
  | _ => item

/-- The sort item without its direction, and the direction. -/
def splitDirection (item : List Token) : List Token × String :=
  match item.getLast? with
  | some last =>
    if last.isKeyword ["ASC", "DESC"] then (item.dropLast, last.upper) else (item, "ASC")
  | none => (item, "ASC")

/-- The sort columns with every column once, under its first direction; `seen` are columns listed
before. -/
def firstDirections (seen : List String) : List SortColumn → List SortColumn
  | [] => []
  | s :: rest =>
    if seen.contains s.column then firstDirections seen rest
    else s :: firstDirections (s.column :: seen) rest

/-- The columns of an `ORDER BY` list with their directions. -/
def sortColumns (scope : Scope) (tokens : List Token) : List SortColumn :=
  firstDirections [] <| (items tokens).filterMap fun item =>
    let (column, direction) := splitDirection (dropNullsOrder item)
    (columnOf? scope column).map (⟨·, direction⟩)

/-! ### The select list -/

/-- A select item without the word `DISTINCT` or `ALL` before it. -/
def dropQuantifier (item : List Token) : List Token :=
  match item with
  | t :: rest => if t.isKeyword ["DISTINCT", "ALL"] then rest else item
  | [] => []

/-- A select item without the alias at its end: an identifier after a name, a keyword or a closing
parenthesis. -/
def dropAlias (item : List Token) : List Token :=
  match item.reverse with
  | last :: previous :: _ =>
    if last.isIdentifier && [.word, .quoted, .rparen].contains previous.kind then item.dropLast
    else item
  | _ => item

/-- The columns of the own table that the tokens refer to outside nested queries. A function name is
no reference, nor is what stands after `AS`. The first `skip` tokens have been read already, and
`before` is the token before them. -/
def referencesFrom (scope : Scope) (before : Option Token) : Nat → List Token → List String
  | _, [] => []
  | skip + 1, t :: rest => referencesFrom scope (some t) skip rest
  | 0, t :: rest =>
    if scope.inNested t || before.any (·.isKeyword ["AS"]) then
      referencesFrom scope (some t) 0 rest
    else match ColumnRef.read? (t :: rest) with
      | none => referencesFrom scope (some t) 0 rest
      | some (ref, after) =>
        let found := if after.head?.any (·.kind == .lparen) then none else scope.resolve ref
        (found.filter (!·.isEmpty)).toList ++
          referencesFrom scope (some t) (rest.length - after.length) rest

/-- The known columns that a select list refers to. -/
def selectedColumns (scope : Scope) (tokens : List Token) : List String :=
  ((items tokens).flatMap fun item =>
    referencesFrom scope none 0 (dropAlias (dropQuantifier item))).eraseDups

end IndexAdvice
