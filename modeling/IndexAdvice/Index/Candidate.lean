import IndexAdvice.Clauses
import IndexAdvice.Sorting

/-!
# Candidate indexes

Each branch of a `WHERE` clause makes a candidate: key columns in the order in which an index serves
them, each with the motives that brought it in. Columns compared for equality come first, those of
joins included, by their position in the text; then the columns of range conditions, of `GROUP BY`
and of `ORDER BY`.
-/

namespace IndexAdvice

/-- A column of an index key with the reasons for it. -/
structure KeyColumn where
  column : String
  motives : List String
deriving DecidableEq, Repr

/-- A mention of a column in a query. -/
structure Mention where
  position : Int
  column : String
  motive : String
deriving DecidableEq, Repr

/-- The order of mentions: by position, then by column, then by motive. -/
def Mention.le (a b : Mention) : Bool :=
  a.position < b.position || (a.position == b.position &&
    (a.column < b.column || (a.column == b.column && a.motive ≤ b.motive)))

/-- A key after a column is mentioned once more. -/
def addMention (key : List KeyColumn) (column motive : String) : List KeyColumn :=
  if key.any (·.column == column) then
    key.map fun k =>
      if k.column == column && !k.motives.contains motive then
        { k with motives := k.motives ++ [motive] }
      else k
  else key ++ [⟨column, [motive]⟩]

/-- A candidate for an index. -/
structure Candidate where
  key : List KeyColumn
  /-- The equalities with constants, which a partial index may be restricted to. -/
  literals : List Predicate
  /-- The selected columns that are not in the key. -/
  selectedOnly : List String
deriving DecidableEq, Repr

namespace Candidate

/-- The key columns, in order. -/
def columns (c : Candidate) : List String :=
  c.key.map (·.column)

/-- The column of an equality, unless it has an empty name. -/
def equalityColumn? (p : Predicate) : Option String :=
  if p.kind == .equality then p.column.filter (!·.isEmpty) else none

/-- The column of a range condition, unless it has an empty name. -/
def rangeColumn? (p : Predicate) : Option String :=
  if p.kind == .range then p.column.filter (!·.isEmpty) else none

/-- The mentions of a branch that are compared for equality, those of executable joins included, in
order of position. -/
def equalityMentions (caps : Capabilities) (clauses : Clauses) (branch : List Predicate) :
    List Mention :=
  let equalities := branch.filterMap fun p => (equalityColumn? p).map fun column =>
    ⟨p.position, column, if p.operator == "IN" then "WHERE IN" else "WHERE ="⟩
  let joins := clauses.joins.filterMap fun j =>
    if caps.supportsJoin j.kind then j.localColumn.map fun column =>
      ⟨j.position, column, "JOIN " ++ j.remoteTable⟩
    else none
  sortBy Mention.le (equalities ++ joins)

/-- All mentions that a branch gives to the key, in key order, as column and motive. -/
def mentions (caps : Capabilities) (clauses : Clauses) (branch : List Predicate) :
    List (String × String) :=
  (equalityMentions caps clauses branch).map (fun m => (m.column, m.motive)) ++
  branch.filterMap (fun p => (rangeColumn? p).map fun column => (column, "WHERE " ++ p.operator)) ++
  clauses.groupBy.map (fun column => (column, "GROUP BY")) ++
  clauses.orderBy.map fun s => (s.column, "ORDER BY " ++ s.direction)

/-- The candidate of a branch. -/
def ofBranch (caps : Capabilities) (clauses : Clauses) (branch : List Predicate) : Candidate :=
  let key := (mentions caps clauses branch).foldl (fun key m => addMention key m.1 m.2) []
  { key
    literals := branch.filter fun p => p.isLiteral && (equalityColumn? p).isSome
    selectedOnly := clauses.selected.filter fun column => !key.any (·.column == column) }

/-- The candidates of a query, one for each branch; a query without branches has one. -/
def ofClauses (caps : Capabilities) (clauses : Clauses) : List Candidate :=
  (if clauses.branches.isEmpty then [[]] else clauses.branches).map (ofBranch caps clauses)

end Candidate

end IndexAdvice
