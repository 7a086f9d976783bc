import IndexAdvice.Clause.Condition
import IndexAdvice.Clause.JoinTarget
import IndexAdvice.Clause.Projection
import IndexAdvice.Clause.Span
import IndexAdvice.Nested

/-!
# Reading a query

`Query.parse` reads the clauses of a query and then each query nested in it. It takes every text:
what fits no clause is dropped, and what fits no predicate is kept unclassified. `Parsed.records`
lists a query and all queries nested in it, each before those inside it.
-/

namespace IndexAdvice

/-- What was read in a query. -/
structure Parsed where
  clauses : Clauses
  nested : Nested
deriving DecidableEq, Repr, Inhabited

namespace Parsed

/-- Whether nothing was read. -/
def isEmpty (p : Parsed) : Bool :=
  p.clauses.isEmpty && p.nested.isEmpty

/-- The query itself and all queries nested in it. -/
def records (query : Query) (p : Parsed) : List (Query × Clauses) :=
  (query, p.clauses) :: p.nested.records

end Parsed

/-- The tokens of a statement, without semicolons at its end. -/
def statementTokens (sql : String) : List Token :=
  ((tokenize sql).reverse.dropWhile (·.kind == .semicolon)).reverse

/-- The scope of a query with the given spans, nested queries and joins. -/
def Scope.ofSpans (query : Query) (groups : List Group) (listed : List (String × Option String))
    (targets : List JoinTarget) : Scope :=
  let fromLists := listed.foldl (fun aliases (table, short) =>
    bindAlias (bindName aliases table) table short) []
  let aliases := targets.foldl (fun aliases target =>
    bindAlias (if target.table.isEmpty then aliases else bindName aliases target.table)
      target.table target.aliasName) fromLists
  { sql := query.sql.toList
    fields := query.fields
    aliases
    ownNames := ownQualifiers query.table (listed.map (·.1)) aliases
    nested := groups.map fun g => (g.start, g.stop) }

/-- The clauses of a query with the given tokens and nested queries. -/
def Clauses.ofTokens (splitOr : Bool) (query : Query) (tokens : List Token) (groups : List Group) :
    Clauses :=
  let spans := Span.divide tokens
  let listed := (Span.tokensOf spans "FROM" ++ Span.tokensOf spans "UPDATE").flatMap listedTables
  let targets := (Span.tokensOf spans "JOIN").map JoinTarget.ofSpan
  let scope := Scope.ofSpans query groups listed targets
  let (branches, hasOr) := Predicate.branches scope splitOr (Span.firstOf spans "WHERE")
  { branches, hasOr
    joins := targets.map (JoinTarget.resolve scope)
    groupBy := groupColumns scope (Span.firstOf spans "GROUP BY")
    orderBy := sortColumns scope (Span.firstOf spans "ORDER BY")
    having := Predicate.having scope (Span.firstOf spans "HAVING")
    selected := selectedColumns scope (Span.firstOf spans "SELECT")
    tables := listed.map (·.1) }

/-- A text with nested queries has characters. -/
theorem ne_nil_of_mem_groups {sql : String} {g : Group}
    (h : g ∈ Group.ofTokens sql.toList (statementTokens sql)) : sql.toList ≠ [] := by
  refine Token.ne_nil_of_tokenize fun h' => ?_
  simp [statementTokens, h', Group.ofTokens, Group.collect] at h

/-- Reads a query and all queries nested in it. With `splitOr` unset, a `WHERE` clause with a
top-level `OR` gives no classified predicates. -/
def Query.parse (catalog : Catalog) (splitOr : Bool) (query : Query) : Parsed :=
  let tokens := statementTokens query.sql
  let groups := Group.ofTokens query.sql.toList tokens
  { clauses := Clauses.ofTokens splitOr query tokens groups
    nested := groups.attach.foldr (fun g rest =>
      let inner := g.val.query catalog query
      let read := inner.parse catalog splitOr
      .cons g.val.start g.val.stop inner read.clauses read.nested rest) .nil }
termination_by query.sql.length
decreasing_by
  have := Group.sql_length_lt_of_mem_ofTokens (ne_nil_of_mem_groups g.property) g.property
  simpa [Group.query, Query.nestedIn, String.length_toList] using this

/-- The query and all queries nested in it, with what was read in each. -/
def Query.records (catalog : Catalog) (splitOr : Bool) (query : Query) : List (Query × Clauses) :=
  (query.parse catalog splitOr).records query

end IndexAdvice
