import IndexAdvice.Catalog
import IndexAdvice.Clause.ColumnRef
import IndexAdvice.Clauses
import IndexAdvice.Query
import IndexAdvice.Sql.Tokens
import IndexAdvice.Text.Trim

/-!
# Nested queries

A nested query is a parenthesis followed by `SELECT` or `WITH`, up to the closing parenthesis. It is
attributed to the table it selects from, and it gets the fields of that table from the catalog, or
from the outer query when both run on the same table. `sql_length_lt_of_mem_groups` says that the
text of a nested query is shorter than the outer one, so the nesting ends.
-/

namespace IndexAdvice

open Text

/-! ### Groups -/

/-- A nested query in the text of its outer query. -/
structure Group where
  origin : Origin
  /-- Position of the opening parenthesis. -/
  start : Nat
  /-- Position after the closing parenthesis. -/
  stop : Nat
  /-- The text inside the parentheses, without blanks at its ends. -/
  sql : List Char
deriving DecidableEq, Repr

namespace Group

/-- The clause at depth `depth` that the tokens end in; they are given backwards. -/
def enclosingClause (depth : Nat) : List Token → Option String
  | [] => none
  | t :: rest =>
    if t.depth < depth then none
    else if t.depth == depth && t.isKeyword Keyword.clause then some t.upper
    else enclosingClause depth rest

/-- The origin of a nested query whose parenthesis has depth `depth`, from the tokens before it,
given backwards. -/
def originAfter (depth : Nat) (before : List Token) : Origin :=
  match before with
  | [] => .scalar
  | t :: _ =>
    if t.isKeyword ["IN"] then .whereIn
    else if t.isKeyword ["EXISTS"] then .existsTest
    else if t.isKeyword ["FROM", "JOIN", "AS", "LATERAL"] then .fromDerived
    else if t.kind == .comma && enclosingClause depth before == some "FROM" then .fromDerived
    else .scalar

/-- The token that ends the group opened by `t`: its closing parenthesis, or the last token. -/
def closer (t : Token) (rest : List Token) : Token :=
  match Token.closing? t.depth rest with
  | some j => rest.getD j t
  | none => rest.getLast?.getD t

/-- How many of the tokens after `t` belong to the group it opens. -/
def size (t : Token) (rest : List Token) : Nat :=
  match Token.closing? t.depth rest with
  | some j => j + 1
  | none => rest.length

/-- The group that `t` opens. If it does not end in a parenthesis, it reaches to the end of the
text. -/
def openedBy (sql : List Char) (before : List Token) (t : Token) (rest : List Token) : Group :=
  let last := closer t rest
  let inner := slice sql (t.start + 1) (if last.kind == .rparen then last.start else sql.length)
  ⟨originAfter t.depth before, t.start, last.stop, trim inner⟩

/-- The outermost groups among the tokens. The tokens before them are given backwards, and the first
`skip` tokens belong to a group found already. -/
def collect (sql : List Char) (before : List Token) : Nat → List Token → List Group
  | _, [] => []
  | skip + 1, t :: rest => collect sql (t :: before) skip rest
  | 0, t :: rest =>
    if t.kind == .lparen && rest.head?.any (·.isKeyword Keyword.nested) then
      openedBy sql before t rest :: collect sql (t :: before) (size t rest) rest
    else collect sql (t :: before) 0 rest

/-- The outermost nested queries of a text with the given tokens. -/
def ofTokens (sql : List Char) (tokens : List Token) : List Group :=
  collect sql [] 0 tokens

/-- The text of a group lacks its parentheses, so it is shorter than the text it is in. -/
theorem sql_length_lt_of_mem_collect {sql : List Char} (hsql : sql ≠ []) {before : List Token}
    {skip : Nat} {tokens : List Token} {g : Group} (h : g ∈ collect sql before skip tokens) :
    g.sql.length < sql.length := by
  induction tokens generalizing before skip with
  | nil => cases skip <;> simp [collect] at h
  | cons t rest ih =>
    cases skip with
    | succ k => exact ih (by simpa [collect] using h)
    | zero =>
      simp only [collect] at h
      split at h
      · rcases List.mem_cons.1 h with rfl | h
        · have hpos := List.length_pos_iff.2 hsql
          refine Nat.lt_of_le_of_lt (length_trim_le _) ?_
          refine Nat.lt_of_le_of_lt (length_slice_le _ _ _) ?_
          omega
        · exact ih h
      · exact ih h

/-- The text of a nested query is shorter than the text around it. -/
theorem sql_length_lt_of_mem_ofTokens {sql : List Char} (hsql : sql ≠ []) {tokens : List Token}
    {g : Group} (h : g ∈ ofTokens sql tokens) : g.sql.length < sql.length :=
  sql_length_lt_of_mem_collect hsql h

end Group

/-! ### The query of a group -/

/-- The first table that a statement names at depth zero after `FROM`, `UPDATE` or `INTO`. -/
def primaryTable? : List Token → Option String
  | [] => none
  | t :: rest =>
    if t.depth == 0 && t.isKeyword ["FROM", "UPDATE", "INTO"] then
      match ColumnRef.read? rest with
      | some (ref, _) => some ref.name
      | none => primaryTable? rest
    else primaryTable? rest

/-- The query that a group of `outer` is. -/
def Group.query (catalog : Catalog) (outer : Query) (g : Group) : Query :=
  let sql := String.ofList g.sql
  let table := ((primaryTable? (tokenize sql)).filter (!·.isEmpty)).getD outer.table
  let known := catalog.fieldsFor table
  let fields := if known.isEmpty && shareVariant table outer.table then outer.fields else known
  outer.nestedIn table fields g.origin sql

/-! ### Trees of nested queries -/

/-- The nested queries of a query with what was read in them: the first one, those nested in it, and
those that follow it. -/
inductive Nested where
  | nil
  | cons (start stop : Nat) (query : Query) (clauses : Clauses) (inner rest : Nested)
deriving DecidableEq, Repr, Inhabited

namespace Nested

/-- Whether there is no nested query. -/
def isEmpty : Nested → Bool
  | nil => true
  | cons .. => false

/-- All nested queries, each before those nested in it. -/
def records : Nested → List (Query × Clauses)
  | nil => []
  | cons _ _ query clauses inner rest => (query, clauses) :: (inner.records ++ rest.records)

end Nested

end IndexAdvice
