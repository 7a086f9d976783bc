import IndexAdvice.Parse
import IndexAdvice.Proofs.CheckedConditions
import IndexAdvice.Proofs.CheckedJoins
import IndexAdvice.Proofs.CheckedLists
import IndexAdvice.Proofs.CheckedNames
import IndexAdvice.Proofs.CheckedSpans

/-!
# Checked reading of clauses

The clauses of a query are read from the spans of its tokens. The first table stands in for the
subject only if there is one, and the first span of a keyword is taken only if there is one. So the
clauses of a statement that has tokens are read with no fault (`Checked.clauses_eq`), and of one
that has none there are none (`Clauses.ofTokens_nil`).
-/

namespace IndexAdvice

namespace Checked

open Text

/-! ### The scope -/

/-- The qualifiers that stand for the query's own table. -/
def ownQualifiers (subject : String) (tables : List String) (aliases : List (String × String)) :
    Checked (List String) := do
  let known ← variants subject
  let named := (aliases.filter fun (_, t) => known.contains (lower t)).map (·.1)
  if named.isEmpty && !tables.isEmpty then
    let first ← item tables 0
    return (aliases.filter fun (_, t) => lower t == lower first).map (·.1) ++ known
  else return named ++ known

/-- The scope of a query with the given spans, nested queries and joins. -/
def scopeOf (query : Query) (groups : List Group) (listed : List (String × Option String))
    (targets : List JoinTarget) : Checked Scope := do
  let scope := Scope.ofSpans query groups listed targets
  let own ← ownQualifiers query.table (listed.map (·.1)) scope.aliases
  return { scope with ownNames := own }

theorem ownQualifiers_eq (subject : String) (tables : List String)
    (aliases : List (String × String)) : ownQualifiers subject tables aliases =
      .ok (IndexAdvice.ownQualifiers subject tables aliases) := by
  rw [ownQualifiers, IndexAdvice.ownQualifiers.eq_def, variants_eq, ok_bind]
  dsimp only
  generalize (aliases.filter fun (_, t) =>
    (IndexAdvice.variants subject).contains (lower t)).map (·.1) = named
  cases named with
  | nil => cases tables <;> rfl
  | cons name named => simp

/-- The scope of a query needs no table to be named. -/
theorem scopeOf_eq (query : Query) (groups : List Group) (listed : List (String × Option String))
    (targets : List JoinTarget) :
    scopeOf query groups listed targets = .ok (Scope.ofSpans query groups listed targets) := by
  rw [scopeOf, ownQualifiers_eq]
  rfl

/-! ### The clauses -/

/-- The tokens of the first span of a keyword, none if there is no such span. -/
def firstOf (spans : List Span) (keyword : String) : Checked (List Token) :=
  if (Span.tokensOf spans keyword).isEmpty then return []
  else item (Span.tokensOf spans keyword) 0

/-- The clauses of a query with the given tokens and nested queries. -/
def clauses (splitOr : Bool) (query : Query) (tokens : List Token) (groups : List Group) :
    Checked Clauses := do
  let spans ← divide tokens
  let lists ← (Span.tokensOf spans "FROM" ++ Span.tokensOf spans "UPDATE").mapM listedTables
  let targets ← (Span.tokensOf spans "JOIN").mapM joinTarget
  let scope ← scopeOf query groups lists.flatten targets
  let (branches, hasOr) ← branches scope splitOr (← firstOf spans "WHERE")
  return {
    branches, hasOr
    joins := ← targets.mapM (resolve scope)
    groupBy := ← groupColumns scope (← firstOf spans "GROUP BY")
    orderBy := ← sortColumns scope (← firstOf spans "ORDER BY")
    having := ← having scope (← firstOf spans "HAVING")
    selected := ← selectedColumns scope (← firstOf spans "SELECT")
    tables := lists.flatten.map (·.1) }

theorem firstOf_eq (spans : List Span) (keyword : String) :
    firstOf spans keyword = .ok (Span.firstOf spans keyword) := by
  rw [firstOf, Span.firstOf]
  cases Span.tokensOf spans keyword <;> rfl

/-- **Clauses are read without a fault** from any statement that has a token. -/
theorem clauses_eq (splitOr : Bool) (query : Query) {tokens : List Token} (h : tokens ≠ [])
    (groups : List Group) : clauses splitOr query tokens groups =
      .ok (Clauses.ofTokens splitOr query tokens groups) := by
  have htables (spans : List (List Token)) :
      spans.mapM listedTables = .ok (spans.map IndexAdvice.listedTables) :=
    mapM_eq fun span _ => listedTables_eq span
  have htargets (spans : List (List Token)) :
      spans.mapM joinTarget = .ok (spans.map JoinTarget.ofSpan) :=
    mapM_eq fun span _ => joinTarget_eq span
  have hjoins (scope : Scope) (targets : List JoinTarget) :
      targets.mapM (resolve scope) = .ok (targets.map (JoinTarget.resolve scope)) :=
    mapM_eq fun target _ => resolve_eq scope target
  rw [clauses, divide_eq h, ok_bind, htables, ok_bind, htargets, ok_bind, scopeOf_eq, ok_bind]
  simp only [firstOf_eq, branches_eq, hjoins, groupColumns_eq, sortColumns_eq, having_eq,
    selectedColumns_eq, ok_bind, ← List.flatMap_def]
  rfl

end Checked

/-- Without tokens there are no clauses. -/
theorem Clauses.ofTokens_nil (splitOr : Bool) (query : Query) (groups : List Group) :
    Clauses.ofTokens splitOr query [] groups = {} := by
  simp only [Clauses.ofTokens, Span.divide, Span.firstOf, Span.tokensOf, List.filter_nil,
    List.map_nil, List.headD_nil, Checked.having_nil]
  rfl

end IndexAdvice
