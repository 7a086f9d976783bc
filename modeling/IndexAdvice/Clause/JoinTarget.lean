import IndexAdvice.Clause.Cut
import IndexAdvice.Clause.Scope

/-!
# Joins

A `JOIN` span is read in two steps. `JoinTarget.ofSpan` takes it apart into the kind of join, the
joined table with its alias, and the condition. Once all aliases of the query are known,
`JoinTarget.resolve` looks in the condition for the first conjunct that equates a column of the
query's own table with another column.
-/

namespace IndexAdvice

open Token Text

/-- The parts of a join. -/
structure JoinTarget where
  kind : JoinKind
  /-- The joined table, or the alias of a joined subquery. -/
  table : String
  /-- The alias of the joined table. -/
  aliasName : Option String
  /-- The tokens after `ON`. -/
  condition : List Token
  /-- The columns after `USING`. -/
  columns : List String
  position : Nat
deriving Repr

namespace JoinTarget

/-- The kind that the modifiers name; of several, the first of left, right, full and cross. -/
def kindOf (modifiers : List String) : JoinKind :=
  ([.left, .right, .full, .cross].find? fun k : JoinKind => modifiers.contains k.keyword).getD
    .inner

/-- The table that the tokens after `JOIN` name, its alias, and the tokens after both. -/
def readTable (tokens : List Token) : String × Option String × List Token :=
  match tokens with
  | [] => ("", none, [])
  | t :: rest =>
    if t.kind == .lparen then
      let after := afterGroup t rest
      ((aliasAt? after).getD "", aliasAt? after, after)
    else match ColumnRef.read? tokens with
      | some (ref, after) => (ref.name, aliasAt? after, after)
      | none => ("", none, tokens)

/-- The tokens after a keyword that may stand first. -/
def skipKeyword (keyword : String) (tokens : List Token) : List Token :=
  match tokens with
  | t :: rest => if t.isKeyword [keyword] then rest else tokens
  | [] => []

/-- The tokens after `ON`, or the columns after `USING`, whichever comes first. -/
def readCondition (tokens : List Token) : List Token × List String :=
  match tokens.dropWhile fun t => !t.isKeyword ["ON", "USING"] with
  | [] => ([], [])
  | t :: rest =>
    if t.isKeyword ["ON"] then (rest, [])
    else ([], (rest.filter Token.isIdentifier).map Token.name)

/-- The parts of a join. -/
def ofSpan (tokens : List Token) : JoinTarget :=
  let modifiers := tokens.takeWhile fun t => !t.isKeyword ["JOIN"]
  let joined := readTable (skipKeyword "LATERAL" (tokens.drop (modifiers.length + 1)))
  { kind := kindOf (modifiers.map Token.upper)
    table := joined.1
    aliasName := joined.2.1
    condition := (readCondition joined.2.2).1
    columns := (readCondition joined.2.2).2
    position := (tokens.head?.map Token.start).getD 0 }

/-- The two sides of an equality between columns. -/
def equality? (tokens : List Token) : Option (ColumnRef × ColumnRef) :=
  match ColumnRef.read? tokens with
  | some (left, op :: rest) =>
    if ["=", "=="].contains op.text then (ColumnRef.whole? rest).map (left, ·) else none
  | _ => none

/-- The own column and the other table and column, if `own` is a column of the query's own table.
An unqualified name is not, when the other side is qualified as the own table. -/
def key? (scope : Scope) (joined : String) (own other : ColumnRef) :
    Option (String × String × String) :=
  let otherIsOwn := other.qualifier.any fun q => scope.ownNames.contains (lower q)
  if own.qualifier.isNone && otherIsOwn then none
  else (scope.resolve own).map fun column =>
    let remote := match other.qualifier with
      | some q => (scope.aliases.lookup (lower q)).getD q
      | none => joined
    (column, remote, other.name)

/-- The join that a conjunct of the condition makes, whichever side the own column is on. -/
def ofConjunct? (scope : Scope) (target : JoinTarget) (part : List Token) : Option Join :=
  match equality? part with
  | none => none
  | some (left, right) =>
    ((key? scope target.table left right).or (key? scope target.table right left)).map
      fun (column, remote, remoteColumn) =>
        { localColumn := some column
          remoteTable := remote
          remoteColumn := some remoteColumn
          kind := target.kind
          condition := scope.text target.condition
          position := ((part.head?.map (·.start)).getD 0 : Nat) }

/-- The join, seen from the query's own table. -/
def resolve (scope : Scope) (target : JoinTarget) : Join :=
  match target.columns with
  | column :: _ =>
    { localColumn := scope.resolve ⟨none, column⟩
      remoteTable := target.table
      remoteColumn := some column
      kind := target.kind
      condition := "USING (" ++ ", ".intercalate target.columns ++ ")"
      position := target.position }
  | [] =>
    ((conjuncts target.condition).findSome? (ofConjunct? scope target)).getD
      { localColumn := none
        remoteTable := target.table
        remoteColumn := none
        kind := target.kind
        condition := scope.text target.condition
        position := target.position }

end JoinTarget

end IndexAdvice
