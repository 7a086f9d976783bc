import IndexAdvice.Clause.Cut
import IndexAdvice.Clause.Scope

/-!
# Conditions

A condition is cut at `OR` into branches and at `AND` into predicates. A parenthesised group of
conjuncts is opened up, any other group stays one unclassified predicate. A predicate is classified
by the column on its left and the operator after it; what has not that shape, or restricts a column
of another table, is kept unclassified.
-/

namespace IndexAdvice

open Token

namespace Predicate

/-! ### Classification -/

/-- The kind of a comparison and its operator in standard spelling. A null check is told from its
right-hand side as well. -/
def comparison? (op : Token) (rhs : List Token) : Option (PredicateKind × String) :=
  if op.kind == .operator && ["=", "=="].contains op.text then some (.equality, "=")
  else if op.isKeyword ["IN"] then some (.equality, "IN")
  else if op.kind == .operator && ["<", ">", "<=", ">="].contains op.text then
    some (.range, op.text)
  else if op.isKeyword Keyword.range then some (.range, op.upper)
  else if op.isKeyword ["IS"] then
    if rhs.map (·.upper) == ["NULL"] then some (.nullCheck, "IS NULL")
    else if rhs.map (·.upper) == ["NOT", "NULL"] then some (.nullCheck, "IS NOT NULL")
    else none
  else none

/-- A single constant: a string, a number with or without a sign, `TRUE` or `FALSE`. -/
def isConstant : List Token → Bool
  | [t] => t.kind == .string || t.kind == .number || t.isKeyword Keyword.constant
  | [sign, t] => (sign.text == "+" || sign.text == "-") && t.kind == .number
  | _ => false

/-- Whether the right-hand side of an operator is made of constants: all members of an `IN` list,
both bounds of a `BETWEEN`, or the one value of any other operator. -/
def comparesConstants (operator : String) (rhs : List Token) : Bool :=
  if operator == "IN" then
    isWrapped rhs && !(items rhs.tail.dropLast).isEmpty &&
      (items rhs.tail.dropLast).all isConstant
  else if operator == "BETWEEN" then
    (conjuncts rhs).length == 2 && (conjuncts rhs).all isConstant
  else isConstant rhs

/-- The tokens as a predicate that nothing is known about. -/
def opaqueOf (scope : Scope) (tokens : List Token) : Predicate where
  text := scope.text tokens
  position := (tokens.head?.map (·.start)).getD 0

/-- The predicate that the tokens are. -/
def classify (scope : Scope) (tokens : List Token) : Predicate :=
  let unclassified := opaqueOf scope tokens
  match ColumnRef.read? tokens with
  | some (ref, op :: rhs) =>
    match comparison? op rhs, scope.resolve ref with
    | some (.nullCheck, operator), some column =>
      { unclassified with column := some column, kind := .nullCheck, isLiteral := true, operator }
    | some (kind, operator), some column =>
      if rhs.isEmpty then unclassified
      else { unclassified with
        column := some column
        kind
        isLiteral := comparesConstants operator rhs
        operator
        value := scope.text rhs }
    | _, _ => unclassified
  | _ => unclassified

/-! ### Conjunctions and branches -/

/-- Whether a group with the given inside is a plain conjunction, so that its parentheses do not
matter. -/
def isTransparent (inner : List Token) : Bool :=
  inner.head?.any (fun t => !t.isKeyword Keyword.nested) && (alternatives inner).length == 1

/-- The predicates of a conjunction, from left to right. -/
def ofConjunction (scope : Scope) (tokens : List Token) : List Predicate :=
  (conjuncts tokens).attach.flatMap fun part =>
    if isWrapped part.val then
      if isTransparent part.val.tail.dropLast then ofConjunction scope part.val.tail.dropLast
      else [opaqueOf scope part.val]
    else [classify scope part.val]
termination_by tokens.length
decreasing_by
  have hle := length_le_of_mem_conjuncts part.property
  have hne := List.length_pos_iff.2 (ne_nil_of_mem_conjuncts part.property)
  simp only [List.length_dropLast, List.length_tail]
  omega

/-- The equation of the recursion, without the proofs of membership. -/
theorem ofConjunction_eq (scope : Scope) (tokens : List Token) :
    ofConjunction scope tokens = (conjuncts tokens).flatMap fun part =>
      if isWrapped part then
        if isTransparent part.tail.dropLast then ofConjunction scope part.tail.dropLast
        else [opaqueOf scope part]
      else [classify scope part] := by
  rw [ofConjunction]
  simp only [List.flatMap_subtype, List.unattach_attach]

/-- The inside of a conjunct is shorter than the conjunction. -/
theorem length_inside_lt {tokens part : List Token} (h : part ∈ conjuncts tokens) :
    part.tail.dropLast.length < tokens.length := by
  have hle := length_le_of_mem_conjuncts h
  have hne := List.length_pos_iff.2 (ne_nil_of_mem_conjuncts h)
  simp only [List.length_dropLast, List.length_tail]
  omega

/-- Induction along the groups of a conjunction: what holds of tokens once it holds of the inside
of each of their conjuncts holds of all tokens. -/
theorem conjunctionInduction {motive : List Token → Prop}
    (step : ∀ tokens, (∀ part ∈ conjuncts tokens, motive part.tail.dropLast) → motive tokens)
    (tokens : List Token) : motive tokens :=
  step tokens fun part _ => conjunctionInduction step part.tail.dropLast
termination_by tokens.length
decreasing_by exact length_inside_lt ‹part ∈ conjuncts tokens›

/-- The branches of a `WHERE` clause and whether it has a top-level `OR`. Unless branches are to be
split, a clause with an `OR` is one unclassified predicate. -/
def branches (scope : Scope) (splitOr : Bool) (tokens : List Token) :
    List (List Predicate) × Bool :=
  let parts := alternatives tokens
  let hasOr := 1 < parts.length
  if hasOr && !splitOr then ([[opaqueOf scope tokens]], true)
  else ((parts.map (ofConjunction scope)).filter (!·.isEmpty), hasOr)

/-- The predicates of a `HAVING` clause; with a top-level `OR` it is one unclassified predicate. -/
def having (scope : Scope) (tokens : List Token) : List Predicate :=
  if 1 < (alternatives tokens).length then [opaqueOf scope tokens] else ofConjunction scope tokens

end Predicate

end IndexAdvice
