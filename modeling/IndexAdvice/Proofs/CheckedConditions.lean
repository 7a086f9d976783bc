import IndexAdvice.Clause.Condition
import IndexAdvice.Proofs.CheckedTokens

/-!
# Checked reading of conditions

Predicates are read by position, and the first token of a part is taken without a look whether there
is one. Parts are never empty, and a group is longer than what is inside, so a condition is read
with no fault (`Checked.branches_eq`).
-/

namespace IndexAdvice

namespace Checked

variable {scope : Scope} {tokens : List Token}

/-! ### Constants -/

/-- Whether the tokens are a single constant. -/
def isConstant (tokens : List Token) : Checked Bool := do
  let signed ← isSignedNumber tokens
  if signed then return true
  else if tokens.length != 1 then return false
  else
    let t ← item tokens 0
    return t.kind == .string || t.kind == .number || t.isKeyword Keyword.constant
where
  /-- Whether the tokens are a number with a sign. -/
  isSignedNumber (tokens : List Token) : Checked Bool :=
    if tokens.length == 2 then do
      let sign ← item tokens 0
      let number ← item tokens 1
      return (sign.text == "+" || sign.text == "-") && number.kind == .number
    else return false

/-- Whether the right-hand side of an operator is made of constants. -/
def comparesConstants (operator : String) (rhs : List Token) : Checked Bool :=
  if operator == "IN" then do
    let wrapped ← isWrapped rhs
    if wrapped then
      let members ← items rhs.tail.dropLast
      if members.isEmpty then return false else members.allM isConstant
    else return false
  else if operator == "BETWEEN" then do
    let bounds ← conjuncts rhs
    if bounds.length == 2 then bounds.allM isConstant else return false
  else isConstant rhs

/-- The first and last of the tokens are looked at only where they are there. -/
theorem isConstant_eq (tokens : List Token) :
    isConstant tokens = .ok (Predicate.isConstant tokens) := by
  match tokens with
  | [] => rfl
  | [t] => rfl
  | [sign, t] =>
    have hsigned : isConstant.isSignedNumber [sign, t] =
        .ok (Predicate.isConstant [sign, t]) := rfl
    rw [isConstant, hsigned, ok_bind]
    cases Predicate.isConstant [sign, t] <;> rfl
  | _ :: _ :: _ :: _ => rfl

theorem comparesConstants_eq (operator : String) (rhs : List Token) :
    comparesConstants operator rhs = .ok (Predicate.comparesConstants operator rhs) := by
  have hall (parts : List (List Token)) : parts.allM isConstant =
      .ok (parts.all Predicate.isConstant) := allM_eq fun part _ => isConstant_eq part
  rw [comparesConstants, Predicate.comparesConstants, isWrapped_eq, ok_bind, items_eq, ok_bind,
    conjuncts_eq, ok_bind, isConstant_eq, hall, hall]
  split
  · cases Token.isWrapped rhs with
    | false => rfl
    | true => cases (Token.items rhs.tail.dropLast).isEmpty <;> rfl
  · split
    · cases (Token.conjuncts rhs).length == 2 <;> rfl
    · rfl

/-! ### Predicates -/

/-- The tokens as a predicate that nothing is known about. -/
def opaqueOf (scope : Scope) (tokens : List Token) : Checked Predicate := do
  let text ← text scope tokens
  let position ← start tokens
  return { text, position }

/-- The predicate that the tokens are. -/
def classify (scope : Scope) (tokens : List Token) : Checked Predicate := do
  let unclassified ← opaqueOf scope tokens
  match ← columnRef tokens 0 with
  | none => return unclassified
  | some (ref, i) =>
    if i < tokens.length then
      let op ← item tokens i
      let rhs := tokens.drop (i + 1)
      match Predicate.comparison? op rhs, scope.resolve ref with
      | some (.nullCheck, operator), some column =>
        return { unclassified with
          column := some column, kind := .nullCheck, isLiteral := true, operator }
      | some (kind, operator), some column =>
        if rhs.isEmpty then return unclassified
        else
          let isLiteral ← comparesConstants operator rhs
          let value ← text scope rhs
          return { unclassified with column := some column, kind, isLiteral, operator, value }
      | _, _ => return unclassified
    else return unclassified

/-- The text of a condition is cut between its first and its last token, so there has to be one. -/
theorem opaqueOf_eq (scope : Scope) (h : tokens ≠ []) :
    opaqueOf scope tokens = .ok (Predicate.opaqueOf scope tokens) := by
  cases tokens with
  | nil => exact absurd rfl h
  | cons t rest =>
    rw [opaqueOf, text_eq, ok_bind, start_cons, ok_bind, Predicate.opaqueOf]
    rfl

/-- Every condition that has a token is classified. -/
theorem classify_eq (scope : Scope) (h : tokens ≠ []) :
    classify scope tokens = .ok (Predicate.classify scope tokens) := by
  rw [classify, opaqueOf_eq scope h, ok_bind, Predicate.classify]
  cases hread : ColumnRef.read? tokens with
  | none =>
    rw [columnRef_eq_none (i := 0) hread]
    rfl
  | some found =>
    obtain ⟨ref, after⟩ := found
    obtain ⟨stop, -, -, hafter, hcolumn⟩ := columnRef_eq_some (i := 0) hread
    rw [hcolumn, ok_bind]
    -- an operator is looked for only if the column is not all there is
    cases after with
    | nil =>
      simp only
      rw [if_neg (Nat.not_lt.mpr (length_le_of_drop hafter))]
      rfl
    | cons op rhs =>
      simp only
      rw [if_pos (lt_length_of_drop hafter), item_eq hafter, ok_bind, drop_succ hafter]
      cases scope.resolve ref with
      | none =>
        cases Predicate.comparison? op rhs with
        | none => rfl
        | some found =>
          obtain ⟨kind, operator⟩ := found
          cases kind <;> rfl
      | some column =>
        cases Predicate.comparison? op rhs with
        | none => rfl
        | some found =>
          obtain ⟨kind, operator⟩ := found
          cases kind with
          | nullCheck => rfl
          | _ =>
            simp only [comparesConstants_eq, text_eq, ok_bind]
            split <;> rfl

/-! ### Conjunctions and branches -/

/-- Whether a group with the given inside is a plain conjunction. -/
def isTransparent (inner : List Token) : Checked Bool :=
  if inner.isEmpty then return false
  else do
    let first ← item inner 0
    if first.isKeyword Keyword.nested then return false
    else
      let branches ← alternatives inner
      return branches.length == 1

/-- The predicates of a conjunction, from left to right. The inside of a group has to have fewer
tokens than the conjunction. -/
def ofConjunction (scope : Scope) (tokens : List Token) : Checked (List Predicate) := do
  let parts ← conjuncts tokens
  let lists ← parts.mapM fun part => do
    let wrapped ← isWrapped part
    if wrapped then
      let transparent ← isTransparent part.tail.dropLast
      if transparent then
        let ⟨_⟩ ← less part.tail.dropLast.length tokens.length
        ofConjunction scope part.tail.dropLast
      else
        let predicate ← opaqueOf scope part
        return [predicate]
    else
      let predicate ← classify scope part
      return [predicate]
  return lists.flatten
termination_by tokens.length
decreasing_by assumption

/-- The branches of a `WHERE` clause and whether it has a top-level `OR`. -/
def branches (scope : Scope) (splitOr : Bool) (tokens : List Token) :
    Checked (List (List Predicate) × Bool) :=
  if tokens.isEmpty then return ([], false)
  else do
    let parts ← alternatives tokens
    if 1 < parts.length && !splitOr then
      let whole ← opaqueOf scope tokens
      return ([[whole]], true)
    else
      let lists ← parts.mapM (ofConjunction scope)
      return (lists.filter (!·.isEmpty), 1 < parts.length)

/-- The predicates of a `HAVING` clause. -/
def having (scope : Scope) (tokens : List Token) : Checked (List Predicate) :=
  if tokens.isEmpty then return []
  else do
    let parts ← alternatives tokens
    if 1 < parts.length then
      let whole ← opaqueOf scope tokens
      return [whole]
    else ofConjunction scope tokens

theorem isTransparent_eq (inner : List Token) :
    isTransparent inner = .ok (Predicate.isTransparent inner) := by
  cases inner with
  | nil => rfl
  | cons t rest =>
    rw [isTransparent, if_neg (by simp), item_zero, ok_bind, alternatives_eq, ok_bind,
      Predicate.isTransparent, List.head?_cons, Option.any_some]
    cases t.isKeyword Keyword.nested <;> rfl

/-- **Conjunctions** are read with no fault: parts are not empty, and groups get smaller. -/
theorem ofConjunction_eq (scope : Scope) (tokens : List Token) :
    ofConjunction scope tokens = .ok (Predicate.ofConjunction scope tokens) := by
  induction tokens using Predicate.conjunctionInduction with
  | step tokens ih =>
    rw [ofConjunction, conjuncts_eq, ok_bind, Predicate.ofConjunction_eq, List.flatMap_def]
    refine congrArg (· >>= fun lists => pure lists.flatten) (mapM_eq fun part hpart => ?_)
    have hne := Token.ne_nil_of_mem_conjuncts hpart
    rw [isWrapped_eq, ok_bind, isTransparent_eq, ok_bind, less_eq (Predicate.length_inside_lt hpart),
      ok_bind, ih part hpart, opaqueOf_eq scope hne, ok_bind, classify_eq scope hne, ok_bind]
    cases Token.isWrapped part with
    | false => rfl
    | true => cases Predicate.isTransparent part.tail.dropLast <;> rfl

/-- AND and OR leave no part without tokens behind, so each part is classified. -/
theorem branches_eq (scope : Scope) (splitOr : Bool) (tokens : List Token) :
    branches scope splitOr tokens = .ok (Predicate.branches scope splitOr tokens) := by
  cases tokens with
  | nil => rfl
  | cons t rest =>
    have hlists : (Token.alternatives (t :: rest)).mapM (ofConjunction scope) =
        .ok ((Token.alternatives (t :: rest)).map (Predicate.ofConjunction scope)) :=
      mapM_eq fun part _ => ofConjunction_eq scope part
    rw [branches, if_neg (by simp), alternatives_eq, ok_bind, opaqueOf_eq scope (by simp), ok_bind,
      hlists, ok_bind, Predicate.branches]
    split <;> rfl

theorem having_nil (scope : Scope) : Predicate.having scope [] = [] := by
  rw [Predicate.having, Predicate.ofConjunction_eq]
  rfl

/-- A HAVING clause without tokens is passed over. -/
theorem having_eq (scope : Scope) (tokens : List Token) :
    having scope tokens = .ok (Predicate.having scope tokens) := by
  cases tokens with
  | nil => rw [having_nil]; rfl
  | cons t rest =>
    rw [having, if_neg (by simp), alternatives_eq, ok_bind, opaqueOf_eq scope (by simp), ok_bind,
      ofConjunction_eq, Predicate.having]
    split <;> rfl

end Checked

end IndexAdvice
