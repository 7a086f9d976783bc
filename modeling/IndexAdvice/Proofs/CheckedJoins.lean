import IndexAdvice.Clause.JoinTarget
import IndexAdvice.Proofs.CheckedTokens

/-!
# Checked reading of joins

A join is read from left to right, over its modifiers, the table and its alias, up to the condition.
Each step starts where the one before has stopped, which may be beyond the last token. Then it finds
nothing, and so a join is read with no fault however early it breaks off.
-/

namespace IndexAdvice

namespace Checked

variable {tokens rest : List Token} {t : Token} {i : Nat}

/-! ### The parts of a join -/

/-- The table that is named at position `i`, its alias, and where both end. -/
def readTable (tokens : List Token) (i : Nat) : Checked (String × Option String × Nat) := do
  let group ← holdsAt (·.kind == .lparen) tokens i
  if group then
    let close ← matchingParen tokens i
    let short ← aliasAt tokens (close + 1)
    return (short.getD "", short, close + 1)
  else
    match ← columnRef tokens i with
    | some (ref, stop) =>
      let short ← aliasAt tokens stop
      return (ref.name, short, stop)
    | none => return ("", none, i)

/-- The tokens after `ON`, or the columns after `USING`, whichever comes first from position `i`
on. -/
def readCondition (tokens : List Token) (i : Nat) : Checked (List Token × List String) := do
  let j ← passWhile (fun t => !t.isKeyword ["ON", "USING"]) tokens i
  let on ← holdsAt (·.isKeyword ["ON"]) tokens j
  if on then return (tokens.drop (j + 1), [])
  else return ([], ((tokens.drop (j + 1)).filter Token.isIdentifier).map Token.name)

/-- The position after a keyword that may stand at position `i`. -/
def skipKeyword (keyword : String) (tokens : List Token) (i : Nat) : Checked Nat := do
  let found ← holdsAt (·.isKeyword [keyword]) tokens i
  return if found then i + 1 else i

/-- Where the tokens start, zero if there are none. -/
def startOrZero (tokens : List Token) : Checked Nat :=
  if tokens.isEmpty then return 0 else start tokens

/-- The parts of a join. -/
def joinTarget (tokens : List Token) : Checked JoinTarget := do
  let i ← passWhile (fun t => !t.isKeyword ["JOIN"]) tokens 0
  let j ← skipKeyword "LATERAL" tokens (i + 1)
  let (table, aliasName, stop) ← readTable tokens j
  let (condition, columns) ← readCondition tokens stop
  let position ← startOrZero tokens
  return {
    kind := JoinTarget.kindOf ((tokens.take i).map Token.upper)
    table, aliasName, condition, columns, position }

/-- Reading the table of a join stops where the tokens after it start. -/
theorem readTable_eq (tokens : List Token) (i : Nat) :
    ∃ stop, readTable tokens i = .ok ((JoinTarget.readTable (tokens.drop i)).1,
        (JoinTarget.readTable (tokens.drop i)).2.1, stop) ∧
      tokens.drop stop = (JoinTarget.readTable (tokens.drop i)).2.2 := by
  cases h : tokens.drop i with
  | nil =>
    refine ⟨i, ?_, h⟩
    rw [readTable, holdsAt_eq, h, ok_bind, if_neg (by simp),
      columnRef_eq_none (by rw [h]; rfl)]
    rfl
  | cons t rest =>
    rw [readTable, holdsAt_eq, h, ok_bind, List.head?_cons, Option.any_some, JoinTarget.readTable]
    split
    · refine ⟨Token.matchingParen tokens i + 1, ?_, drop_matchingParen h⟩
      rw [matchingParen_eq (lt_length_of_drop h), ok_bind, aliasAt_eq, drop_matchingParen h]
      rfl
    · cases hread : ColumnRef.read? (t :: rest) with
      | none =>
        refine ⟨i, ?_, h⟩
        rw [columnRef_eq_none (by rw [h]; exact hread)]
        rfl
      | some found =>
        obtain ⟨ref, after⟩ := found
        obtain ⟨stop, -, -, hafter, hcolumn⟩ :=
          columnRef_eq_some (i := i) (by rw [h]; exact hread)
        refine ⟨stop, ?_, hafter⟩
        rw [hcolumn, ok_bind]
        simp only [aliasAt_eq, hafter]
        rfl

/-- Whether ON or USING comes next is tested only where a token is left. -/
theorem readCondition_eq (tokens : List Token) (i : Nat) :
    readCondition tokens i = .ok (JoinTarget.readCondition (tokens.drop i)) := by
  have hdrop := drop_takeWhile (fun t => !t.isKeyword ["ON", "USING"]) tokens i
  rw [readCondition, passWhile_eq, ok_bind, holdsAt_eq, ok_bind, JoinTarget.readCondition]
  generalize i + _ = j at hdrop ⊢
  rw [← List.drop_drop, hdrop]
  cases (tokens.drop i).dropWhile fun t => !t.isKeyword ["ON", "USING"] with
  | nil => rfl
  | cons t rest =>
    simp only [List.head?_cons, Option.any_some, List.drop_one, List.tail_cons]
    split <;> rfl

/-- Passing over a keyword moves the index and never beyond the end. -/
theorem skipKeyword_eq (keyword : String) (tokens : List Token) (i : Nat) :
    ∃ j, skipKeyword keyword tokens i = .ok j ∧
      tokens.drop j = JoinTarget.skipKeyword keyword (tokens.drop i) := by
  refine ⟨_, by rw [skipKeyword, holdsAt_eq]; rfl, ?_⟩
  cases h : tokens.drop i with
  | nil => simp [h, JoinTarget.skipKeyword]
  | cons t rest =>
    rw [List.head?_cons, Option.any_some, JoinTarget.skipKeyword]
    split
    · exact drop_succ h
    · exact h

theorem startOrZero_eq (tokens : List Token) :
    startOrZero tokens = .ok ((tokens.head?.map Token.start).getD 0) := by
  cases tokens <;> rfl

theorem joinTarget_eq (tokens : List Token) :
    joinTarget tokens = .ok (JoinTarget.ofSpan tokens) := by
  have htake := List.prefix_iff_eq_take.mp
    (List.takeWhile_prefix (l := tokens) fun t => !t.isKeyword ["JOIN"])
  rw [joinTarget, passWhile_eq, ok_bind, Nat.zero_add, List.drop_zero, ← htake, JoinTarget.ofSpan]
  generalize tokens.takeWhile (fun t => !t.isKeyword ["JOIN"]) = modifiers
  obtain ⟨j, hskip, hjoined⟩ := skipKeyword_eq "LATERAL" tokens (modifiers.length + 1)
  obtain ⟨stop, htable, hafter⟩ := readTable_eq tokens j
  rw [hskip, ok_bind, htable, ok_bind, ← hjoined]
  simp only [readCondition_eq, hafter, ok_bind, startOrZero_eq]
  rfl

/-! ### The condition of a join -/

/-- The two sides of an equality between columns. -/
def equality? (tokens : List Token) : Checked (Option (ColumnRef × ColumnRef)) := do
  match ← columnRef tokens 0 with
  | none => return none
  | some (left, i) =>
    let equates ← holdsAt (fun op => ["=", "=="].contains op.text) tokens i
    if equates then
      match ← wholeRef tokens (i + 1) with
      | none => return none
      | some right => return some (left, right)
    else return none

/-- The join that a conjunct of the condition makes. -/
def ofConjunct? (scope : Scope) (target : JoinTarget) (part : List Token) :
    Checked (Option Join) := do
  match ← equality? part with
  | none => return none
  | some (left, right) =>
    match (JoinTarget.key? scope target.table left right).or
        (JoinTarget.key? scope target.table right left) with
    | none => return none
    | some (column, remote, remoteColumn) =>
      let condition ← text scope target.condition
      let position ← start part
      return some {
        localColumn := some column
        remoteTable := remote
        remoteColumn := some remoteColumn
        kind := target.kind
        condition, position }

/-- The join, seen from the query's own table. -/
def resolve (scope : Scope) (target : JoinTarget) : Checked Join :=
  if target.columns.isEmpty then do
    let condition ← text scope target.condition
    let parts ← conjuncts target.condition
    let found ← parts.findSomeM? (ofConjunct? scope target)
    return found.getD {
      localColumn := none
      remoteTable := target.table
      remoteColumn := none
      kind := target.kind
      condition
      position := target.position }
  else do
    let column ← item target.columns 0
    return {
      localColumn := scope.resolve ⟨none, column⟩
      remoteTable := target.table
      remoteColumn := some column
      kind := target.kind
      condition := "USING (" ++ ", ".intercalate target.columns ++ ")"
      position := target.position }

/-- An equality is read from tokens counted beforehand. -/
theorem equality?_eq (tokens : List Token) :
    equality? tokens = .ok (JoinTarget.equality? tokens) := by
  rw [equality?, JoinTarget.equality?]
  cases hread : ColumnRef.read? tokens with
  | none =>
    rw [columnRef_eq_none (i := 0) hread]
    rfl
  | some found =>
    obtain ⟨left, after⟩ := found
    obtain ⟨i, -, -, hafter, hcolumn⟩ := columnRef_eq_some (i := 0) hread
    rw [hcolumn, ok_bind]
    simp only [holdsAt_eq, hafter, ok_bind]
    cases after with
    | nil => rfl
    | cons op rest =>
      rw [List.head?_cons, Option.any_some]
      simp only
      split
      · rw [wholeRef_eq, drop_succ hafter, ok_bind]
        cases ColumnRef.whole? rest <;> rfl
      · rfl

/-- Every conjunct with a token gives its join or none. -/
theorem ofConjunct?_eq (scope : Scope) (target : JoinTarget) {part : List Token} (h : part ≠ []) :
    ofConjunct? scope target part = .ok (JoinTarget.ofConjunct? scope target part) := by
  obtain ⟨t, rest, rfl⟩ := List.exists_cons_of_ne_nil h
  rw [ofConjunct?, equality?_eq, ok_bind, JoinTarget.ofConjunct?]
  cases JoinTarget.equality? (t :: rest) with
  | none => rfl
  | some sides =>
    obtain ⟨left, right⟩ := sides
    simp only
    cases (JoinTarget.key? scope target.table left right).or
      (JoinTarget.key? scope target.table right left) with
    | none => rfl
    | some key =>
      simp only [text_eq, start_cons, ok_bind]
      rfl

theorem resolve_eq (scope : Scope) (target : JoinTarget) :
    resolve scope target = .ok (JoinTarget.resolve scope target) := by
  have hparts : (Token.conjuncts target.condition).findSomeM? (ofConjunct? scope target) =
      .ok ((Token.conjuncts target.condition).findSome? (JoinTarget.ofConjunct? scope target)) :=
    findSomeM?_eq fun part hpart =>
      ofConjunct?_eq scope target (Token.ne_nil_of_mem_conjuncts hpart)
  rw [resolve, JoinTarget.resolve, text_eq, ok_bind, conjuncts_eq, ok_bind, hparts, ok_bind]
  cases target.columns <;> rfl

end Checked

end IndexAdvice
