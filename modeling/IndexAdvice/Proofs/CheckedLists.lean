import IndexAdvice.Clause.Projection
import IndexAdvice.Proofs.CheckedTokens

/-!
# Checked reading of lists

The items of a list are looked at from both ends, and references are read from left to right. No
item is empty and every reference ends after its start, so the lists of tables, of columns and of
selected expressions are read with no fault.
-/

namespace IndexAdvice

namespace Checked

variable {tokens part rest : List Token} {scope : Scope} {i : Nat}

/-- Items between commas that have no tokens are dropped. -/
theorem ne_nil_of_mem_items (h : part ∈ Token.items tokens) : part ≠ [] :=
  Token.ne_nil_of_mem_cutFrom h

/-! ### Tables -/

/-- The table that an item names, with its alias. -/
def listedTable (part : List Token) : Checked (Option (String × Option String)) := do
  let first ← item part 0
  if first.kind == .lparen then return none
  else
    match ← columnRef part 0 with
    | none => return none
    | some (ref, stop) =>
      let short ← aliasAt part stop
      return some (ref.name, short)

/-- The tables of a list. -/
def listedTables (tokens : List Token) : Checked (List (String × Option String)) := do
  let parts ← items tokens
  let found ← parts.mapM listedTable
  return found.filterMap id

/-- The first token of a listed table is looked at, which is why the item has to have one. -/
theorem listedTable_eq (h : part ≠ []) : listedTable part =
    .ok (if part.head?.any (·.kind == .lparen) then none
      else (ColumnRef.read? part).map fun (ref, after) => (ref.name, aliasAt? after)) := by
  cases part with
  | nil => exact absurd rfl h
  | cons t rest =>
    rw [listedTable, item_zero, ok_bind, List.head?_cons, Option.any_some]
    split
    · rfl
    · cases hread : ColumnRef.read? (t :: rest) with
      | none =>
        rw [columnRef_eq_none (i := 0) hread]
        rfl
      | some found =>
        obtain ⟨ref, after⟩ := found
        obtain ⟨stop, -, -, hafter, hcolumn⟩ := columnRef_eq_some (i := 0) hread
        rw [hcolumn, ok_bind]
        simp only [aliasAt_eq, hafter]
        rfl

theorem listedTables_eq (tokens : List Token) :
    listedTables tokens = .ok (IndexAdvice.listedTables tokens) := by
  rw [listedTables, items_eq, ok_bind, mapM_eq fun part hpart =>
    listedTable_eq (ne_nil_of_mem_items hpart), ok_bind, List.filterMap_map]
  rfl

/-! ### Columns -/

/-- The column of the query's own table that an item is. -/
def columnOf (scope : Scope) (part : List Token) : Checked (Option String) := do
  match ← wholeRef part 0 with
  | none => return none
  | some ref => return (scope.resolve ref).filter (!·.isEmpty)

/-- The columns of a `GROUP BY` list. -/
def groupColumns (scope : Scope) (tokens : List Token) : Checked (List String) := do
  let parts ← items tokens
  let found ← parts.mapM (columnOf scope)
  return (found.filterMap id).eraseDups

theorem columnOf_eq (scope : Scope) (part : List Token) :
    columnOf scope part = .ok (columnOf? scope part) := by
  rw [columnOf, wholeRef_eq, ok_bind, List.drop_zero, columnOf?]
  cases ColumnRef.whole? part <;> rfl

theorem groupColumns_eq (scope : Scope) (tokens : List Token) :
    groupColumns scope tokens = .ok (IndexAdvice.groupColumns scope tokens) := by
  rw [groupColumns, items_eq, ok_bind, mapM_eq fun part _ => columnOf_eq scope part, ok_bind,
    List.filterMap_map]
  rfl

/-! ### Sort items -/

/-- The item without `NULLS FIRST` or `NULLS LAST` at its end. -/
def dropNullsOrder (part : List Token) : Checked (List Token) :=
  if 2 ≤ part.length then do
    let nulls ← itemBack part 2
    let last ← itemBack part 1
    if nulls.isKeyword ["NULLS"] && last.isKeyword ["FIRST", "LAST"] then
      return part.dropLast.dropLast
    else return part
  else return part

/-- The sort item without its direction, and the direction. -/
def splitDirection (part : List Token) : Checked (List Token × String) :=
  if part.isEmpty then return (part, "ASC")
  else do
    let last ← itemBack part 1
    if last.isKeyword ["ASC", "DESC"] then return (part.dropLast, last.upper)
    else return (part, "ASC")

/-- The column and the direction of a sort item. -/
def sortColumn (scope : Scope) (part : List Token) : Checked (Option SortColumn) := do
  let ordered ← dropNullsOrder part
  let (column, direction) ← splitDirection ordered
  let found ← columnOf scope column
  return found.map (⟨·, direction⟩)

/-- The columns of an `ORDER BY` list with their directions. -/
def sortColumns (scope : Scope) (tokens : List Token) : Checked (List SortColumn) := do
  let parts ← items tokens
  let found ← parts.mapM (sortColumn scope)
  return firstDirections [] (found.filterMap id)

/-- The last two tokens are looked at where there are two. -/
theorem dropNullsOrder_eq (part : List Token) :
    dropNullsOrder part = .ok (IndexAdvice.dropNullsOrder part) := by
  rw [dropNullsOrder, IndexAdvice.dropNullsOrder]
  match h : part.reverse with
  | [] =>
    rw [List.reverse_eq_nil_iff.mp h]
    rfl
  | [t] =>
    rw [← List.reverse_reverse part, h]
    rfl
  | last :: nulls :: front =>
    obtain ⟨hlast, hnulls, hfront⟩ := itemBack_of_reverse h
    have hlong : 2 ≤ part.length := by
      rw [← List.length_reverse, h]
      simp
    rw [if_pos hlong, hnulls, ok_bind, hlast, ok_bind, hfront]
    simp only
    split <;> rfl

theorem splitDirection_eq (part : List Token) :
    splitDirection part = .ok (IndexAdvice.splitDirection part) := by
  rcases List.eq_nil_or_concat part with rfl | ⟨front, last, rfl⟩
  · rfl
  · rw [List.concat_eq_append, splitDirection, if_neg (by simp), itemBack_concat, ok_bind,
      IndexAdvice.splitDirection, List.getLast?_concat]
    simp only
    split <;> rfl

theorem sortColumns_eq (scope : Scope) (tokens : List Token) :
    sortColumns scope tokens = .ok (IndexAdvice.sortColumns scope tokens) := by
  have hcolumn (part : List Token) : sortColumn scope part =
      .ok ((columnOf? scope (IndexAdvice.splitDirection (IndexAdvice.dropNullsOrder part)).1).map
        (⟨·, (IndexAdvice.splitDirection (IndexAdvice.dropNullsOrder part)).2⟩)) := by
    rw [sortColumn, dropNullsOrder_eq, ok_bind, splitDirection_eq, ok_bind]
    simp only [columnOf_eq]
    rfl
  rw [sortColumns, items_eq, ok_bind, mapM_eq fun part _ => hcolumn part, ok_bind,
    List.filterMap_map]
  rfl

/-! ### The select list -/

/-- A select item without the word `DISTINCT` or `ALL` before it. -/
def dropQuantifier (part : List Token) : Checked (List Token) :=
  if part.isEmpty then return part
  else do
    let first ← item part 0
    if first.isKeyword ["DISTINCT", "ALL"] then return part.tail else return part

/-- A select item without the alias at its end. -/
def dropAlias (part : List Token) : Checked (List Token) :=
  if 2 ≤ part.length then do
    let last ← itemBack part 1
    let before ← itemBack part 2
    if last.isIdentifier && [.word, .quoted, .rparen].contains before.kind then
      return part.dropLast
    else return part
  else return part

/-- Whether no reference may start at position `i`, where `t` stands. -/
def isPassed (scope : Scope) (part : List Token) (i : Nat) (t : Token) : Checked Bool :=
  if scope.inNested t then return true else holdsBefore (·.isKeyword ["AS"]) part i

/-- The columns of the own table that the tokens from position `i` on refer to. -/
def references (scope : Scope) (part : List Token) (i : Nat) : Checked (List String) :=
  if i < part.length then do
    let t ← item part i
    let passed ← isPassed scope part i t
    if passed then references scope part (i + 1)
    else
      match ← columnRef part i with
      | none => references scope part (i + 1)
      | some (ref, stop) =>
        let ⟨_⟩ ← less i stop
        let called ← holdsAt (·.kind == .lparen) part stop
        let more ← references scope part stop
        let found := if called then none else scope.resolve ref
        return (found.filter (!·.isEmpty)).toList ++ more
  else return []
termination_by part.length - i

/-- The columns that a select item refers to. -/
def selectedFrom (scope : Scope) (part : List Token) : Checked (List String) := do
  let unquantified ← dropQuantifier part
  let expression ← dropAlias unquantified
  references scope expression 0

/-- The known columns that a select list refers to. -/
def selectedColumns (scope : Scope) (tokens : List Token) : Checked (List String) := do
  let parts ← items tokens
  let lists ← parts.mapM (selectedFrom scope)
  return lists.flatten.eraseDups

theorem dropQuantifier_eq (part : List Token) :
    dropQuantifier part = .ok (IndexAdvice.dropQuantifier part) := by
  cases part with
  | nil => rfl
  | cons t rest =>
    rw [dropQuantifier, if_neg (by simp), item_zero, ok_bind, IndexAdvice.dropQuantifier]
    split <;> rfl

theorem dropAlias_eq (part : List Token) :
    dropAlias part = .ok (IndexAdvice.dropAlias part) := by
  rw [dropAlias, IndexAdvice.dropAlias]
  match h : part.reverse with
  | [] =>
    rw [List.reverse_eq_nil_iff.mp h]
    rfl
  | [t] =>
    rw [← List.reverse_reverse part, h]
    rfl
  | last :: before :: front =>
    obtain ⟨hlast, hbefore, -⟩ := itemBack_of_reverse h
    have hlong : 2 ≤ part.length := by
      rw [← List.length_reverse, h]
      simp
    rw [if_pos hlong, hlast, ok_bind, hbefore, ok_bind]
    simp only
    split <;> rfl

/-- Whether a token is passed over depends on itself and on the one before it. -/
theorem isPassed_eq (h : i ≤ part.length) (t : Token) : isPassed scope part i t =
    .ok (scope.inNested t || (previous part i).any (·.isKeyword ["AS"])) := by
  rw [isPassed, holdsBefore_eq _ h]
  cases scope.inNested t <;> rfl

/-- Tokens that have been read already are passed over. -/
theorem referencesFrom_skip (scope : Scope) (part : List Token) (i k : Nat) :
    referencesFrom scope (previous part i) k (part.drop i) =
      referencesFrom scope (previous part (i + k)) 0 (part.drop (i + k)) := by
  induction k generalizing i with
  | zero => rfl
  | succ k ih =>
    cases h : part.drop i with
    | nil =>
      rw [List.drop_eq_nil_of_le (Nat.le_trans (length_le_of_drop h) (Nat.le_add_right i _))]
      simp [referencesFrom]
    | cons t rest =>
      rw [referencesFrom, ← previous_succ h, ← drop_succ h, ih, Nat.add_assoc, Nat.add_comm 1 k]

/-- The walk over the tokens stays between the ends of the list. -/
theorem references_eq (scope : Scope) (part : List Token) (i : Nat) : references scope part i =
    .ok (referencesFrom scope (previous part i) 0 (part.drop i)) := by
  induction hm : part.length - i using Nat.strongRecOn generalizing i with
  | ind m ih =>
    subst hm
    cases h : part.drop i with
    | nil =>
      rw [references, if_neg (Nat.not_lt.mpr (length_le_of_drop h)), referencesFrom]
      rfl
    | cons t rest =>
      have hlt := lt_length_of_drop h
      have hnext : references scope part (i + 1) = .ok (referencesFrom scope (some t) 0 rest) := by
        rw [ih _ (by omega) (i + 1) rfl, previous_succ h, drop_succ h]
      rw [references, if_pos hlt, item_eq h, ok_bind, isPassed_eq (Nat.le_of_lt hlt), ok_bind,
        referencesFrom]
      split
      · exact hnext
      · cases hread : ColumnRef.read? (t :: rest) with
        | none =>
          rw [columnRef_eq_none (h ▸ hread)]
          exact hnext
        | some found =>
          obtain ⟨ref, after⟩ := found
          obtain ⟨stop, hstop, hle, hafter, hcolumn⟩ :=
            columnRef_eq_some (i := i) (h ▸ hread)
          -- the index is past the reference, as many tokens on as the list skips
          have hstop' : i + 1 + (rest.length - after.length) = stop := by
            rw [← drop_succ h, ← hafter, List.length_drop, List.length_drop]
            omega
          have hmore : referencesFrom scope (some t) (rest.length - after.length) rest =
              referencesFrom scope (previous part stop) 0 (part.drop stop) := by
            rw [← previous_succ h, ← drop_succ h, referencesFrom_skip, drop_succ h, hstop']
          rw [hcolumn, ok_bind]
          simp only
          rw [less_eq hstop, ok_bind, holdsAt_eq, ok_bind, hafter, ih _ (by omega) stop rfl, hmore,
            hafter]
          rfl

/-- The select list is read without a fault. -/
theorem selectedColumns_eq (scope : Scope) (tokens : List Token) :
    selectedColumns scope tokens = .ok (IndexAdvice.selectedColumns scope tokens) := by
  have hselected (part : List Token) : selectedFrom scope part = .ok (referencesFrom scope none 0
      (IndexAdvice.dropAlias (IndexAdvice.dropQuantifier part))) := by
    rw [selectedFrom, dropQuantifier_eq, ok_bind, dropAlias_eq, ok_bind, references_eq]
    rfl
  rw [selectedColumns, items_eq, ok_bind, mapM_eq fun part _ => hselected part, ok_bind,
    ← List.flatMap_def]
  rfl

end Checked

end IndexAdvice
