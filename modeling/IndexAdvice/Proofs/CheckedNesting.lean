import IndexAdvice.Proofs.CheckedClauses
import IndexAdvice.Proofs.CheckedText
import IndexAdvice.Proofs.NestedQueries

/-!
# Checked reading of nested queries

A group is looked for up to the last token but one, since a token has to follow its parenthesis. The
text of its query is shorter than the text around it, and so all queries are read, one inside the
other, with no fault (`Checked.parse_eq`).
-/

namespace IndexAdvice

namespace Checked

open Text Token

variable {tokens rest : List Token} {t : Token} {i : Nat}

/-! ### Groups -/

/-- The origin of a nested query whose parenthesis is at position `i`. -/
def originAt (tokens : List Token) (i : Nat) : Checked Origin :=
  if i = 0 then return .scalar
  else do
    let before ← item tokens (i - 1)
    let opener ← item tokens i
    if before.isKeyword ["IN"] then return .whereIn
    else if before.isKeyword ["EXISTS"] then return .existsTest
    else if before.isKeyword ["FROM", "JOIN", "AS", "LATERAL"] then return .fromDerived
    else if before.kind == .comma &&
        Group.enclosingClause opener.depth (tokens.take i).reverse == some "FROM" then
      return .fromDerived
    else return .scalar

/-- The outermost groups from position `i` on. -/
def groups (sql : List Char) (tokens : List Token) (i : Nat) : Checked (List Group) :=
  if i + 1 < tokens.length then do
    let t ← item tokens i
    let next ← item tokens (i + 1)
    if t.kind == .lparen && next.isKeyword Keyword.nested then
      let close ← matchingParen tokens i
      let last ← item tokens close
      let origin ← originAt tokens i
      let inner := slice sql (t.start + 1) (if last.kind == .rparen then last.start else sql.length)
      let ⟨_⟩ ← less i (close + 1)
      let more ← groups sql tokens (close + 1)
      return ⟨origin, t.start, last.stop, trim inner⟩ :: more
    else groups sql tokens (i + 1)
  else return []
termination_by tokens.length - i

/-- The clause a group stands in is looked for backwards, from the group to the start. -/
theorem originAt_eq (h : tokens.drop i = t :: rest) :
    originAt tokens i = .ok (Group.originAfter t.depth (tokens.take i).reverse) := by
  rw [originAt]
  by_cases hi : i = 0
  · subst hi
    rfl
  · obtain ⟨before, hbefore, hitem⟩ :=
      item_previous (Nat.pos_of_ne_zero hi) (Nat.le_of_lt (lt_length_of_drop h))
    obtain ⟨front, hfront⟩ := List.getLast?_eq_some_iff.mp hbefore
    rw [if_neg hi, hitem, ok_bind, item_eq h, ok_bind, hfront, List.reverse_concat,
      Group.originAfter]
    simp only [apply_ite Except.ok, pure_eq_ok]

/-- A group ends before the tokens that do not belong to it. -/
theorem matchingParen_succ (h : tokens.drop i = t :: rest) :
    Token.matchingParen tokens i + 1 = i + 1 + Group.size t rest := by
  have hlength := congrArg List.length h
  rw [List.length_drop, List.length_cons] at hlength
  rw [Token.matchingParen, getElem?_of_drop h, drop_succ h, Group.size]
  dsimp only
  cases Token.closing? t.depth rest with
  | some j => rfl
  | none => dsimp only; omega

/-- The token found for a group is there to be read, be it the group's closer or the last token of
all. -/
theorem item_matchingParen (h : tokens.drop i = t :: rest) :
    item tokens (Token.matchingParen tokens i) = .ok (Group.closer t rest) := by
  have hitem (k : Nat) : tokens[i + k]? = (t :: rest)[k]? := by rw [← List.getElem?_drop, h]
  have hlast := matchingParen_succ h
  rw [item, Group.closer]
  rw [Group.size] at hlast
  cases hclosing : Token.closing? t.depth rest with
  | some j =>
    have hj := (List.findIdx?_eq_some_iff_findIdx_eq.mp hclosing).1
    rw [hclosing] at hlast
    rw [show Token.matchingParen tokens i = i + (j + 1) by dsimp only at hlast; omega, hitem,
      List.getElem?_cons_succ, List.getElem?_eq_getElem hj]
    simp [hj]
  | none =>
    rw [hclosing] at hlast
    rw [show Token.matchingParen tokens i = i + rest.length by dsimp only at hlast; omega, hitem]
    have hend : (t :: rest)[rest.length]? = some (rest.getLast?.getD t) := by
      rw [← List.getLast?_cons, List.getLast?_eq_getElem?]
      rfl
    rw [hend]

/-- What belongs to a group stands before the tokens after it. -/
theorem take_matchingParen (h : tokens.drop i = t :: rest) :
    tokens.take (Token.matchingParen tokens i + 1) =
      tokens.take i ++ t :: rest.take (Group.size t rest) := by
  rw [matchingParen_succ h, Nat.add_assoc, List.take_add, h, Nat.add_comm 1, List.take_succ_cons]

/-- **Groups** are found with no fault, each with the tokens before it taken as they stand. -/
theorem groups_eq (sql : List Char) (tokens : List Token) (i : Nat) : groups sql tokens i =
    .ok (Group.collect sql (tokens.take i).reverse 0 (tokens.drop i)) := by
  induction hm : tokens.length - i using Nat.strongRecOn generalizing i with
  | ind m ih =>
    subst hm
    -- a group is opened by two tokens, so the search stops before the last one
    match h : tokens.drop i with
    | [] =>
      have hend := length_le_of_drop h
      rw [groups, if_neg (by omega)]
      rfl
    | [t] =>
      have hend := length_le_of_drop (drop_succ h)
      rw [groups, if_neg (by omega)]
      simp [Group.collect]
    | t :: u :: rest =>
      have hlt := lt_length_of_drop (drop_succ h)
      have hclose := matchingParen_succ h
      rw [groups, if_pos hlt, item_eq h, ok_bind, item_eq (drop_succ h), ok_bind, collect_cons,
        show (t.kind == .lparen && u.isKeyword Keyword.nested) = opensBefore t (u :: rest) from rfl]
      cases opensBefore t (u :: rest) with
      | true =>
        have hmore := ih _ (by omega) (Token.matchingParen tokens i + 1) rfl
        rw [take_matchingParen h, hclose, ← List.drop_drop, drop_succ h, List.reverse_append,
          List.reverse_cons, List.append_assoc] at hmore
        rw [if_pos rfl, if_pos rfl, matchingParen_eq (lt_length_of_drop h), ok_bind,
          item_matchingParen h, ok_bind, originAt_eq h, ok_bind]
        dsimp only
        rw [less_eq (by omega), ok_bind, hclose, hmore]
        rfl
      | false =>
        have hnext := ih _ (by omega) (i + 1) rfl
        rw [if_neg Bool.false_ne_true, if_neg Bool.false_ne_true, hnext, drop_succ h, List.take_add,
          h, List.take_succ_cons, List.take_zero, List.reverse_concat]

/-! ### The query of a group -/

/-- The first table named from position `i` on, after a keyword at depth zero. -/
def primaryTable (tokens : List Token) (i : Nat) : Checked (Option String) :=
  if i < tokens.length then do
    let t ← item tokens i
    if t.depth == 0 && t.isKeyword ["FROM", "UPDATE", "INTO"] then
      match ← columnRef tokens (i + 1) with
      | some (ref, _) => return some ref.name
      | none => primaryTable tokens (i + 1)
    else primaryTable tokens (i + 1)
  else return none
termination_by tokens.length - i

/-- The query that a group of `outer` is. -/
def groupQuery (catalog : Catalog) (outer : Query) (g : Group) : Checked Query := do
  let sql := String.ofList g.sql
  let tokens ← tokenize sql
  let named ← primaryTable tokens 0
  let table := (named.filter (!·.isEmpty)).getD outer.table
  let known ← fieldsFor catalog table
  let shared ← if known.isEmpty then shareVariant table outer.table else pure false
  return outer.nestedIn table (if shared then outer.fields else known) g.origin sql

theorem primaryTable_eq (tokens : List Token) (i : Nat) :
    primaryTable tokens i = .ok (primaryTable? (tokens.drop i)) := by
  generalize h : tokens.drop i = rest
  induction rest generalizing i with
  | nil =>
    rw [primaryTable, if_neg (Nat.not_lt.mpr (length_le_of_drop h))]
    rfl
  | cons t rest ih =>
    have hnext := ih (i + 1) (drop_succ h)
    rw [primaryTable, if_pos (lt_length_of_drop h), item_eq h, ok_bind, primaryTable?]
    split
    · cases hread : ColumnRef.read? rest with
      | none =>
        rw [columnRef_eq_none (by rw [drop_succ h]; exact hread)]
        exact hnext
      | some found =>
        obtain ⟨ref, after⟩ := found
        obtain ⟨stop, -, -, -, hcolumn⟩ :=
          columnRef_eq_some (i := i + 1) (by rw [drop_succ h]; exact hread)
        rw [hcolumn]
        rfl
    · exact hnext

/-- A group is closed by a token that is there, so its text can be cut out. -/
theorem groupQuery_eq (catalog : Catalog) (outer : Query) (g : Group) :
    groupQuery catalog outer g = .ok (g.query catalog outer) := by
  rw [groupQuery, tokenize_eq, ok_bind, primaryTable_eq, ok_bind, List.drop_zero, Group.query]
  dsimp only
  rw [fieldsFor_eq, ok_bind, shareVariant_eq]
  cases (catalog.fieldsFor _).isEmpty <;> rfl

/-! ### Queries -/

/-- The tokens without semicolons at their end. -/
def dropSemicolons (tokens : List Token) : Checked (List Token) :=
  if tokens = [] then return []
  else do
    let last ← itemBack tokens 1
    if last.kind == .semicolon then dropSemicolons tokens.dropLast else return tokens
termination_by tokens.length
decreasing_by
  have := List.length_pos_iff.mpr ‹tokens ≠ []›
  rw [List.length_dropLast]
  omega

/-- The tokens of a statement, without semicolons at its end. -/
def statementTokens (sql : String) : Checked (List Token) := do
  let tokens ← tokenize sql
  dropSemicolons tokens

/-- What is read in a query and in all queries nested in it. -/
def parse (catalog : Catalog) (splitOr : Bool) (query : Query) : Checked Parsed := do
  let tokens ← statementTokens query.sql
  if tokens.isEmpty then return { clauses := {}, nested := .nil }
  else
    let found ← groups query.sql.toList tokens 0
    let inside ← found.mapM fun g => do
      let inner ← groupQuery catalog query g
      let ⟨_⟩ ← less inner.sql.length query.sql.length
      let read ← parse catalog splitOr inner
      return Nested.cons g.start g.stop inner read.clauses read.nested
    let clauses ← clauses splitOr query tokens found
    return { clauses, nested := inside.foldr (fun nest rest => nest rest) .nil }
termination_by query.sql.length

/-- The query and all queries nested in it, with what is read in each. -/
def records (catalog : Catalog) (splitOr : Bool) (query : Query) :
    Checked (List (Query × Clauses)) := do
  let read ← parse catalog splitOr query
  return read.records query

/-- Semicolons are dropped from an end that is looked at only while something is left. -/
theorem dropSemicolons_eq (tokens : List Token) : dropSemicolons tokens =
    .ok (tokens.reverse.dropWhile (·.kind == .semicolon)).reverse := by
  induction tokens using List.reverseRecOn with
  | nil => rw [dropSemicolons]; rfl
  | append_singleton front last ih =>
    rw [dropSemicolons, if_neg (by simp), itemBack_concat, ok_bind, List.dropLast_concat, ih,
      List.reverse_concat, List.dropWhile_cons]
    split
    · rfl
    · rw [List.reverse_cons, List.reverse_reverse]
      rfl

theorem statementTokens_eq (sql : String) :
    statementTokens sql = .ok (IndexAdvice.statementTokens sql) := by
  rw [statementTokens, tokenize_eq, ok_bind, dropSemicolons_eq]
  rfl

/-- **A query** and all queries nested in it are read with no fault. -/
theorem parse_eq (catalog : Catalog) (splitOr : Bool) (query : Query) :
    parse catalog splitOr query = .ok (query.parse catalog splitOr) := by
  induction query using Query.nestedInduction catalog with
  | step query ih =>
    -- the queries of the groups have shorter texts, so the recursion is let through
    have hinside : (query.groups.mapM fun g => do
          let inner ← groupQuery catalog query g
          let ⟨_⟩ ← less inner.sql.length query.sql.length
          let read ← parse catalog splitOr inner
          return Nested.cons g.start g.stop inner read.clauses read.nested) =
        .ok (query.groups.map (Query.nest catalog splitOr query)) := by
      refine mapM_eq fun g hg => ?_
      rw [groupQuery_eq, ok_bind, less_eq (Query.length_sql_lt_of_mem_groups catalog hg), ok_bind]
      dsimp only
      rw [ih g hg]
      rfl
    have hread : query.parse catalog splitOr =
        ⟨Clauses.ofTokens splitOr query (IndexAdvice.statementTokens query.sql) query.groups,
          query.groups.foldr (Query.nest catalog splitOr query) .nil⟩ := by
      rw [← Query.clauses_parse, ← Query.nested_parse]
    rw [parse, statementTokens_eq, ok_bind, hread]
    -- a text without tokens is not divided, and has neither clauses nor groups
    by_cases htokens : IndexAdvice.statementTokens query.sql = []
    · rw [Query.groups, htokens, Clauses.ofTokens_nil]
      rfl
    · rw [if_neg (by simpa using htokens), groups_eq, ok_bind]
      change (query.groups.mapM _ >>= _) = _
      rw [hinside, ok_bind, clauses_eq splitOr query htokens, ok_bind, List.foldr_map]
      rfl

/-- Every level of nesting has shorter text than the one around it, and none of them faults. -/
theorem records_eq (catalog : Catalog) (splitOr : Bool) (query : Query) :
    records catalog splitOr query = .ok (query.records catalog splitOr) := by
  rw [records, parse_eq]
  rfl

end Checked

end IndexAdvice
