import IndexAdvice.Proofs.Records
import IndexAdvice.Proofs.RestatedClauses

/-!
# Letter case is irrelevant

SQL words may be written in any letter case. Two texts that differ in the case of ASCII letters at
most are cut into the same tokens at the same places (`tokenize_of_recased`), so the second query
restates the first: it uses the columns of its table in the same way (`letter_case_irrelevant`).
-/

namespace IndexAdvice

open Text Token

variable {a : Nat} {sql sql' : String} {t t' : Token} {ts ts' : List Token}

/-! ### Tokens -/

/-- **Texts that differ in letter case have restated tokens**, at the same places. -/
theorem tokenize_of_recased (h : Recased sql sql') :
    List.Forall₂ (Token.Restated 0) (tokenize sql) (tokenize sql') := by
  have hpieces := congrArg Piece.ofText h
  rw [Piece.ofText_toLower, Piece.ofText_toLower] at hpieces
  refine restated_locate ((forall₂_of_map_eq hpieces.symm).imp fun p p' hp => ?_) 0 0
  obtain ⟨hkind, htext⟩ := Piece.mk.inj hp
  exact ⟨hkind.symm, htext.symm⟩

theorem statementTokens_of_recased (h : Recased sql sql') :
    List.Forall₂ (Token.Restated 0) (statementTokens sql) (statementTokens sql') := by
  rw [statementTokens, statementTokens, List.forall₂_reverse_iff]
  refine forall₂_dropWhile (List.forall₂_reverse_iff.mpr (tokenize_of_recased h)) fun t t' h => ?_
  rw [h.kind]

/-! ### Nested queries -/

namespace Group

/-- Groups close at tokens that are restated. -/
theorem restated_closer (ht : Token.Restated a t t') (h : List.Forall₂ (Token.Restated a) ts ts') :
    Token.Restated a (closer t ts) (closer t' ts') := by
  have hget (i : Nat) : Token.Restated a (ts.getD i t) (ts'.getD i t') := by
    induction h generalizing i with
    | nil => exact ht
    | cons hhead _ ih =>
      cases i with
      | zero => exact hhead
      | succ i => exact ih i
  rw [closer, closer, closing?_of_restated h, ht.depth]
  cases closing? t'.depth ts' with
  | some j => exact hget j
  | none =>
    have hlast := hget (ts.length - 1)
    simp only
    rwa [List.getD_eq_getElem?_getD, ← List.getLast?_eq_getElem?, h.length_eq,
      List.getD_eq_getElem?_getD, ← List.getLast?_eq_getElem?] at hlast

/-- **Nested queries** of restated tokens stand at the same places, `a` characters further on. -/
theorem restated_collect (text text' : List Char) (h : List.Forall₂ (Token.Restated a) ts ts')
    (before before' : List Token) (skip : Nat) :
    List.Forall₂ (fun g g' => g'.start = g.start + a ∧ g'.stop = g.stop + a)
      (collect text before skip ts) (collect text' before' skip ts') := by
  induction h generalizing before before' skip with
  | nil => cases skip <;> exact .nil
  | @cons t t' ts ts' ht hts ih =>
    cases skip with
    | succ skip => exact ih _ _ skip
    | zero =>
      have hsize : size t ts = size t' ts' := by
        rw [size, size, closing?_of_restated hts, ht.depth, hts.length_eq]
      rw [collect, collect, ht.kind, hsize,
        head?_any_of_forall₂ hts fun _ _ h => h.isKeyword Keyword.nested]
      split
      · exact .cons ⟨ht.start, (restated_closer ht hts).stop⟩ (ih _ _ _)
      · exact ih _ _ 0

end Group

/-- Nested queries that stand further on cover the tokens that do. -/
theorem Scope.inNested_of_restated {query query' : Query} {groups groups' : List Group}
    {spans spans' : List Span}
    (h : List.Forall₂ (fun g g' => g'.start = g.start + a ∧ g'.stop = g.stop + a) groups groups')
    (t t' : Token) (ht : Token.Restated a t t') :
    (Scope.ofClauses query groups spans).inNested t =
      (Scope.ofClauses query' groups' spans').inNested t' := by
  rw [Scope.ofClauses, Scope.ofClauses, inNested_ofSpans, inNested_ofSpans, Group.covers,
    Group.covers]
  induction h with
  | nil => rfl
  | cons hg _ ih =>
    simp only [List.any_cons, ih, ht.start, hg.1, hg.2, Nat.add_le_add_iff_right,
      Nat.add_lt_add_iff_right]

/-! ### Clauses -/

/-- Two queries use the columns of their table in the same way. -/
structure Clauses.SameUse (c c' : Clauses) : Prop where
  /-- The key columns of their candidates are the same for every target database. -/
  columns : ∀ caps, (Candidate.ofClauses caps c).map Candidate.columns =
    (Candidate.ofClauses caps c').map Candidate.columns
  /-- Branch for branch they have the same predicates, up to texts and places. -/
  branches : c.branches.map (List.map Predicate.essence) =
    c'.branches.map (List.map Predicate.essence)
  joins : c.joins.map (fun j => (j.kind, j.localColumn)) =
    c'.joins.map fun j => (j.kind, j.localColumn)
  groupBy : c.groupBy = c'.groupBy
  orderBy : c.orderBy = c'.orderBy
  selected : c.selected = c'.selected
  hasOr : c.hasOr = c'.hasOr

/-- Queries that differ in letter case use the same columns in the same way. -/
theorem Query.sameUse_of_recased (catalog : Catalog) (splitOr : Bool) {query query' : Query}
    (hfields : query.fields = query'.fields) (htable : query.table = query'.table)
    (h : Recased query.sql query'.sql) :
    Clauses.SameUse (query.parse catalog splitOr).clauses
      (query'.parse catalog splitOr).clauses := by
  have htokens := statementTokens_of_recased h
  have hspans := Span.restated_divide htokens
  have hjoins := Span.ne_nil_of_mem_joins (statementTokens query.sql)
  -- texts cut out at the same places differ in letter case at most
  have hslice (i j : Nat) : Recased (String.ofList (slice query.sql.toList i j))
      (String.ofList (slice query'.sql.toList (i + 0) (j + 0))) := by
    simp only [Recased, slice, String.toList_ofList, List.map_take, List.map_drop, Nat.add_zero]
    rw [h]
  have hscope := Scope.restates_ofClauses query.groups query'.groups hfields htable hslice hspans
    hjoins
  have hclauses := Clauses.restated_ofTokens splitOr hscope
    (JoinTarget.restated_ofClauses hspans hjoins) fun keyword _ =>
      Span.restated_firstOf hspans keyword
  have hselected : (query.parse catalog splitOr).clauses.selected =
      (query'.parse catalog splitOr).clauses.selected := by
    rw [Query.clauses_parse, Query.clauses_parse, Clauses.selected_ofTokens,
      Clauses.selected_ofTokens]
    exact selectedColumns_of_restated hscope
      (Scope.inNested_of_restated (Group.restated_collect _ _ htokens [] [] 0))
      (Span.restated_firstOf hspans "SELECT")
  rw [← Query.clauses_parse catalog, ← Query.clauses_parse catalog] at hclauses
  exact {
    columns := hclauses.columns
    branches := hclauses.essences
    joins := map_eq_of_forall₂ hclauses.joins fun _ _ hj => by rw [hj.kind, hj.localColumn]
    groupBy := hclauses.groupBy
    orderBy := hclauses.orderBy
    selected := hselected
    hasOr := hclauses.hasOr }

/-- **Letter case is irrelevant.** However the letter case of a query text is changed, in its
keywords and in the names of columns, tables and aliases, in nested queries and outside them, the
query uses the columns of its table in the same way. -/
theorem letter_case_irrelevant (catalog : Catalog) (splitOr : Bool) (query : Query)
    (h : Recased query.sql sql) :
    Clauses.SameUse (query.parse catalog splitOr).clauses
      (({ query with sql := sql } : Query).parse catalog splitOr).clauses :=
  Query.sameUse_of_recased catalog splitOr rfl rfl h

/-- A search for the items of a user, with an alias for the table. -/
def itemSearch : Query where
  table := "Item"
  fields := ["id", "userId"]
  sql := "SELECT id FROM items i WHERE i.userId = $1"

/-- The search as another hand would write it. -/
def recasedSearch : Query :=
  { itemSearch with sql := "select ID from Items I where I.USERID = $1" }

/-- Both searches have the key of the first, in declared spelling. -/
theorem item_search_recased :
    Recased itemSearch.sql recasedSearch.sql ∧
      Clauses.SameUse (itemSearch.parse [] true).clauses (recasedSearch.parse [] true).clauses ∧
      (Candidate.ofClauses (.of .postgres none) (recasedSearch.parse [] true).clauses).map
        Candidate.columns = [["userId"]] := by
  have hrecased : Recased itemSearch.sql recasedSearch.sql := by decide +kernel
  refine ⟨hrecased, letter_case_irrelevant [] true itemSearch hrecased, ?_⟩
  decide +kernel

end IndexAdvice
