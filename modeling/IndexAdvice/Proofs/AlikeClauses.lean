import IndexAdvice.Parse
import IndexAdvice.Proofs.AlikeJoins
import IndexAdvice.Proofs.AlikeLists
import IndexAdvice.Proofs.NestedQueries

/-!
# Alike queries

The groups of alike tokens reach from and to the same places (`Group.matches_collect`), and queries
of alike tokens say the same about the columns of their table (`Clauses.matches_ofTokens`).
-/

namespace IndexAdvice

open Token

variable {R : Nat → Nat → Prop} {H H' : Token → Prop} {s : Likeness} {t t' : Token}
  {ts ts' : List Token} {groups groups' : List Group}

/-! ### Nested queries -/

/-- A parenthesis inside a hidden body closes, whatever comes after the body. -/
theorem Token.Hidden.opensBefore {d : Nat} {body : List Token}
    (h : Hidden H d body) (ht : t.kind = .lparen) (ts : List Token) :
    opensBefore t (body ++ ts) = true := by
  cases body with
  | nil => exact absurd h.head (by decide)
  | cons u us =>
    have hu : u.isKeyword Keyword.nested = true := h.head
    simp [Token.opensBefore, ht, hu]

/-- Nested queries that reach from and to the same places. -/
structure Group.Matches (R : Nat → Nat → Prop) (g g' : Group) : Prop where
  start : R g.start g'.start
  stop : ∀ a a', R a a' → (a < g.stop ↔ a' < g'.stop)

namespace Group

/-- Whether a token lies in one of the groups. -/
def covers (groups : List Group) (t : Token) : Bool :=
  groups.any fun g => g.start ≤ t.start && t.start < g.stop

/-- Groups are closed by tokens that are twins again. -/
theorem closer_of_twins (htwin : Twin R t t') (h : List.Forall₂ (Twin R) ts ts') :
    Twin R (closer t ts) (closer t' ts') := by
  have hget (i : Nat) : Twin R (ts.getD i t) (ts'.getD i t') := by
    induction h generalizing i with
    | nil => exact htwin
    | cons hhead _ ih =>
      cases i with
      | zero => exact hhead
      | succ i => exact ih i
  rw [closer, closer, Alike.closing?_eq h, htwin.depth]
  cases closing? t'.depth ts' with
  | some j => exact hget j
  | none =>
    have hlast := hget (ts.length - 1)
    simp only
    rwa [List.getD_eq_getElem?_getD, ← List.getLast?_eq_getElem?, h.length_eq,
      List.getD_eq_getElem?_getD, ← List.getLast?_eq_getElem?] at hlast

theorem size_of_twins (htwin : Twin R t t') (h : List.Forall₂ (Twin R) ts ts') :
    size t ts = size t' ts' := by
  rw [size, size, Alike.closing?_eq h, htwin.depth, h.length_eq]

theorem opensBefore_of_alike (htwin : Twin R t t') (h : Alike R H H' s ts ts') :
    opensBefore t ts = opensBefore t' ts' := by
  rw [opensBefore, opensBefore, htwin.kind, h.head?_any fun _ _ htwin => htwin.isKeyword _]

/-- The groups of two alike token lists match one by one, wherever the texts have them. -/
theorem matches_collect (h : Alike R H H' s ts ts') (sql sql' : List Char)
    (before before' : List Token) :
    List.Forall₂ (Group.Matches R) (collect sql before 0 ts) (collect sql' before' 0 ts') := by
  -- on the length, as a nested query is passed over as a whole
  induction hn : ts.length using Nat.strongRecOn generalizing s ts ts' before before' with
  | ind n ih =>
  subst hn
  rcases h.nil_or_cons with ⟨rfl, rfl⟩ | ⟨t, ts, t', ts', rfl, rfl, htwin, hrest⟩
  · exact .nil
  · rw [collect_cons, collect_cons]
    by_cases hlparen : t.kind = .lparen
    · rcases h.of_lparen hlparen with hplain | hopened
      · have htwins := (List.forall₂_cons.mp hplain.forall₂).2
        have hrest : Alike R H H' .plain ts ts' := .of_forall₂ htwins
        rw [← opensBefore_of_alike htwin hrest]
        split
        · refine .cons ⟨htwin.start, (closer_of_twins htwin htwins).stop⟩ ?_
          rw [← size_of_twins htwin htwins]
          have hdrop : Alike R H H' .plain (ts.drop (size t ts)) (ts'.drop (size t ts)) :=
            .of_forall₂ (List.forall₂_drop _ htwins)
          refine ih _ ?_ hdrop _ _ rfl
          rw [List.length_drop, List.length_cons]
          omega
        · exact ih _ (Nat.lt_succ_self _) hrest _ _ rfl
      · -- the group may have been left out, but its parentheses are there on both sides
        cases hopened with
        | @intro _ r _ r' inner inner' ts ts' hs around deeper deeper' inside rest =>
          have hend {l r : Token} {inner : List Token} (hr : r.kind = .rparen)
              (hd : r.depth = l.depth) (deeper : ∀ t ∈ inner, l.depth < t.depth) (ts : List Token) :
              closer l (inner ++ r :: ts) = r ∧ size l (inner ++ r :: ts) = inner.length + 1 := by
            rw [closer, size, closing?_group deeper hr hd]
            exact ⟨by simp [List.getD], rfl⟩
          have hafter (r : Token) (inner ts : List Token) :
              (inner ++ r :: ts).drop (inner.length + 1) = ts := by
            simp [List.drop_append]
          obtain ⟨hcloser, hsize⟩ := hend around.rparen around.depth deeper ts
          obtain ⟨hcloser', hsize'⟩ := hend around.rparen' around.depth' deeper' ts'
          have hfound (pre pre' : List Token) : List.Forall₂ (Group.Matches R)
              (openedBy sql before t (inner ++ r :: ts) :: collect sql pre 0 ts)
              (openedBy sql' before' t' (inner' ++ r' :: ts') :: collect sql' pre' 0 ts') := by
            refine .cons ⟨around.opens.start, ?_⟩ (ih _ ?_ rest _ _ rfl)
            · simp only [openedBy, hcloser, hcloser']
              exact around.closes.stop
            · simp only [List.length_cons, List.length_append]
              omega
          rw [hsize, hsize', hafter, hafter]
          rcases inside with inside | ⟨inside, inside'⟩
          · have happend := inside.append hs (.closer around rest)
            rw [opensBefore_of_alike around.opens happend]
            split
            · exact hfound _ _
            · exact ih _ (Nat.lt_succ_self _) happend _ _ rfl
          · rw [if_pos (inside.opensBefore around.lparen _),
              if_pos (inside'.opensBefore around.lparen' _)]
            exact hfound _ _
    · have hnot {u : Token} (hu : u.kind ≠ .lparen) (us : List Token) :
          ¬ opensBefore u us = true := by
        simp [opensBefore, hu]
      rw [if_neg (hnot hlparen ts), if_neg (hnot (htwin.kind ▸ hlparen) ts')]
      exact ih _ (Nat.lt_succ_self _) (hrest hlparen) _ _ rfl

/-- Groups that reach from and to the same places cover the same tokens. -/
theorem covers_of_matches (hR : ∀ a a' b b', R a a' → R b b' → (a < b ↔ a' < b'))
    (h : List.Forall₂ (Group.Matches R) groups groups') (htwin : Twin R t t') :
    covers groups t = covers groups' t' := by
  induction h with
  | nil => rfl
  | cons hg _ ih =>
    have hstart := hR _ _ _ _ htwin.start hg.start
    have hstop := hg.stop _ _ htwin.start
    simp only [covers, List.any_cons] at ih ⊢
    rw [ih, decide_eq_decide.mpr hstop]
    congr 2
    rw [decide_eq_decide, ← Nat.not_lt, ← Nat.not_lt, hstart]

end Group

/-! ### Clauses -/

/-- What two texts say about the columns of their table, at places that `R` relates. -/
structure Clauses.Matches (R : Nat → Nat → Prop) (c c' : Clauses) : Prop where
  branches : List.Forall₂ (List.Forall₂ (Predicate.Matches R)) c.branches c'.branches
  joins : List.Forall₂ (Join.Matches R) c.joins c'.joins
  groupBy : c.groupBy = c'.groupBy
  orderBy : c.orderBy = c'.orderBy
  having : List.Forall₂ (Predicate.Matches R) c.having c'.having
  selected : c.selected = c'.selected
  tables : c.tables = c'.tables
  hasOr : c.hasOr = c'.hasOr

/-- The tokens of the joins of a query that tell where their conditions stand. -/
def joinMarks (tokens : List Token) : List Token :=
  (Span.tokensOf (Span.divide tokens) "JOIN").flatMap JoinTarget.marks

variable {query query' : Query} {targets targets' : List JoinTarget}

/-- A token is in a nested query if one of the groups covers it. -/
theorem Scope.inNested_ofSpans (query : Query) (groups : List Group)
    (listed : List (String × Option String)) (targets : List JoinTarget) (t : Token) :
    (Scope.ofSpans query groups listed targets).inNested t = Group.covers groups t := by
  rw [Scope.inNested, Scope.ofSpans, Group.covers, List.any_map]
  rfl

/-- The same tables and joins make the same scope. -/
theorem Scope.matches_ofSpans (hfields : query.fields = query'.fields)
    (htable : query.table = query'.table) (listed : List (String × Option String))
    (htargets : List.Forall₂ (JoinTarget.Matches R H H') targets targets')
    (hcovers : ∀ t t', Twin R t t' → Group.covers groups t = Group.covers groups' t')
    (hhidden : ∀ t, H t → Group.covers groups t = true)
    (hhidden' : ∀ t, H' t → Group.covers groups' t = true) :
    Scope.Matches R H H' (Scope.ofSpans query groups listed targets)
      (Scope.ofSpans query' groups' listed targets') := by
  have haliases (aliases : List (String × String)) :
      targets.foldl (fun aliases target =>
        bindAlias (if target.table.isEmpty then aliases else bindName aliases target.table)
          target.table target.aliasName) aliases =
      targets'.foldl (fun aliases target =>
        bindAlias (if target.table.isEmpty then aliases else bindName aliases target.table)
          target.table target.aliasName) aliases := by
    induction htargets generalizing aliases with
    | nil => rfl
    | cons htarget _ ih =>
      rw [List.foldl_cons, List.foldl_cons, htarget.table, htarget.aliasName]
      exact ih _
  refine ⟨hfields, haliases _, ?_, fun t t' htwin => ?_, fun t ht => ?_, fun t ht => ?_⟩
  · simp only [Scope.ofSpans, haliases, htable]
  · rw [inNested_ofSpans, inNested_ofSpans]
    exact hcovers t t' htwin
  · rw [inNested_ofSpans]
    exact hhidden t ht
  · rw [inNested_ofSpans]
    exact hhidden' t ht

/-- **Reading alike tokens.** Two queries on one table whose tokens are alike say the same, if the
marks of their joins lie outside the nested queries that differ, and those are covered by groups. -/
theorem Clauses.matches_ofTokens (splitOr : Bool) (hfields : query.fields = query'.fields)
    (htable : query.table = query'.table) (h : Alike R H H' s ts ts')
    (hmarks : ∀ t ∈ joinMarks ts, ¬ H t) (hmarks' : ∀ t ∈ joinMarks ts', ¬ H' t)
    (hcovers : ∀ t t', Twin R t t' → Group.covers groups t = Group.covers groups' t')
    (hhidden : ∀ t, H t → Group.covers groups t = true)
    (hhidden' : ∀ t, H' t → Group.covers groups' t = true) :
    Clauses.Matches R (Clauses.ofTokens splitOr query ts groups)
      (Clauses.ofTokens splitOr query' ts' groups') := by
  have hspans := Span.divide_of_alike h
  have hlists (keyword : String) :
      List.Forall₂ (Alike R H H' .mixed) (Span.tokensOf (Span.divide ts) keyword)
        (Span.tokensOf (Span.divide ts') keyword) :=
    (Span.tokensOf_of_matches hspans keyword).imp fun _ _ h => h.1
  have hlisted : (Span.tokensOf (Span.divide ts) "FROM" ++
        Span.tokensOf (Span.divide ts) "UPDATE").flatMap listedTables =
      (Span.tokensOf (Span.divide ts') "FROM" ++
        Span.tokensOf (Span.divide ts') "UPDATE").flatMap listedTables :=
    flatMap_eq_of_forall₂ (List.rel_append (hlists "FROM") (hlists "UPDATE")) fun _ _ hlist =>
      listedTables_of_alike hlist
  have htargets : List.Forall₂ (JoinTarget.Matches R H H')
      ((Span.tokensOf (Span.divide ts) "JOIN").map JoinTarget.ofSpan)
      ((Span.tokensOf (Span.divide ts') "JOIN").map JoinTarget.ofSpan) := by
    have hjoins := forall₂_mem (Span.tokensOf_of_matches hspans "JOIN")
    refine List.rel_map (fun join join' hjoin => ?_) hjoins
    obtain ⟨⟨halike, hstarts⟩, hmem, hmem'⟩ := hjoin
    exact JoinTarget.matches_ofSpan halike (hstarts rfl)
      (fun t ht => hmarks t (List.mem_flatMap.mpr ⟨join, hmem, ht⟩))
      (fun t ht => hmarks' t (List.mem_flatMap.mpr ⟨join', hmem', ht⟩))
  -- the tables make up the scope, and every clause is read in it
  have hscope := Scope.matches_ofSpans hfields htable
    ((Span.tokensOf (Span.divide ts') "FROM" ++
      Span.tokensOf (Span.divide ts') "UPDATE").flatMap listedTables)
    htargets hcovers hhidden hhidden'
  have hfirst (keyword : String) := Span.firstOf_of_matches hspans keyword
  have hbranches := Predicate.matches_branches hscope splitOr (hfirst "WHERE")
  rw [Clauses.ofTokens, Clauses.ofTokens, hlisted]
  exact {
    branches := hbranches.1
    joins := List.rel_map (fun _ _ htarget => JoinTarget.matches_resolve hscope htarget) htargets
    groupBy := groupColumns_of_alike hscope (hfirst "GROUP BY")
    orderBy := sortColumns_of_alike hscope (hfirst "ORDER BY")
    having := Predicate.matches_having hscope (hfirst "HAVING")
    selected := selectedColumns_of_alike hscope (hfirst "SELECT")
    tables := rfl
    hasOr := hbranches.2 }

end IndexAdvice
