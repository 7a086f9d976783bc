import IndexAdvice.Proofs.AlikeGroups
import IndexAdvice.Proofs.Layout

/-!
# Text in a nested query

When the text of a nested query is replaced by other text of a nested query, what stands around it
is read in the same way: the places inside it are covered by the groups of the text
(`covers_groups`), and its tokens are hidden from everything else. `nested_text_unread` says so for
all clauses and for the key columns of all candidates.

Two things are needed of the text around it. Parentheses that open before the nested query are
closed, since the end of an unclosed one is taken to be the last parenthesis of the text. And no
join finds its condition inside the nested query (`JoinsAvoid`), as it does in
`arrayJoin_nested_read`: the search for `ON` or `USING` is for the first one at any depth.
-/

namespace IndexAdvice

open Token

variable {t l r l' r' : Token} {front front' body body' rest rest' : List Token}

/-! ### Nested queries -/

/-- The tokens of a nested query between its parentheses. -/
structure Token.IsNestedQuery (l : Token) (body : List Token) (r : Token) : Prop where
  lparen : l.kind = .lparen
  nested : body.head?.any (·.isKeyword Keyword.nested) = true
  balanced : nesting 0 body = some 0
  rparen : r.kind = .rparen

namespace Token.IsNestedQuery

/-- The parenthesis of a nested query opens one, whatever comes after the closer. -/
theorem opensBefore (h : IsNestedQuery l body r) (rest : List Token) :
    opensBefore l (body ++ r :: rest) = true := by
  have hnested := h.nested
  cases body with
  | nil => exact absurd hnested (by decide)
  | cons u us =>
    simpa [Token.opensBefore, h.lparen] using hnested

end Token.IsNestedQuery

namespace Group

/-- A group not closed in the first part is closed in the second one or nowhere. -/
theorem closing?_append_eq (d : Nat) (us vs : List Token) (h : closing? d us = none) :
    closing? d (us ++ vs) = (closing? d vs).map (· + us.length) := by
  rw [closing?, List.findIdx?_append, ← closing?, h]
  rfl

/-- A group that is not closed up to a token reaches beyond it. -/
theorem stop_le_stop_closer (horder : Consecutive (front ++ r :: rest))
    (hopen : closing? t.depth (front ++ [r]) = none) :
    r.stop ≤ (closer t (front ++ r :: rest)).stop := by
  have hrest : ∀ u ∈ rest, r.stop ≤ u.stop := by
    intro u hu
    have hlt := horder.start_lt u (by simp [hu])
    have hle := (List.pairwise_append.mp horder.stop_le).2.1
    have := (List.pairwise_cons.mp hle).1 u hu
    omega
  have hsplit : front ++ r :: rest = front ++ [r] ++ rest := by simp
  rw [closer, hsplit, closing?_append_eq _ _ _ hopen]
  cases hclose : closing? t.depth rest with
  | none =>
    rcases List.eq_nil_or_concat rest with rfl | ⟨us, u, rfl⟩
    · simp
    · have := hrest u (by simp)
      simpa [← List.append_assoc] using this
  | some j =>
    obtain ⟨hj, -⟩ := List.findIdx?_eq_some_iff_getElem.mp hclose
    have hget : (front ++ [r] ++ rest)[j + (front ++ [r]).length]? = some rest[j] := by
      rw [List.getElem?_append_right (Nat.le_add_left _ _), Nat.add_sub_cancel,
        List.getElem?_eq_getElem hj]
    simp only [Option.map_some, List.getD_eq_getElem?_getD, hget, Option.getD_some]
    exact hrest rest[j] (List.getElem_mem hj)

/-- **Covering.** A nested query lies in one of the groups. -/
theorem exists_mem_collect (sql : List Char) (before : List Token)
    (hT : Located (front ++ l :: (body ++ r :: rest)))
    (horder : Consecutive (front ++ l :: (body ++ r :: rest))) (hquery : IsNestedQuery l body r) :
    ∃ g ∈ collect sql before 0 (front ++ l :: (body ++ r :: rest)),
      g.start ≤ l.start ∧ r.stop ≤ g.stop := by
  obtain ⟨hdeeper, hdepth⟩ := hT.right.group hquery.lparen hquery.balanced hquery.rparen
  induction hn : front.length using Nat.strongRecOn generalizing front before with
  | ind n ih =>
  subst hn
  cases front with
  | nil =>
    rw [List.nil_append, collect_cons, if_pos (hquery.opensBefore rest)]
    refine ⟨_, List.mem_cons_self, Nat.le_refl _, ?_⟩
    simp only [openedBy, closer, closing?_group hdeeper hquery.rparen hdepth]
    simp [List.getD]
  | cons a front =>
    have hle : a.start ≤ l.start := by
      have hlt := horder.start_lt a List.mem_cons_self
      have := (List.pairwise_cons.mp horder.stop_le).1 l (by simp)
      omega
    rw [List.cons_append, collect_cons]
    split
    next hopens =>
      have hlparen : a.kind = .lparen := by
        simp only [opensBefore, Bool.and_eq_true, beq_iff_eq] at hopens
        exact hopens.1
      cases hclose : closing? a.depth front with
      | some j =>
        have hsize : size a (front ++ l :: (body ++ r :: rest)) = j + 1 := by
          rw [size, closing?, List.findIdx?_append, ← closing?, hclose]
          rfl
        obtain ⟨hj, -⟩ := List.findIdx?_eq_some_iff_getElem.mp hclose
        have hsplit : front ++ l :: (body ++ r :: rest) =
            front.take (j + 1) ++ (front.drop (j + 1) ++ l :: (body ++ r :: rest)) := by
          rw [← List.append_assoc, List.take_append_drop]
        rw [hsize, List.drop_append_of_le_length hj]
        have hlt : (front.drop (j + 1)).length < (a :: front).length := by
          simp only [List.length_drop, List.length_cons]
          omega
        have hlocated : Located (front ++ l :: (body ++ r :: rest)) := hT.tail
        rw [hsplit] at hlocated
        have hsub : List.Sublist (front.drop (j + 1) ++ l :: (body ++ r :: rest))
            (a :: front ++ l :: (body ++ r :: rest)) :=
          ((List.drop_sublist (j + 1) front).append (List.Sublist.refl _)).cons a
        obtain ⟨g, hg, hbounds⟩ := ih _ hlt _ hlocated.right (horder.sublist hsub) rfl
        exact ⟨g, List.mem_cons_of_mem _ hg, hbounds⟩
      | none =>
        -- the parenthesis is open at the nested query, which has no token as shallow as it
        have hopen : closeOf 0 front = none := by
          rw [← (Located.left hT).closing?_eq hlparen, hclose]
        have hlt := Located.lt_depth hT hlparen (closeOf_concat hopen (by simp [hquery.lparen]))
        have hnone : closing? a.depth (front ++ l :: body ++ [r]) = none := by
          rw [List.append_assoc, closing?_append_eq _ _ _ hclose, closing?_eq_none_of_deeper]
          · rfl
          · intro t ht
            simp only [List.cons_append, List.mem_cons, List.mem_append, List.not_mem_nil,
              or_false] at ht
            rcases ht with rfl | ht | rfl
            · exact hlt
            · exact Nat.lt_trans hlt (hdeeper t ht)
            · exact hdepth ▸ hlt
        have hsplit : front ++ l :: (body ++ r :: rest) = front ++ l :: body ++ r :: rest := by simp
        refine ⟨_, List.mem_cons_self, hle, ?_⟩
        rw [hsplit]
        refine stop_le_stop_closer ?_ hnone
        exact hsplit ▸ horder.sublist (List.sublist_cons_self _ _)
    next =>
      exact ih _ (Nat.lt_succ_self _) _ hT.tail (horder.sublist (List.sublist_cons_self _ _)) rfl

end Group

/-- The places inside a nested query are covered by the groups of the text. -/
theorem covers_groups {query : Query} (hT : tokenize query.sql = front ++ l :: (body ++ r :: rest))
    (hquery : IsNestedQuery l body r) (hlt : l.start < t.start) (hlt' : t.start < r.start) :
    Group.covers query.groups t = true := by
  have hlocated := located_statementTokens query.sql
  have horder := consecutive_statementTokens query.sql
  have hr : r.kind ≠ .semicolon := by
    rw [hquery.rparen]
    decide
  have hS : statementTokens query.sql =
      front ++ l :: (body ++ r :: (rest.reverse.dropWhile (·.kind == .semicolon)).reverse) := by
    have := dropSemicolons_append hr (front ++ l :: body) rest
    rw [statementTokens, hT]
    simpa using this
  have hrstop : r.start < r.stop := (consecutive_tokenize query.sql).start_lt r (by rw [hT]; simp)
  rw [hS] at hlocated horder
  obtain ⟨g, hg, hstart, hstop⟩ :=
    Group.exists_mem_collect query.sql.toList [] hlocated horder hquery
  rw [Group.covers, List.any_eq_true]
  refine ⟨g, ?_, ?_⟩
  · rw [Query.groups, Group.ofTokens, hS]
    exact hg
  · simp only [Bool.and_eq_true, decide_eq_true_eq]
    omega

/-- Text for the place between the parentheses of a nested query: a query whose parentheses match
and whose strings, quoted names and comments are complete. -/
structure IsNestedText (y : List Char) : Prop where
  nested : (tokenize (String.ofList y)).head?.any (·.isKeyword Keyword.nested) = true
  balanced : nesting 0 (tokenize (String.ofList y)) = some 0
  complete : Piece.IsComplete y

/-- The joins of a text find their conditions nowhere between two places. -/
def JoinsAvoid (sql : String) (a b : Nat) : Prop :=
  ∀ t ∈ joinMarks (statementTokens sql), ¬ (a < t.start ∧ t.start < b)

instance (sql : String) (a b : Nat) : Decidable (JoinsAvoid sql a b) :=
  inferInstanceAs (Decidable (∀ t ∈ joinMarks (statementTokens sql), _))

/-- **Around a nested query.** Queries whose tokens differ inside a nested query at most, apart from
their places, say the same. -/
theorem Clauses.agree_around (catalog : Catalog) (splitOr : Bool) {query query' : Query}
    (htable : query.table = query'.table) (hfields : query.fields = query'.fields)
    (hT : tokenize query.sql = front ++ l :: (body ++ r :: rest))
    (hT' : tokenize query'.sql = front' ++ l' :: (body' ++ r' :: rest'))
    (hquery : IsNestedQuery l body r) (hquery' : IsNestedQuery l' body' r')
    (hfront : front.map lexeme = front'.map lexeme)
    (hrest : (l :: r :: rest).map lexeme = (l' :: r' :: rest').map lexeme)
    (hclosed : closesAll (l :: (body ++ r :: rest)) front = true)
    (hjoins : JoinsAvoid query.sql l.start r.start)
    (hjoins' : JoinsAvoid query'.sql l'.start r'.start) :
    Agree (query.parse catalog splitOr).clauses (query'.parse catalog splitOr).clauses := by
  have horder := consecutive_tokenize query.sql
  have horder' := consecutive_tokenize query'.sql
  have hlocated := located_tokenize query.sql
  have hlocated' := located_tokenize query'.sql
  rw [hT] at horder hlocated
  rw [hT'] at horder' hlocated'
  -- around the nested query the tokens are twins
  have outside (front body rest : List Token) (l r : Token) :
      List.Sublist (front ++ l :: r :: rest) (front ++ l :: (body ++ r :: rest)) :=
    (List.Sublist.refl front).append ((List.sublist_append_right body _).cons_cons l)
  have houter := horder.sublist (outside front body rest l r)
  have houter' := horder'.sublist (outside front' body' rest' l' r')
  have hR := ordered_aligned houter houter'
  have htwins := twins_of_lexemes houter houter' (by
    rw [List.map_append, List.map_append, hfront, hrest])
  generalize Aligned (front ++ l :: r :: rest) (front' ++ l' :: r' :: rest') = R at hR htwins
  obtain ⟨front₁, after, hsplit, htwins₁, hafter⟩ := exists_of_forall₂_append htwins
  obtain ⟨rfl, rfl⟩ := List.append_inj hsplit.symm (by
    rw [← htwins₁.length_eq]
    simpa using congrArg List.length hfront)
  obtain ⟨hl, hafter⟩ := List.forall₂_cons.mp hafter
  obtain ⟨hr, hafter⟩ := List.forall₂_cons.mp hafter
  -- the tokens inside are hidden
  have inside {front body rest : List Token} {l r : Token} (hquery : IsNestedQuery l body r)
      (hlocated : Located (front ++ l :: (body ++ r :: rest)))
      (horder : Consecutive (front ++ l :: (body ++ r :: rest))) :
      Hidden (fun t => l.start < t.start ∧ t.start < r.start) l.depth body := by
    refine ⟨hquery.nested, (hlocated.right.group hquery.lparen hquery.balanced hquery.rparen).1, ?_⟩
    intro t ht
    have hle := (List.pairwise_append.mp horder.stop_le).2.1
    obtain ⟨hfirst, hle⟩ := List.pairwise_cons.mp hle
    have hlast := (List.pairwise_append.mp hle).2.2 t ht r List.mem_cons_self
    have hstop := hfirst t (List.mem_append_left _ ht)
    have hlt := horder.start_lt l (by simp)
    have hlt' := horder.start_lt t (by simp [ht])
    omega
  have halike := Alike.of_hidden (s := .mixed) (by decide) hlocated hquery.balanced
    (Alike.around_of_twins hlocated.right hquery.lparen hquery.balanced hquery.rparen hl hr)
    (inside hquery hlocated horder) (inside hquery' hlocated' horder') htwins₁ hafter hclosed
    (absurd · (by decide))
  rw [← hT, ← hT'] at halike
  have hstatement := halike.dropSemicolons
  rw [Query.clauses_parse, Query.clauses_parse]
  refine agree_of_matches hR (matches_ofTokens splitOr hfields htable hstatement hjoins hjoins'
    (fun t t' => Group.covers_of_matches hR (Group.matches_collect hstatement _ _ _ _))
    (fun t ht => covers_groups hT hquery ht.1 ht.2)
    (fun t ht => covers_groups hT' hquery' ht.1 ht.2))

/-- **Nested text is not read.** For a query whose text has a nested query, other text in its place
changes nothing of what the clauses around it say. The parentheses before it are closed, and in
neither text a join finds its condition inside it. -/
theorem nested_text_unread (catalog : Catalog) (splitOr : Bool) {query : Query} {y : List Char}
    (hT : tokenize query.sql = front ++ l :: (body ++ r :: rest)) (hquery : IsNestedQuery l body r)
    (hclosed : closesAll (l :: (body ++ r :: rest)) front = true) (hy : IsNestedText y)
    (hjoins : JoinsAvoid query.sql l.start r.start)
    (hjoins' : JoinsAvoid (graft query.sql l r y) l.start (l.stop + y.length)) :
    Clauses.Agree (query.parse catalog splitOr).clauses
      (Query.parse catalog splitOr { query with sql := graft query.sql l r y }).clauses := by
  have htokens : tokenize (String.ofList y) = locate 0 0 (Piece.ofText y) := by
    rw [tokenize, String.toList_ofList]
  obtain ⟨hnested, hbalanced, hcomplete⟩ := hy
  rw [htokens] at hnested hbalanced
  obtain ⟨r', rest', hT', hlexemes, hstart⟩ :=
    tokenize_graft hT hquery.lparen hquery.balanced hquery.rparen hcomplete hbalanced
  have hgraft : tokenize ({ query with sql := graft query.sql l r y } : Query).sql = _ := hT'
  refine Clauses.agree_around catalog splitOr rfl rfl hT hgraft hquery
    ⟨hquery.lparen, ?_, ?_, ?_⟩ rfl ?_ hclosed hjoins (hstart ▸ hjoins')
  · rw [List.head?_map, Option.any_map]
    exact hnested
  · rw [← hbalanced]
    refine nesting_congr ?_ 0
    rw [List.map_map]
    rfl
  · have : r'.kind = r.kind := congrArg Prod.fst (List.cons.inj hlexemes).1
    rw [this, hquery.rparen]
  · exact congrArg (lexeme l :: ·) hlexemes.symm

/-- Orders in one of the states of a list. -/
def listedOrders : Query where
  table := "orders"
  fields := ["user_id", "status"]
  sql := "SELECT * FROM orders o JOIN users u ON u.id = user_id WHERE status IN (SELECT s FROM t)"

/-- The list of states may come from any other query, even from one that joins on a column of the
same name. -/
theorem listedOrders_nested_unread :
    let tokens := tokenize listedOrders.sql
    let l : Token := ⟨.lparen, "(", 70, 71, 0⟩
    let r : Token := ⟨.rparen, ")", 86, 87, 0⟩
    let y := "SELECT ')' FROM t JOIN p USING (user_id) -- any\n".toList
    tokens = tokens.take 17 ++ l :: ((tokens.drop 18).take 4 ++ r :: tokens.drop 23) ∧
      IsNestedQuery l ((tokens.drop 18).take 4) r ∧ IsNestedText y ∧
      JoinsAvoid listedOrders.sql l.start r.start ∧
      JoinsAvoid (graft listedOrders.sql l r y) l.start (l.stop + y.length) ∧
      Clauses.Agree (listedOrders.parse [] true).clauses
        (Query.parse [] true
          { listedOrders with sql := graft listedOrders.sql l r y }).clauses := by
  intro tokens l r y
  obtain ⟨hT, hnested, hbalanced, hclosed, hjoins⟩ :
      tokens = tokens.take 17 ++ l :: ((tokens.drop 18).take 4 ++ r :: tokens.drop 23) ∧
        ((tokens.drop 18).take 4).head?.any (·.isKeyword Keyword.nested) = true ∧
        nesting 0 ((tokens.drop 18).take 4) = some 0 ∧
        closesAll (l :: ((tokens.drop 18).take 4 ++ r :: tokens.drop 23)) (tokens.take 17) = true ∧
        JoinsAvoid listedOrders.sql l.start r.start := by
    decide +kernel
  have hquery : IsNestedQuery l ((tokens.drop 18).take 4) r := ⟨rfl, hnested, hbalanced, rfl⟩
  have hy : IsNestedText y := ⟨by decide +kernel, by decide +kernel, by decide +kernel⟩
  have hjoins' : JoinsAvoid (graft listedOrders.sql l r y) l.start (l.stop + y.length) := by
    rw [JoinsAvoid, statementTokens, tokenize, graft, String.toList_ofList]
    decide +kernel
  exact ⟨hT, hquery, hy, hjoins, hjoins',
    nested_text_unread [] true hT hquery hclosed hy hjoins hjoins'⟩

/-- Orders joined with the elements of an array. -/
def arrayJoin : Query where
  table := "orders"
  fields := ["user_id", "status"]
  sql := "SELECT * FROM orders o JOIN unnest(ARRAY(SELECT s.id FROM s)) u ON u.id = o.user_id"

/-- A join takes its condition from a nested query that stands before it: with another query in the
array, the orders are joined on another column. -/
theorem arrayJoin_nested_read :
    let tokens := tokenize arrayJoin.sql
    let l : Token := ⟨.lparen, "(", 40, 41, 1⟩
    let r : Token := ⟨.rparen, ")", 59, 60, 1⟩
    let y := "SELECT s.id FROM s JOIN z USING (status)".toList
    tokens = tokens.take 9 ++ l :: ((tokens.drop 10).take 6 ++ r :: tokens.drop 17) ∧
      IsNestedQuery l ((tokens.drop 10).take 6) r ∧ IsNestedText y ∧
      (Candidate.ofClauses (.of .postgres none)
          (arrayJoin.parse [] true).clauses).map Candidate.columns = [["user_id"]] ∧
      (Candidate.ofClauses (.of .postgres none) (Query.parse [] true
          { arrayJoin with sql := graft arrayJoin.sql l r y }).clauses).map Candidate.columns =
        [["status"]] := by
  intro tokens l r y
  have hquery : IsNestedQuery l ((tokens.drop 10).take 6) r :=
    ⟨rfl, by decide +kernel, by decide +kernel, rfl⟩
  have hy : IsNestedText y := ⟨by decide +kernel, by decide +kernel, by decide +kernel⟩
  exact ⟨by decide +kernel, hquery, hy, by decide +kernel, by decide +kernel⟩

/-- Where two parentheses before a nested query are never closed, the last one of the text counts as
theirs, and what is left of the condition depends on how many the nested query has. -/
example :
    let keys (sql : String) := (Candidate.ofClauses (.of .postgres none)
      (Query.parse [] true { table := "t", fields := ["a", "b"], sql }).clauses).map
        Candidate.columns
    keys "((a = 1 AND b IN (SELECT x)" = [[]] ∧
      keys "((a = 1 AND b IN (SELECT f(x))" = [["a", "b"]] := by
  decide +kernel

end IndexAdvice
