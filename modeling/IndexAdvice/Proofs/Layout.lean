import IndexAdvice.Proofs.AlignedTokens
import IndexAdvice.Proofs.Deduplication
import IndexAdvice.Proofs.Records

/-!
# Layout does not matter

Texts with the same tokens have groups with the same tokens (`Group.sameTokens_collect`), and so on
inside their nested queries. So all that is read in them, at any nesting, is the same up to the
places where it stands, and places matter through their order alone. The main result
`layout_insensitive` is about a text and its tokens one space apart.
-/

namespace IndexAdvice

open Token

variable {R : Nat → Nat → Prop} {H H' : Token → Prop} {s : Likeness} {t t' : Token}
  {ts ts' rest rest' semis semis' : List Token}

/-- Where no nested query differs, no token is hidden. -/
theorem alike_of_twins (h : List.Forall₂ (Twin R) ts ts') :
    Alike R (fun _ => False) (fun _ => False) .plain ts ts' :=
  .of_forall₂ h

/-! ### Statements -/

/-- Without semicolons at their ends alike tokens are alike. -/
theorem Token.Alike.dropSemicolons (h : Alike R H H' s ts ts') :
    Alike R H H' s (ts.reverse.dropWhile (·.kind == .semicolon)).reverse
      (ts'.reverse.dropWhile (·.kind == .semicolon)).reverse := by
  induction ts using List.reverseRecOn generalizing ts' with
  | nil =>
    rw [h.nil_iff.mp rfl]
    exact .nil
  | append_singleton ts t ih =>
    obtain ⟨us, t', rfl, htwin, hfront⟩ := h.exists_concat
    rw [List.reverse_append, List.reverse_append, List.reverse_singleton, List.reverse_singleton,
      List.singleton_append, List.singleton_append, List.dropWhile_cons, List.dropWhile_cons,
      ← htwin.kind]
    split
    next hkind =>
      refine ih (hfront ?_)
      rw [beq_iff_eq.mp hkind]
      decide
    next => simpa using h

/-- Texts with twins as tokens have twins in their statements, and as many semicolons after them. -/
theorem exists_semicolons_of_twins {sql sql' : String}
    (h : List.Forall₂ (Twin R) (tokenize sql) (tokenize sql')) :
    ∃ semis semis', tokenize sql = statementTokens sql ++ semis ∧
      tokenize sql' = statementTokens sql' ++ semis' ∧ (∀ s ∈ semis, s.kind = .semicolon) ∧
      (∀ s ∈ semis', s.kind = .semicolon) ∧
      List.Forall₂ (Twin R) (statementTokens sql) (statementTokens sql') ∧
      List.Forall₂ (Twin R) semis semis' := by
  obtain ⟨semis, hsemis, hsplit⟩ := statementTokens_append sql
  obtain ⟨semis', hsemis', hsplit'⟩ := statementTokens_append sql'
  have hstatement : List.Forall₂ (Twin R) (statementTokens sql) (statementTokens sql') :=
    (alike_of_twins h).dropSemicolons.forall₂
  refine ⟨semis, semis', hsplit, hsplit', hsemis, hsemis', hstatement, ?_⟩
  have hdrop := List.forall₂_drop (statementTokens sql).length h
  rwa [hsplit, hsplit', List.drop_left, List.drop_left' hstatement.length_eq.symm] at hdrop

/-! ### Groups -/

namespace Group

/-- The clause around a group is found among the same tokens. -/
theorem enclosingClause_of_twins (h : List.Forall₂ (Twin R) ts ts') (depth : Nat) :
    enclosingClause depth ts = enclosingClause depth ts' := by
  induction h with
  | nil => rfl
  | cons htwin _ ih =>
    rw [enclosingClause, enclosingClause, htwin.depth, htwin.isKeyword, htwin.upper, ih]

/-- So is the kind of place that a nested query stands in. -/
theorem originAfter_of_twins (h : List.Forall₂ (Twin R) ts ts') (depth : Nat) :
    originAfter depth ts = originAfter depth ts' := by
  have hclause := enclosingClause_of_twins h depth
  cases h with
  | nil => rfl
  | cons htwin hrest =>
    simp only [originAfter, htwin.isKeyword, htwin.kind, hclause]

theorem inside_of_twins (ht : Twin R t t') (h : List.Forall₂ (Twin R) rest rest')
    (hsemis : List.Forall₂ (Twin R) semis semis') :
    List.Forall₂ (Twin R) (inside t rest semis) (inside t' rest' semis') := by
  have hlast : rest.getLast?.any (·.kind == .rparen) = rest'.getLast?.any (·.kind == .rparen) := by
    rw [← List.head?_reverse, ← List.head?_reverse]
    have := List.forall₂_reverse_iff.mpr h
    revert this
    generalize rest.reverse = us, rest'.reverse = us'
    rintro (_ | ⟨htwin, _⟩)
    · rfl
    · simp [htwin.kind]
  rw [inside, inside, Alike.closing?_eq h, ht.depth, hlast]
  cases closing? t'.depth rest' with
  | some j => exact List.forall₂_take j h
  | none =>
    simp only
    split
    · rw [List.dropLast_eq_take, List.dropLast_eq_take, h.length_eq]
      exact List.forall₂_take _ h
    · exact List.rel_append h hsemis

/-- Groups of two texts at one kind of place and with the same tokens. -/
structure SameTokens (g g' : Group) : Prop where
  origin : g.origin = g'.origin
  lexemes : (tokenize (String.ofList g.sql)).map lexeme =
    (tokenize (String.ofList g'.sql)).map lexeme

/-- Twins have the same kind, text and depth. -/
theorem map_lexeme_of_twins (h : List.Forall₂ (Twin R) ts ts') :
    ts.map lexeme = ts'.map lexeme :=
  map_eq_of_forall₂ h fun t t' htwin => by
    rw [lexeme, lexeme, htwin.kind, htwin.text, htwin.depth]

/-- Twins open groups with the same tokens. -/
theorem sameTokens_openedBy {sql sql' : String} {pre pre' : List Token}
    (hT : tokenize sql = pre ++ t :: (rest ++ semis))
    (hT' : tokenize sql' = pre' ++ t' :: (rest' ++ semis'))
    (hkinds : ∀ s ∈ semis, s.kind = .semicolon) (hkinds' : ∀ s ∈ semis', s.kind = .semicolon)
    (ht : opensBefore t rest = true) (hpre : List.Forall₂ (Twin R) pre pre') (htwin : Twin R t t')
    (hrest : List.Forall₂ (Twin R) rest rest') (hsemis : List.Forall₂ (Twin R) semis semis') :
    SameTokens (openedBy sql.toList pre.reverse t rest)
      (openedBy sql'.toList pre'.reverse t' rest') := by
  have ht' : opensBefore t' rest' = true := by
    rw [← opensBefore_of_alike htwin (alike_of_twins hrest)]
    exact ht
  refine ⟨?_, ?_⟩
  · rw [openedBy, openedBy, htwin.depth]
    exact originAfter_of_twins (List.forall₂_reverse_iff.mpr hpre) _
  · rw [lexemes_openedBy hT hkinds ht, lexemes_openedBy hT' hkinds' ht', htwin.depth,
      ← List.map_map, ← List.map_map, map_lexeme_of_twins (inside_of_twins htwin hrest hsemis)]

/-- **Groups** of texts with the same tokens have the same tokens. -/
theorem sameTokens_collect {sql sql' : String} (hkinds : ∀ s ∈ semis, s.kind = .semicolon)
    (hkinds' : ∀ s ∈ semis', s.kind = .semicolon) (hsemis : List.Forall₂ (Twin R) semis semis')
    (pre pre' : List Token) (hpre : List.Forall₂ (Twin R) pre pre')
    (h : List.Forall₂ (Twin R) ts ts') (hT : tokenize sql = pre ++ (ts ++ semis))
    (hT' : tokenize sql' = pre' ++ (ts' ++ semis')) :
    List.Forall₂ SameTokens (collect sql.toList pre.reverse 0 ts)
      (collect sql'.toList pre'.reverse 0 ts') := by
  induction hn : ts.length using Nat.strongRecOn generalizing pre pre' ts ts' with
  | ind n ih =>
  subst hn
  cases h with
  | nil => exact .nil
  | @cons t t' rest rest' htwin hrest =>
    have hopens : opensBefore t' rest' = opensBefore t rest :=
      (opensBefore_of_alike htwin (alike_of_twins hrest)).symm
    rw [collect_cons, collect_cons, hopens, ← size_of_twins htwin hrest]
    split
    next ht =>
      -- the group is collected, and its tokens join those before
      refine .cons (sameTokens_openedBy hT hT' hkinds hkinds' ht hpre htwin hrest hsemis) ?_
      generalize size t rest = n
      have hbefore (pre : List Token) (t : Token) (rest : List Token) :
          (rest.take n).reverse ++ t :: pre.reverse = (pre ++ t :: rest.take n).reverse := by
        simp
      have hsplit (pre rest semis : List Token) (t : Token) :
          pre ++ (t :: rest ++ semis) = pre ++ t :: rest.take n ++ (rest.drop n ++ semis) := by
        rw [List.append_assoc, List.cons_append, List.cons_append,
          ← List.append_assoc (rest.take n), List.take_append_drop]
      rw [hbefore, hbefore]
      refine ih _ ?_ _ _ (List.rel_append hpre (.cons htwin (List.forall₂_take n hrest)))
        (List.forall₂_drop n hrest) ?_ ?_ rfl
      · rw [List.length_drop, List.length_cons]
        omega
      · rw [hT, hsplit]
      · rw [hT', hsplit]
    next =>
      have hbefore (pre : List Token) (t : Token) : t :: pre.reverse = (pre ++ [t]).reverse := by
        simp
      rw [hbefore, hbefore]
      refine ih _ (Nat.lt_succ_self _) _ _ (List.rel_append hpre (.cons htwin .nil)) hrest ?_ ?_ rfl
      · rw [hT]
        simp
      · rw [hT']
        simp

end Group

/-! ### Queries -/

theorem primaryTable?_of_twins (h : List.Forall₂ (Twin R) ts ts') :
    primaryTable? ts = primaryTable? ts' := by
  induction h with
  | nil => rfl
  | cons htwin hrest ih =>
    rw [primaryTable?, primaryTable?, htwin.depth, htwin.isKeyword, ih]
    rcases ColumnRef.read?_of_alike (alike_of_twins hrest) with
      ⟨hnone, hnone'⟩ | ⟨ref, after, after', hsome, hsome', -⟩
    · rw [hnone, hnone']
    · rw [hsome, hsome']

/-- Texts with the same tokens have twins as tokens. -/
theorem twins_tokenize {sql sql' : String}
    (h : (tokenize sql).map lexeme = (tokenize sql').map lexeme) :
    List.Forall₂ (Twin (Aligned (tokenize sql) (tokenize sql'))) (tokenize sql) (tokenize sql') :=
  twins_of_lexemes (consecutive_tokenize sql) (consecutive_tokenize sql') h

/-- Queries that differ in the layout of their text at most. -/
structure Query.SameTokens (query query' : Query) : Prop where
  table : query.table = query'.table
  fields : query.fields = query'.fields
  origin : query.origin = query'.origin
  isNested : query.isNested = query'.isNested
  lexemes : (tokenize query.sql).map lexeme = (tokenize query'.sql).map lexeme

/-- What two queries say alike, read by themselves or for their table. -/
structure SameReading (record record' : Query × Clauses) : Prop where
  table : record.1.table = record'.1.table
  fields : record.1.fields = record'.1.fields
  origin : record.1.origin = record'.1.origin
  isNested : record.1.isNested = record'.1.isNested
  clauses : Clauses.Agree record.2 record'.2

namespace Query.SameTokens

variable {query query' : Query}

/-- Queries with the same tokens have the same groups. -/
theorem groups (h : SameTokens query query') :
    List.Forall₂ Group.SameTokens query.groups query'.groups := by
  obtain ⟨semis, semis', hT, hT', hkinds, hkinds', hstatement, hsemis⟩ :=
    exists_semicolons_of_twins (twins_tokenize h.lexemes)
  exact Group.sameTokens_collect hkinds hkinds' hsemis [] [] .nil hstatement hT hT'

/-- The queries nested in them have the same tokens again. -/
theorem ofGroup (h : SameTokens query query') {g g' : Group} (hg : Group.SameTokens g g')
    (catalog : Catalog) : SameTokens (g.query catalog query) (g'.query catalog query') := by
  have htable : primaryTable? (tokenize (String.ofList g.sql)) =
      primaryTable? (tokenize (String.ofList g'.sql)) :=
    primaryTable?_of_twins (twins_tokenize hg.lexemes)
  refine ⟨?_, ?_, ?_, rfl, hg.lexemes⟩
  · simp only [Group.query, Query.nestedIn, htable, h.table]
  · simp only [Group.query, Query.nestedIn, htable, h.table, h.fields]
  · simp only [Group.query, Query.nestedIn, hg.origin]

/-- Their clauses agree, since these depend on the tokens and their order. -/
theorem clauses (h : SameTokens query query') (catalog : Catalog) (splitOr : Bool) :
    Clauses.Agree (query.parse catalog splitOr).clauses (query'.parse catalog splitOr).clauses := by
  have htwins := twins_tokenize h.lexemes
  have hR := ordered_aligned (consecutive_tokenize query.sql) (consecutive_tokenize query'.sql)
  obtain ⟨-, -, -, -, -, -, hstatement, -⟩ := exists_semicolons_of_twins htwins
  have halike := alike_of_twins hstatement
  rw [Query.clauses_parse, Query.clauses_parse]
  refine Clauses.agree_of_matches hR (Clauses.matches_ofTokens splitOr h.fields h.table halike
    (fun _ _ => id) (fun _ _ => id) (fun t t' => ?_) (fun _ => False.elim) (fun _ => False.elim))
  exact Group.covers_of_matches hR (Group.matches_collect halike _ _ _ _)

/-- Their nested queries are read alike, down to every level. -/
theorem records (h : SameTokens query query') (catalog : Catalog) (splitOr : Bool) :
    List.Forall₂ SameReading (query.records catalog splitOr) (query'.records catalog splitOr) := by
  induction query using Query.nestedInduction catalog generalizing query' with
  | step query ih =>
    rw [Query.records_eq, Query.records_eq]
    refine .cons ⟨h.table, h.fields, h.origin, h.isNested, h.clauses catalog splitOr⟩ ?_
    exact forall₂_flatMap h.groups fun g hg g' hsame => ih g hg (h.ofGroup hsame catalog)

end Query.SameTokens

/-- The query with nothing but one space between the tokens of its text. -/
def Query.respaced (query : Query) : Query :=
  { query with sql := IndexAdvice.respaced query.sql }

/-- Respacing a query keeps its tokens. -/
theorem Query.sameTokens_respaced (query : Query) : SameTokens query query.respaced :=
  ⟨rfl, rfl, rfl, rfl, (lexemes_respaced query.sql).symm⟩

/-! ### Advice -/

namespace Advice

variable {records records' : List (Query × Clauses)}

/-- Records that are read alike offer the same keys. -/
theorem map_key_ofRecord (target : Target) (table : String) {record record' : Query × Clauses}
    (h : SameReading record record') :
    (Offer.ofRecord target table record).map Offer.key =
      (Offer.ofRecord target table record').map Offer.key := by
  have hoffers (query : Query) (candidates : List Candidate) :
      (candidates.flatMap (Offer.ofCandidate table query)).map Offer.key =
        (candidates.map Candidate.columns).flatMap fun columns =>
          if columns.isEmpty then [] else [(table, columns)] := by
    rw [List.map_flatMap, List.flatMap_map]
    refine List.flatMap_congr fun c _ => ?_
    simp only [Offer.ofCandidate, Candidate.columns, List.isEmpty_map]
    split <;> rfl
  rw [Offer.ofRecord, Offer.ofRecord, h.fields]
  split
  · rfl
  · rw [hoffers, hoffers, h.clauses.columns]

/-- Queries that say the same are filed under the same tables. -/
theorem tableOf_of_sameReading (target : Target) (h : List.Forall₂ SameReading records records') :
    ∀ record record', SameReading record record' →
      tableOf target records record = tableOf target records' record' := by
  have hsubjects : subjects records = subjects records' := by
    have hnested : List.Forall₂ SameReading (records.filter (!·.1.isNested))
        (records'.filter (!·.1.isNested)) := by
      refine List.rel_filter (fun record record' hrecord => ?_) h
      simp only [hrecord.isNested]
    rw [subjects, subjects, map_eq_of_forall₂ hnested fun _ _ h => h.table]
  intro record record' hrecord
  rw [tableOf, tableOf, filedUnder, filedUnder, hsubjects, hrecord.table]

/-- **The same keys** are recommended for queries that say the same. -/
theorem map_key_recommendations_of_sameReading (target : Target)
    (h : List.Forall₂ SameReading records records') :
    (ofRecords target records).recommendations.map Recommendation.key =
      (ofRecords target records').recommendations.map Recommendation.key := by
  have htable := tableOf_of_sameReading target h
  have htables : tables target records = tables target records' := by
    rw [tables, tables, map_eq_of_forall₂ h htable]
  rw [map_key_recommendations, map_key_recommendations, offers, offers, htables, List.map_flatMap,
    List.map_flatMap]
  refine congrArg List.eraseDups (List.flatMap_congr fun table _ => ?_)
  have hat : List.Forall₂ SameReading (recordsAt target records table)
      (recordsAt target records' table) := by
    refine List.rel_filter (fun record record' hrecord => ?_) h
    simp only [htable record record' hrecord]
  rw [List.map_flatMap, List.map_flatMap]
  exact flatMap_eq_of_forall₂ hat fun _ _ => map_key_ofRecord target table

end Advice

/-- **Layout does not matter.** With nothing but one space between its tokens, a query text has the
same tokens, up to where they stand. The records of the query agree one by one: on table, columns
and origin, on the key columns of all candidates for every target database, and on what every
predicate restricts and how. And an analysis of any queries recommends the same keys. -/
theorem layout_insensitive (catalog : Catalog) (splitOr : Bool) :
    (∀ query : Query,
      (tokenize query.respaced.sql).map lexeme = (tokenize query.sql).map lexeme ∧
        List.Forall₂ SameReading (query.records catalog splitOr)
          (query.respaced.records catalog splitOr)) ∧
      ∀ (target : Target) (queries : List Query),
        (Advice.ofRecords target (queries.flatMap
            (Query.records catalog splitOr))).recommendations.map Recommendation.key =
          (Advice.ofRecords target ((queries.map Query.respaced).flatMap
            (Query.records catalog splitOr))).recommendations.map Recommendation.key := by
  have hrecords (query : Query) := query.sameTokens_respaced.records catalog splitOr
  refine ⟨fun query => ⟨lexemes_respaced query.sql, hrecords query⟩, fun target queries => ?_⟩
  refine Advice.map_key_recommendations_of_sameReading target ?_
  induction queries with
  | nil => exact .nil
  | cons query queries ih =>
    rw [List.map_cons, List.flatMap_cons, List.flatMap_cons]
    exact List.rel_append (hrecords query) ih

end IndexAdvice
