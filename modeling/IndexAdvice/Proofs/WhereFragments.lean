import IndexAdvice.Proofs.LowerCase
import IndexAdvice.Proofs.PrintedTokens
import IndexAdvice.Proofs.WhereKept

/-!
# Fragments of a `WHERE` clause

A condition may be given with or without the statement around it. The two texts are divided in
different ways, the fragment with an implicit `WHERE`, and names are resolved in different ways, by
the variants of the subject or by the table after `FROM`. Still both give the same keys and the same
predicates (`fragment_same_keys`), since a table named like the subject brings in no qualifier that
the variants do not give (`Scope.ownNames_of_variant`).
-/

namespace IndexAdvice

open Text Token

variable {a : Nat} {t w : Token} {before : Option Token} {held rest ts ts' : List Token}

/-! ### Fragments -/

/-- Whether a token is a `FROM` outside parentheses that opens a clause, where `before` is the token
before it. -/
def Token.namesTables (before : Option Token) (t : Token) : Bool :=
  t.depth == 0 && t.isKeyword ["FROM"] && !before.any (·.isKeyword ["DISTINCT"])

/-- Whether `FROM` stands outside parentheses only in `DISTINCT FROM`, where `before` is the token
before the others. -/
def Token.namesNoTable (before : Option Token) : List Token → Bool
  | [] => true
  | t :: rest => !namesTables before t && namesNoTable (some t) rest

/-- Tokens that are the condition of a statement, with what may follow it. -/
structure Token.IsFragment (ts : List Token) : Prop where
  /-- They start neither with a keyword of whole statements nor with `WHERE`. -/
  bare : ∀ t ∈ ts.head?, t.isKeyword ("WHERE" :: Keyword.statement) = false
  /-- They name no table after `FROM`. -/
  unnamed : namesNoTable none ts = true

namespace Span

variable {keyword : String} {phase : Phase} {span : Span}

/-- Whether a clause lists tables. -/
def ListsTables (keyword : String) : Prop :=
  keyword = "FROM" ∨ keyword = "UPDATE"

/-- What is known about the opening of a token that names no tables. -/
def Opening.ListsNone : Opening → Prop
  | .pair next | .clause next => ¬ ListsTables next
  | _ => True

/-- A token that names no table source opens no clause that lists tables. -/
theorem opening_listsNone (h : namesTables before t = false) (rest : List Token) :
    (opening before t rest).ListsNone := by
  rw [opening]
  split
  · trivial
  · rename_i hword
    simp only [Bool.or_eq_true, bne_iff_ne, not_or, not_not] at hword
    split
    · trivial
    · split
      · -- a pair has a blank in it, unlike the keywords that list tables
        rename_i hpair
        have hblank := blank_mem_of_pair? hpair
        rintro (heq | heq)
        · exact absurd hblank (by rw [heq]; decide)
        · exact absurd hblank (by rw [heq]; decide)
      · split
        · trivial
        · split
          · rename_i hclause
            rw [Bool.and_eq_true, Bool.not_eq_true'] at hclause
            rintro (heq | heq)
            · have hfrom : t.isKeyword ["FROM"] = true := by simp [isKeyword, hword.2, heq]
              have hdistinct : before.any (·.isKeyword ["DISTINCT"]) = true := by
                simpa [namesTables, hword.1, hfrom] using h
              simp [heq, hdistinct] at hclause
            · exact absurd hclause.1 (by rw [heq]; decide)
          · trivial

/-- Unless one is open already, tokens that name no tables have no clause that lists tables. -/
theorem not_listsTables (hkeyword : ¬ ListsTables keyword) (h : namesNoTable before ts = true)
    (hspan : span ∈ divideFrom keyword phase before held ts) : ¬ ListsTables span.keyword := by
  induction ts generalizing keyword phase before held with
  | nil =>
    rw [List.mem_singleton.mp hspan]
    exact hkeyword
  | cons t rest ih =>
    rw [namesNoTable, Bool.and_eq_true, Bool.not_eq_true'] at h
    obtain ⟨hnone, hrest⟩ := h
    cases phase with
    | pairTail => exact ih hkeyword hrest hspan
    | joinHead => exact ih hkeyword hrest hspan
    | body =>
      have hlists := opening_listsNone hnone rest
      rw [divideFrom] at hspan
      generalize opening before t rest = o at hspan hlists
      have hfirst {next : String} {phase : Phase} {held' : List Token} (hnext : ¬ ListsTables next)
          (hspan : span ∈ ⟨keyword, held.reverse⟩ :: divideFrom next phase (some t) held' rest) :
          ¬ ListsTables span.keyword := by
        rcases List.mem_cons.mp hspan with rfl | hspan
        · exact hkeyword
        · exact ih hnext hrest hspan
      cases o with
      | nothing => exact ih hkeyword hrest hspan
      | stop =>
        rw [List.mem_singleton.mp hspan]
        exact hkeyword
      | pair next => exact hfirst hlists hspan
      | join => exact hfirst (by simp [ListsTables]) hspan
      | clause next => exact hfirst hlists hspan

/-- A fragment of conditions lists no tables. -/
theorem tokensOf_fragment (h : namesNoTable none ts = true) (hkeyword : ListsTables keyword) :
    tokensOf (divideFrom "WHERE" .body none [] ts) keyword = [] := by
  rw [tokensOf, List.map_eq_nil_iff, List.filter_eq_nil_iff]
  intro span hspan heq
  exact not_listsTables (by simp [ListsTables]) h hspan (beq_iff_eq.mp heq ▸ hkeyword)

/-- A bare text is divided as if it stood after `WHERE`; an empty one has an empty condition. -/
theorem divide_of_bare (h : ∀ t ∈ ts.head?, t.isKeyword ("WHERE" :: Keyword.statement) = false)
    (keyword : String) :
    firstOf (divide ts) keyword = firstOf (divideFrom "WHERE" .body none [] ts) keyword ∧
      (keyword ≠ "WHERE" →
        tokensOf (divide ts) keyword = tokensOf (divideFrom "WHERE" .body none [] ts) keyword) := by
  cases ts with
  | nil =>
    rw [divide, divideFrom, firstOf_cons]
    refine ⟨(ite_self []).symm, fun hkeyword => ?_⟩
    simp [tokensOf, Ne.symm hkeyword]
  | cons t rest =>
    rw [divide, if_neg (by rw [h t rfl]; exact Bool.false_ne_true)]
    exact ⟨rfl, fun _ => rfl⟩

end Span

/-! ### The whole statement -/

/-- The word before a list of tables. -/
def Word.fromWord : Word := ⟨.word, ['F', 'R', 'O', 'M'], by decide⟩

/-- The words in front of a condition that make a statement of it, with one table. -/
def Word.selectWhere (table : Word) : List Word :=
  [selectWord, starWord, fromWord, table, whereWord]

/-- The statement that has the query text as its condition and reads from one table. -/
def Query.selectWhere (table : Word) (query : Query) : Query :=
  { query with sql := "SELECT * FROM " ++ String.ofList table.text ++ " WHERE " ++ query.sql }

variable {table : Word} {query : Query}

theorem Query.selectWhere_eq (table : Word) (query : Query) :
    query.selectWhere table = query.withWords (Word.selectWhere table) := by
  have hsql : "SELECT * FROM " ++ String.ofList table.text ++ " WHERE " ++ query.sql =
      String.ofList (Word.print (Word.selectWhere table) ++ ' ' :: query.sql.toList) := by
    have hprint : Word.print (Word.selectWhere table) ++ ' ' :: query.sql.toList =
        "SELECT * FROM ".toList ++
          (table.text ++ (" WHERE".toList ++ ' ' :: query.sql.toList)) := by
      rw [← List.append_assoc, ← List.append_assoc]
      rfl
    rw [hprint, ← String.toList_inj]
    simp
  rw [selectWhere, withWords, hsql]

/-- The statement is divided into its select list, its table and the clauses of its condition. -/
theorem Query.divide_selectWhere (htable : table.kind = .word)
    (hname : upper (String.ofList table.text) ∉ Keyword.reserved ++ Keyword.clause)
    (query : Query) :
    ∃ select from_ spans', Span.divide (statementTokens (query.selectWhere table).sql) =
        ⟨"SELECT", select⟩ :: ⟨"FROM", [from_]⟩ :: spans' ∧
      from_.kind = .word ∧ from_.text = String.ofList table.text ∧
      List.Forall₂ (Span.Restated (Word.width (Word.selectWhere table)))
        (Span.divideFrom "WHERE" .body none [] (statementTokens query.sql)) spans' := by
  have hplain : ∀ w ∈ Word.selectWhere table, w.IsPlain := by
    simp [Word.selectWhere, Word.IsPlain, Word.selectWord, Word.starWord, Word.fromWord,
      Word.whereWord, htable]
  obtain ⟨ts', htokens, hrestated⟩ :=
    statementTokens_withWords (Word.selectWhere table) hplain query
  rw [← Query.selectWhere_eq] at htokens
  -- the tokens of the words that stand in front
  let select : Token := ofPiece .word ['S', 'E', 'L', 'E', 'C', 'T'] 0 0
  let star : Token := ofPiece .star ['*'] 7 0
  let fromToken : Token := ofPiece .word ['F', 'R', 'O', 'M'] 9 0
  let name : Token := ofPiece .word table.text 14 0
  let whereToken : Token := ofPiece .word ['W', 'H', 'E', 'R', 'E'] (14 + table.text.length + 1) 0
  have hfront : statementTokens (query.selectWhere table).sql =
      select :: star :: fromToken :: name :: whereToken :: ts' := by
    rw [htokens]
    obtain ⟨kind, text, whole⟩ := table
    obtain rfl : kind = .word := htable
    rfl
  have hselect : select.isKeyword ("WHERE" :: Keyword.statement) = true := by decide
  have hupper : select.upper = "SELECT" := by decide
  have hfrom : fromToken.isKeyword ["FROM"] = true := by decide
  have hwhere : whereToken.isKeyword ["WHERE"] = true := by
    rw [isKeyword_ofPiece]
    decide
  have hopens : name.upper ∉ Keyword.opening := fun h =>
    hname ((by decide : Keyword.opening ⊆ Keyword.reserved ++ Keyword.clause) h)
  refine ⟨[star], name, Span.divideFrom "WHERE" .body (some whereToken) [] ts', ?_, rfl, rfl,
    ?_⟩
  · rw [hfront, Span.divide, if_pos hselect, hupper, Span.divideFrom,
      Span.opening_eq_nothing_of_ne (.inr (by decide))]
    simp only
    rw [Span.divideFrom, Span.opening_from rfl hfrom rfl]
    simp only
    rw [Span.divideFrom, Span.opening_eq_nothing_of_not_mem (t := name) hopens]
    simp only
    rw [Span.divideFrom, Span.opening_where rfl hwhere]
    rfl
  · refine Span.restated_divideFrom "WHERE" .body .nil hrestated ?_
    rw [Option.any_none, Option.any_some, isKeyword_ofPiece]
    decide

/-- A name is a list of one table without an alias. -/
theorem listedTables_name (hkind : t.kind = .word)
    (hname : t.upper ∉ Keyword.reserved ++ Keyword.clause) :
    listedTables [t] = [(t.text, none)] := by
  have hitems : items [t] = [[t]] := by
    simp [items, cutFrom, flush, hkind]
  have hreserved : t.isKeyword Keyword.reserved = false := by
    rw [isKeyword, hkind, beq_self_eq_true, Bool.true_and, ← Bool.not_eq_true,
      List.contains_iff_mem]
    exact fun h => hname (List.mem_append_left _ h)
  have hidentifier : t.isIdentifier = true := by simp [isIdentifier, hkind]
  have hread : ColumnRef.read? [t] = some (⟨none, t.text⟩, []) := by
    simp [ColumnRef.read?, ColumnRef.dottedNames, hidentifier, hreserved, ColumnRef.ofNames,
      Token.name, hkind]
  simp [listedTables, hitems, hread, hkind, aliasAt?]

/-! ### Names -/

/-- **Own qualifiers.** If a list of tables has only one that is named like the subject, the
qualifiers that mean the subject's table are those that the joins alone give. -/
theorem Scope.ownNames_of_variant {query query' : Query} (groups groups' : List Group)
    {name : String} {targets targets' : List JoinTarget} (htable : query.table = query'.table)
    (hname : lower name ∈ variants query.table)
    (htargets : List.Forall₂ (JoinTarget.Restated a) targets targets') (key : String) :
    (Scope.ofSpans query groups [] targets).ownNames.contains key =
      (Scope.ofSpans query' groups' [(name, none)] targets').ownNames.contains key := by
  have hagree : AliasesAgree (· = lower name) (Scope.ofSpans query groups [] targets).aliases
      (Scope.ofSpans query' groups' [(name, none)] targets').aliases := by
    refine AliasesAgree.foldl_targets (fun key hkey table => ?_) htargets
    simp only [List.foldl_nil, List.foldl_cons, bindAlias, standsFor_bindName]
    exact ⟨.inl, fun h => h.resolve_right fun hname => hkey hname.1⟩
  rw [Bool.eq_iff_iff, List.contains_iff_mem, List.contains_iff_mem]
  refine mem_ownQualifiers.trans (Iff.trans ?_ mem_ownQualifiers.symm)
  rw [← htable]
  by_cases hkey : key ∈ variants query.table
  · exact ⟨fun _ => .inl hkey, fun _ => .inl hkey⟩
  · have hstands (v : String) := hagree key (fun heq => hkey (heq ▸ hname)) v
    refine or_congr_right (or_congr ?_ ?_)
    · exact exists_congr fun v => and_congr_right fun _ => hstands v
    · -- neither text has another table to stand in for the subject's
      constructor
      · rintro ⟨-, first, hfirst, -⟩
        exact absurd hfirst (by simp)
      · rintro ⟨hnone, first, hfirst, hstands⟩
        rw [← Option.mem_some_iff.mp hfirst] at hstands
        exact absurd hstands (hnone key _ hname)

/-- What a fragment brings into scope are its joins. -/
theorem Scope.ofClauses_fragment (hfragment : IsFragment ts) (query : Query)
    (groups : List Group) : Scope.ofClauses query groups (Span.divide ts) =
      Scope.ofSpans query groups [] (JoinTarget.ofClauses (Span.divide ts)) := by
  have hdivide := Span.divide_of_bare hfragment.bare
  rw [Scope.ofClauses, (hdivide "FROM").2 (by decide), (hdivide "UPDATE").2 (by decide),
    Span.tokensOf_fragment hfragment.unnamed (.inl rfl),
    Span.tokensOf_fragment hfragment.unnamed (.inr rfl)]
  rfl

/-- What the statement brings into scope are its table and the joins after it. -/
theorem Scope.ofClauses_selectWhere {select : List Token} {spans : List Span}
    (hkind : t.kind = .word) (hname : t.upper ∉ Keyword.reserved ++ Keyword.clause)
    (hlists : ∀ keyword, Span.ListsTables keyword → Span.tokensOf spans keyword = [])
    (query : Query) (groups : List Group) :
    Scope.ofClauses query groups (⟨"SELECT", select⟩ :: ⟨"FROM", [t]⟩ :: spans) =
      Scope.ofSpans query groups [(t.text, none)] (JoinTarget.ofClauses spans) := by
  have hcons (keyword : String) (hkeyword : keyword ≠ "SELECT" ∧ keyword ≠ "FROM") :
      Span.tokensOf (⟨"SELECT", select⟩ :: ⟨"FROM", [t]⟩ :: spans) keyword =
        Span.tokensOf spans keyword := by
    simp [Span.tokensOf, Ne.symm hkeyword.1, Ne.symm hkeyword.2]
  have hfrom : Span.tokensOf (⟨"SELECT", select⟩ :: ⟨"FROM", [t]⟩ :: spans) "FROM" =
      [t] :: Span.tokensOf spans "FROM" := by
    simp [Span.tokensOf]
  rw [Scope.ofClauses, JoinTarget.ofClauses, hfrom, hcons "UPDATE" (by decide),
    hcons "JOIN" (by decide), hlists _ (.inl rfl), hlists _ (.inr rfl)]
  simp only [List.append_nil, List.flatMap_cons, List.flatMap_nil, listedTables_name hkind hname]
  rfl

/-! ### Both texts -/

/-- The statement restates the fragment, further on in its text. -/
theorem Query.restated_selectWhere (catalog : Catalog) (splitOr : Bool) (query : Query)
    (htable : table.kind = .word)
    (hname : upper (String.ofList table.text) ∉ Keyword.reserved ++ Keyword.clause)
    (hvariant : String.ofList table.text ∈ variants query.table)
    (hfragment : IsFragment (statementTokens query.sql)) :
    Clauses.Restated (Word.width (Word.selectWhere table)) Eq (query.parse catalog splitOr).clauses
      ((query.selectWhere table).parse catalog splitOr).clauses := by
  obtain ⟨select, from_, spans', hdivide', hkind, htext, hspans⟩ :=
    Query.divide_selectWhere htable hname query
  have hdivide := Span.divide_of_bare hfragment.bare
  have hjoins := Span.ne_nil_of_mem_joins (statementTokens query.sql)
  have htargets : List.Forall₂ (JoinTarget.Restated (Word.width (Word.selectWhere table)))
      (JoinTarget.ofClauses (Span.divide (statementTokens query.sql)))
      (JoinTarget.ofClauses spans') := by
    rw [JoinTarget.ofClauses]
    rw [(hdivide "JOIN").2 (by decide)] at hjoins ⊢
    exact JoinTarget.restated_ofClauses hspans hjoins
  have hlists (keyword : String) (hkeyword : Span.ListsTables keyword) :
      Span.tokensOf spans' keyword = [] := by
    have hrestated := Span.restated_tokensOf hspans keyword
    rw [Span.tokensOf_fragment hfragment.unnamed hkeyword] at hrestated
    exact List.forall₂_nil_left_iff.mp hrestated
  have hslice (i j : Nat) : String.ofList (slice query.sql.toList i j) =
      String.ofList (slice (query.selectWhere table).sql.toList
        (i + Word.width (Word.selectWhere table)) (j + Word.width (Word.selectWhere table))) := by
    rw [Query.selectWhere_eq]
    exact congrArg String.ofList (slice_withWords query i j).symm
  -- the one table of the query goes by a variant of the subject's name, so nothing else is own
  have hscope : Scope.Restates (Word.width (Word.selectWhere table)) Eq
      (Scope.ofClauses query query.groups (Span.divide (statementTokens query.sql)))
      (Scope.ofClauses (query.selectWhere table) (query.selectWhere table).groups
        (Span.divide (statementTokens (query.selectWhere table).sql))) := by
    rw [Scope.ofClauses_fragment hfragment, hdivide',
      Scope.ofClauses_selectWhere hkind (by rwa [Token.upper, htext]) hlists]
    exact {
      fields := rfl
      ownNames := Scope.ownNames_of_variant _ _ rfl
        (by rwa [htext, lower_of_mem_variants hvariant]) htargets
      text := fun _ _ h => Scope.text_of_restated hslice h }
  rw [Query.clauses_parse, Query.clauses_parse]
  refine Clauses.restated_ofTokens splitOr hscope ?_ fun keyword hkeyword => ?_
  · rwa [hdivide', JoinTarget.ofClauses_cons (by simp), JoinTarget.ofClauses_cons (by simp)]
  · have hother : keyword ≠ "SELECT" ∧ keyword ≠ "FROM" := by
      constructor <;> rintro rfl <;> simp at hkeyword
    rw [(hdivide keyword).1, hdivide', Span.firstOf_cons, if_neg (Ne.symm hother.1),
      Span.firstOf_cons, if_neg (Ne.symm hother.2)]
    exact Span.restated_firstOf hspans keyword

/-- **Fragments.** A fragment of a `WHERE` clause and the statement that selects with it from a
table named by a variant of the subject give the same keys for every target database, and branch for
branch the same predicates, further on in the text. -/
theorem fragment_same_keys (catalog : Catalog) (splitOr : Bool) (query : Query) (table : Word)
    (htable : table.kind = .word)
    (hname : upper (String.ofList table.text) ∉ Keyword.reserved ++ Keyword.clause)
    (hvariant : String.ofList table.text ∈ variants query.table)
    (hfragment : IsFragment (statementTokens query.sql)) :
    let fragment := (query.parse catalog splitOr).clauses
    let whole := ((query.selectWhere table).parse catalog splitOr).clauses
    (∀ caps, (Candidate.ofClauses caps fragment).map Candidate.columns =
      (Candidate.ofClauses caps whole).map Candidate.columns) ∧
    fragment.hasOr = whole.hasOr ∧
    List.Forall₂ (List.Forall₂ (Predicate.Restated (Word.width (Word.selectWhere table)) Eq))
      fragment.branches whole.branches := by
  intro fragment whole
  have hrestated := query.restated_selectWhere catalog splitOr htable hname hvariant hfragment
  exact ⟨hrestated.columns, hrestated.hasOr, hrestated.branches⟩

/-- The condition of a search for a user, with the order of the users found. -/
def emailCondition : Query where
  table := "User"
  fields := ["id", "email"]
  sql := "users.email = $1 ORDER BY id"

/-- The table of users. -/
def Word.usersTable : Word := ⟨.word, ['u', 's', 'e', 'r', 's'], by decide⟩

/-- The condition has the key of the search that it belongs to. -/
theorem emailCondition_same_keys :
    (Candidate.ofClauses (.of .postgres none) (emailCondition.parse [] true).clauses).map
        Candidate.columns = [["email", "id"]] ∧
      (Candidate.ofClauses (.of .postgres none)
        ((emailCondition.selectWhere Word.usersTable).parse [] true).clauses).map
        Candidate.columns = [["email", "id"]] := by
  have hkeys : (Candidate.ofClauses (.of .postgres none) (emailCondition.parse [] true).clauses).map
      Candidate.columns = [["email", "id"]] := by
    decide +kernel
  have hfragment : IsFragment (statementTokens emailCondition.sql) :=
    ⟨by decide +kernel, by decide +kernel⟩
  obtain ⟨hcolumns, -⟩ := fragment_same_keys [] true emailCondition Word.usersTable rfl
    (by decide +kernel) (by decide +kernel) hfragment
  exact ⟨hkeys, (hcolumns _).symm.trans hkeys⟩

end IndexAdvice
