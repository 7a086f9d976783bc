import IndexAdvice.Proofs.Matching
import IndexAdvice.Proofs.ScopeAgreement
import IndexAdvice.Proofs.WhereKept

/-!
# Set operators

`UNION`, `INTERSECT` and `EXCEPT` outside parentheses end the statement that is read. The text after
one is still cut into tokens and searched for nested queries, whose places go into the scope of the
query. `set_operator_cuts` says that none of it matters: the clauses are those of the text before
the keyword, and the nested queries of that text come first among those of the whole.

Three things carry it. The tokens before the keyword are those of the text before it
(`Token.tokenize_take`). The division into spans stops there (`Span.divide_append`). And nothing
that opens before the keyword reaches past it, since the keyword has depth zero and so every
parenthesis before it is closed before it (`Group.collect_append`).
-/

namespace IndexAdvice

open Text Token

variable {u t : Token} {front rest ts vs : List Token}

/-! ### Tokens -/

/-- What stands before a place is the same in the text that is cut off there. -/
theorem Text.slice_take {n stop : Nat} (h : stop ≤ n) (cs : List Char) (start : Nat) :
    slice (cs.take n) start stop = slice cs start stop := by
  rw [slice, slice, List.drop_take, List.take_take, Nat.min_eq_left (Nat.sub_le_sub_right h start)]

/-- **Cutting off.** The tokens before a token are those of the text before it. -/
theorem Token.tokenize_take {sql : String} (hT : tokenize sql = front ++ u :: rest) :
    tokenize (String.ofList (sql.toList.take u.start)) = front := by
  obtain ⟨P, text, Q, hps, hfront, hu, -⟩ := exists_of_locate hT
  have htexts : sql.toList = P.flatMap Piece.text ++ (text ++ Q.flatMap Piece.text) :=
    Piece.eq_texts_of_ofText hps
  have hstart : u.start = (P.flatMap Piece.text).length := by
    rw [congrArg Token.start hu]
    exact Nat.zero_add _
  have hcut : Piece.cut none 0 (P.flatMap Piece.text ++ (text ++ Q.flatMap Piece.text)) =
      P ++ ⟨some u.kind, text⟩ :: Q := by
    rw [← htexts]
    exact hps
  rw [tokenize, String.toList_ofList, htexts, hstart, List.take_left, hfront, Piece.ofText,
    (Piece.cut_append (Nat.zero_le _) hcut rfl).1]

/-! ### The division -/

namespace Span

variable {keyword : String} {phase : Phase} {before : Option Token} {held : List Token}

/-- Whether a token ends the statement. -/
structure EndsStatement (u : Token) : Prop where
  depth : u.depth = 0
  isKeyword : u.isKeyword Keyword.setOperator = true

theorem EndsStatement.isKeyword_eq_false (h : EndsStatement u) {keywords : List String}
    (hkeywords : ∀ word ∈ Keyword.setOperator, keywords.contains word = false) :
    u.isKeyword keywords = false := by
  have hupper : u.upper ∈ Keyword.setOperator := by
    simpa [Token.isKeyword, kind_of_isKeyword h.isKeyword] using h.isKeyword
  rw [Token.isKeyword, hkeywords _ hupper, Bool.and_false]

/-- A set operator ends the statement wherever it stands. -/
theorem EndsStatement.opening (h : EndsStatement u) (before : Option Token) (rest : List Token) :
    Span.opening before u rest = .stop := by
  have hkind := kind_of_isKeyword h.isKeyword
  have hupper : Keyword.setOperator.contains u.upper = true := by
    simpa [Token.isKeyword, hkind] using h.isKeyword
  rw [Span.opening, if_neg (by simp [h.depth, hkind]), if_pos hupper]

/-- No join goes on over the end of a statement. -/
theorem startsJoin_append (h : EndsStatement u) (ts rest : List Token) :
    startsJoin (ts ++ u :: rest) = startsJoin ts := by
  induction ts with
  | nil =>
    rw [List.nil_append, startsJoin_cons, h.isKeyword_eq_false (by decide),
      h.isKeyword_eq_false (by decide), Bool.and_false]
    rfl
  | cons t ts ih => rw [List.cons_append, startsJoin_cons, startsJoin_cons, ih]

theorem pair?_append (h : EndsStatement u) (t : Token) (ts rest : List Token) :
    pair? t (ts ++ u :: rest) = pair? t ts := by
  cases ts with
  | nil =>
    cases hpair : pair? t ([] ++ u :: rest) with
    | none =>
      unfold pair?
      split <;> rfl
    | some next =>
      have hby : u.isKeyword ["BY"] = true := (pair?_passes hpair).2
      rw [h.isKeyword_eq_false (by decide)] at hby
      exact absurd hby Bool.false_ne_true
  | cons v ts => rfl

/-- What a token opens is settled before a set operator that comes later. -/
theorem opening_append (h : EndsStatement u) (before : Option Token) (t : Token)
    (ts rest : List Token) : opening before t (ts ++ u :: rest) = opening before t ts := by
  rw [opening, opening, pair?_append h, ← List.cons_append, startsJoin_append h]

/-- **The division stops** at the end of a statement, wherever the span before it stands. -/
theorem divideFrom_append (h : EndsStatement u) (hjoin : phase = .joinHead → startsJoin ts = true)
    (hpair : phase = .pairTail → ts ≠ []) :
    divideFrom keyword phase before held (ts ++ u :: rest) =
      divideFrom keyword phase before held ts := by
  induction ts generalizing keyword phase before held with
  | nil =>
    cases phase with
    | pairTail => exact absurd rfl (hpair rfl)
    | joinHead => exact absurd (hjoin rfl) (by decide)
    | body =>
      rw [List.nil_append, divideFrom, divideFrom, h.opening]
  | cons t ts ih =>
    -- a head of a join and a pair need tokens before the set operator
    have hbody : Phase.body ≠ .joinHead ∧ Phase.body ≠ .pairTail := by decide
    rw [List.cons_append]
    cases phase with
    | pairTail => exact ih (absurd · hbody.1) (absurd · hbody.2)
    | joinHead => exact ih (startsJoin_tail (hjoin rfl)) (absurd · (afterJoinHead_ne_pairTail t))
    | body =>
      rw [divideFrom, divideFrom, opening_append h]
      have hfits := opening_fits before t ts
      generalize opening before t ts = o at hfits
      cases o with
      | nothing => exact ih (absurd · hbody.1) (absurd · hbody.2)
      | stop => rfl
      | pair next =>
        have hne : ts ≠ [] := fun hnil => by simp [hnil, Opening.Fits] at hfits
        exact congrArg _ (ih (absurd · (by decide)) fun _ => hne)
      | join =>
        exact congrArg _ (ih (startsJoin_tail hfits) (absurd · (afterJoinHead_ne_pairTail t)))
      | clause next => exact congrArg _ (ih (absurd · hbody.1) (absurd · hbody.2))

/-- **Nothing after a set operator is divided** into clauses. -/
theorem divide_append (h : EndsStatement u) (hne : front ≠ []) (rest : List Token) :
    divide (front ++ u :: rest) = divide front := by
  cases front with
  | nil => exact absurd rfl hne
  | cons t front =>
    rw [List.cons_append, divide, divide, ← List.cons_append]
    split
    · exact divideFrom_append h (absurd · (by decide)) (absurd · (by decide))
    · exact divideFrom_append h (absurd · (by decide)) (absurd · (by decide))

end Span

/-! ### Nested queries -/

namespace Group

variable {cs : List Char} {n : Nat} {before : List Token}

/-- **A closed group** is the same whatever follows it, and in a text that is cut off after it. -/
theorem openedBy_append (hT : Located (t :: (ts ++ vs))) (hopens : opensBefore t ts = true)
    (hclosed : (closeOf 0 ts).isSome) (hstop : ∀ r ∈ ts, r.start ≤ n) (cs : List Char)
    (before : List Token) :
    openedBy cs before t (ts ++ vs) = openedBy (cs.take n) before t ts ∧
      size t (ts ++ vs) = size t ts ∧ size t ts ≤ ts.length := by
  have hl : t.kind = .lparen := by
    simpa using (Bool.and_eq_true_iff.mp hopens).1
  obtain ⟨k, hk⟩ := Option.isSome_iff_exists.mp hclosed
  have hclosing : closing? t.depth (ts ++ vs) = some k := by
    rw [hT.closing?_eq hl, closeOf_append_of_some hk]
  have hclosing' : closing? t.depth ts = some k := by
    have hshort : Located ((t :: ts) ++ vs) := hT
    rw [hshort.left.closing?_eq hl, hk]
  obtain ⟨body, r, more, rfl, rfl, -, hr⟩ := closeOf_eq_some_iff.mp hk
  have hcloser : closer t (body ++ r :: more ++ vs) = r := by
    rw [closer, hclosing]
    simp [List.getD]
  have hcloser' : closer t (body ++ r :: more) = r := by
    rw [closer, hclosing']
    simp [List.getD]
  refine ⟨?_, by rw [size, size, hclosing, hclosing'], by rw [size, hclosing']; simp⟩
  simp only [openedBy, hcloser, hcloser', hr, beq_self_eq_true, if_true,
    slice_take (hstop r (by simp))]

/-- **The groups before a token** that is no parenthesis nor starts a nested query come first among
those of the whole, if they are closed before it. -/
theorem collect_append (hT : Located (ts ++ u :: vs)) (hu : u.isKeyword Keyword.nested = false)
    (hclosed : unclosed ts = []) (hstop : ∀ r ∈ ts, r.start ≤ n) (cs : List Char)
    (before : List Token) {skip : Nat} (hskip : skip ≤ ts.length) :
    collect cs before skip (ts ++ u :: vs) =
      collect (cs.take n) before skip ts ++ collect cs (ts.reverse ++ before) 0 (u :: vs) := by
  induction ts generalizing before skip with
  | nil =>
    obtain rfl : skip = 0 := Nat.le_zero.mp hskip
    rfl
  | cons t ts ih =>
    obtain ⟨hclose, hclosed⟩ := unclosed_cons_eq_nil hclosed
    have hlater {skip : Nat} (hskip : skip ≤ ts.length) :=
      ih hT.tail hclosed (fun r hr => hstop r (List.mem_cons_of_mem t hr)) (t :: before) hskip
    rw [List.cons_append, List.reverse_cons, List.append_assoc]
    cases skip with
    | succ k => exact hlater (Nat.le_of_succ_le_succ hskip)
    | zero =>
      have hsame : opensBefore t (ts ++ u :: vs) = opensBefore t ts :=
        opensBefore_append t ts fun v hv => by rwa [← Option.some.inj hv]
      -- the equation of `collect` with the tokens skipped, unlike `collect_cons`
      have hcollect (cs : List Char) (rest : List Token) : collect cs before 0 (t :: rest) =
          if opensBefore t rest then
            openedBy cs before t rest :: collect cs (t :: before) (size t rest) rest
          else collect cs (t :: before) 0 rest := rfl
      rw [hcollect, hcollect, hsame]
      split
      · next hopens =>
        have hl : t.kind = .lparen := by
          simpa using (Bool.and_eq_true_iff.mp hopens).1
        obtain ⟨hgroup, hsize, hle⟩ := openedBy_append hT hopens (hclose hl)
          (fun r hr => hstop r (List.mem_cons_of_mem t hr)) cs before
        rw [hgroup, hsize, hlater hle]
        rfl
      · exact hlater (Nat.zero_le _)

/-- Groups start at tokens that they are collected from. -/
theorem le_start_of_mem_collect {g : Group} {skip : Nat} (h : g ∈ collect cs before skip ts)
    (hle : ∀ t ∈ ts, n ≤ t.start) : n ≤ g.start := by
  obtain ⟨front, t, rest, before, rfl, -, rfl⟩ := exists_of_mem_collect h
  exact hle t (by simp)

end Group

/-! ### Trees without the queries around -/

namespace Nested

/-- The tree without the links from nested queries to those around them. -/
def detached : Nested → Nested
  | nil => nil
  | cons start stop query clauses inner rest =>
    cons start stop { query with ancestors := [] } clauses inner.detached rest.detached

/-- The nested queries of a tree and then those of another. -/
def append : Nested → Nested → Nested
  | nil, more => more
  | cons start stop query clauses inner rest, more =>
    cons start stop query clauses inner (rest.append more)

theorem append_nil (tree : Nested) : tree.append nil = tree := by
  induction tree with
  | nil => rfl
  | cons start stop query clauses inner rest _ ih => rw [append, ih]

end Nested

namespace Query

variable {catalog : Catalog} {splitOr : Bool} {query query' : Query} {gs : List Group}

/-- What is read in two queries is the same but for the queries around. -/
structure ReadAlike (catalog : Catalog) (splitOr : Bool) (query query' : Query) : Prop where
  toStatement : query.toStatement = query'.toStatement
  clauses : (query.parse catalog splitOr).clauses = (query'.parse catalog splitOr).clauses
  nested : (query.parse catalog splitOr).nested.detached =
    (query'.parse catalog splitOr).nested.detached

/-- Groups that are read alike give nested queries that differ only in what is around them. -/
theorem detached_foldr_nest
    (h : ∀ g ∈ gs, ReadAlike catalog splitOr (g.query catalog query) (g.query catalog query'))
    (more : Nested) : (gs.foldr (nest catalog splitOr query) more).detached =
      (gs.foldr (nest catalog splitOr query') .nil).detached.append more.detached := by
  induction gs with
  | nil => rfl
  | cons g gs ih =>
    obtain ⟨⟨hstatement, hclauses, hnested⟩, h⟩ := List.forall_mem_cons.mp h
    have hquery : ({ g.query catalog query with ancestors := [] } : Query) =
        { g.query catalog query' with ancestors := [] } :=
      congrArg (Query.mk · []) hstatement
    rw [List.foldr_cons, List.foldr_cons, nest, nest, Nested.detached, Nested.detached,
      Nested.append, ih h, hclauses, hnested, hquery]

/-- **The queries around** a query show in nothing that is read in it. -/
theorem readAlike_of_toStatement (h : query.toStatement = query'.toStatement) :
    ReadAlike catalog splitOr query query' := by
  induction query using nestedInduction catalog generalizing query' with
  | step query ih =>
    obtain ⟨statement, ancestors⟩ := query
    obtain ⟨statement', ancestors'⟩ := query'
    obtain rfl : statement = statement' := h
    have hgroups : (⟨statement, ancestors⟩ : Query).groups =
        (⟨statement, ancestors'⟩ : Query).groups := rfl
    have hscope (groups : List Group) (spans : List Span) :
        Scope.ofClauses ⟨statement, ancestors⟩ groups spans =
          Scope.ofClauses ⟨statement, ancestors'⟩ groups spans := rfl
    refine ⟨rfl, ?_, ?_⟩
    · rw [clauses_parse, clauses_parse, Clauses.ofTokens_eq_readIn, Clauses.ofTokens_eq_readIn,
        hgroups, hscope]
    · have hread : ∀ g ∈ (⟨statement, ancestors⟩ : Query).groups,
          ReadAlike catalog splitOr (g.query catalog ⟨statement, ancestors⟩)
            (g.query catalog ⟨statement, ancestors'⟩) := fun g hg => ih g hg rfl
      rw [nested_parse, nested_parse, ← hgroups, detached_foldr_nest hread, Nested.detached,
        Nested.append_nil]

/-! ### The text before a set operator -/

/-- The query for the first `n` characters of the text. -/
def upTo (query : Query) (n : Nat) : Query :=
  { query with sql := String.ofList (query.sql.toList.take n) }

/-- A nested query is the same in both texts, but for the query around. -/
theorem readAlike_upTo (g : Group) (n : Nat) :
    ReadAlike catalog splitOr (g.query catalog query) (g.query catalog (query.upTo n)) := by
  refine readAlike_of_toStatement ?_
  obtain ⟨⟨table, fields, sql, origin, method, file, line⟩, ancestors⟩ := query
  rfl

/-- Groups from the cut on cover no token before it, so the scopes agree on those. -/
theorem agreeOn_upTo {n : Nat} {gs more : List Group}
    (hfront : ∀ t ∈ front, t.start < t.stop ∧ t.stop ≤ n)
    (hmore : ∀ g ∈ more, n ≤ g.start) (spans : List Span) :
    Scope.AgreeOn front (Scope.ofClauses query (gs ++ more) spans)
      (Scope.ofClauses (query.upTo n) gs spans) where
  fields := rfl
  aliases := rfl
  ownNames := rfl
  text part hpart := by
    have hsql : (Scope.ofClauses (query.upTo n) gs spans).sql = query.sql.toList.take n :=
      String.toList_ofList
    have hsql' : (Scope.ofClauses query (gs ++ more) spans).sql = query.sql.toList := rfl
    rw [Scope.text, Scope.text, hsql, hsql']
    split
    · next first last _ hlast =>
      rw [slice_take (hfront last (hpart (List.mem_of_getLast? hlast))).2]
    · rfl
  inNested t ht := by
    have hnot : Group.covers more t = false := by
      rw [Group.covers, List.any_eq_false]
      intro g hg
      have := hmore g hg
      have := hfront t ht
      simp only [Bool.and_eq_true, decide_eq_true_eq]
      omega
    rw [Scope.ofClauses, Scope.ofClauses, Scope.inNested_ofSpans, Scope.inNested_ofSpans,
      Group.covers, List.any_append, ← Group.covers, ← Group.covers, hnot, Bool.or_false]

end Query

/-- **Set operators cut.** What is read in a query before a set operator outside parentheses is what
is read in its text up to the keyword, and the nested queries of that text, the links to those
around them aside, are the first ones of the whole. -/
theorem set_operator_cuts (catalog : Catalog) (splitOr : Bool) (query : Query)
    (hT : tokenize query.sql = front ++ u :: rest) (hne : front ≠ [])
    (hlast : ∀ t ∈ front.getLast?, t.kind ≠ .semicolon) (hdepth : u.depth = 0)
    (hu : u.isKeyword Keyword.setOperator = true) :
    tokenize (query.upTo u.start).sql = front ∧
      (query.parse catalog splitOr).clauses =
        ((query.upTo u.start).parse catalog splitOr).clauses ∧
      ∃ more, (query.parse catalog splitOr).nested.detached =
        ((query.upTo u.start).parse catalog splitOr).nested.detached.append more := by
  have hends : Span.EndsStatement u := ⟨hdepth, hu⟩
  have hcut : tokenize (query.upTo u.start).sql = front := tokenize_take hT
  -- the tokens that are read
  obtain ⟨rest', hS⟩ : ∃ rest', statementTokens query.sql = front ++ u :: rest' := by
    have hkind : u.kind ≠ .semicolon := by simp [kind_of_isKeyword hu]
    have hdrop := dropSemicolons_append hkind front rest
    rw [← hT, ← statementTokens] at hdrop
    exact ⟨_, hdrop⟩
  have hlocated : Located (front ++ u :: rest') := hS ▸ located_statementTokens query.sql
  have horder : Consecutive (front ++ u :: rest') := hS ▸ consecutive_statementTokens query.sql
  have hS' : statementTokens (query.upTo u.start).sql = front := by
    obtain ⟨init, last, rfl⟩ : ∃ init last, front = init ++ [last] := by
      simpa only [← List.concat_eq_append] using (List.eq_nil_or_concat front).resolve_left hne
    rw [statementTokens, hcut]
    exact dropSemicolons_append (hlast last (by simp)) init []
  have hbefore : ∀ t ∈ front, t.start < t.stop ∧ t.stop ≤ u.start := fun t ht =>
    ⟨horder.start_lt t (List.mem_append_left _ ht),
      (List.pairwise_append.mp horder.stop_le).2.2 t ht u List.mem_cons_self⟩
  have hafter : ∀ t ∈ u :: rest', u.start ≤ t.start := by
    have hpairs := (List.pairwise_append.mp horder.stop_le).2.1
    have hlt := horder.start_lt u (by simp)
    rintro t (_ | ⟨_, ht⟩)
    · exact Nat.le_refl _
    · have := (List.pairwise_cons.mp hpairs).1 t ht
      omega
  -- every parenthesis before the keyword is closed before it
  have hclosed : unclosed front = [] := by
    have hcount := depth_eq_of_locate hT
    rw [if_neg (by simp [kind_of_isKeyword hu]), hdepth] at hcount
    exact List.eq_nil_of_length_eq_zero hcount.symm
  have hgroups : query.groups = (query.upTo u.start).groups ++
      Group.collect query.sql.toList front.reverse 0 (u :: rest') := by
    have hnested : u.isKeyword Keyword.nested = false := hends.isKeyword_eq_false (by decide)
    have hcollect := Group.collect_append hlocated hnested hclosed
      (fun r hr => Nat.le_of_lt (Nat.lt_of_lt_of_le (hbefore r hr).1 (hbefore r hr).2))
      query.sql.toList [] (Nat.zero_le _)
    rw [List.append_nil] at hcollect
    rw [Query.groups, Query.groups, hS, hS', Group.ofTokens, Group.ofTokens, hcollect]
    rw [Query.upTo, String.toList_ofList]
  refine ⟨hcut, ?_, ?_⟩
  · rw [Query.clauses_parse, Query.clauses_parse, Clauses.ofTokens_eq_readIn,
      Clauses.ofTokens_eq_readIn, hS, hS', Span.divide_append hends hne, hgroups]
    exact Clauses.readIn_of_agreeOn (Query.agreeOn_upTo hbefore
      (fun g hg => Group.le_start_of_mem_collect hg hafter) _) splitOr
  · rw [Query.nested_parse, Query.nested_parse, hgroups, List.foldr_append]
    exact ⟨_, Query.detached_foldr_nest (fun g _ => Query.readAlike_upTo g u.start) _⟩

/-- Tickets of some owners, together with a number. -/
def ticketsAndOne : Query where
  table := "Ticket"
  fields := ["id", "owner_id"]
  sql := "SELECT id FROM tickets WHERE owner_id IN (SELECT id FROM users) UNION SELECT (SELECT 1);"

/-- The tickets are read as if nothing followed them. -/
theorem ticketsAndOne_cut :
    let tokens := tokenize ticketsAndOne.sql
    let union : Token := ⟨.word, "UNION", 64, 69, 0⟩
    let tickets := ticketsAndOne.upTo union.start
    tokens = tokens.take 13 ++ union :: tokens.drop 14 ∧ tokens.take 13 ≠ [] ∧
      (∀ t ∈ (tokens.take 13).getLast?, t.kind ≠ .semicolon) ∧ union.depth = 0 ∧
      union.isKeyword Keyword.setOperator = true ∧
      tokenize tickets.sql = tokens.take 13 ∧
      (ticketsAndOne.parse [] true).clauses = (tickets.parse [] true).clauses ∧
      ∃ more, (ticketsAndOne.parse [] true).nested.detached =
        (tickets.parse [] true).nested.detached.append more := by
  intro tokens union tickets
  obtain ⟨hT, hne, hlast⟩ : tokens = tokens.take 13 ++ union :: tokens.drop 14 ∧
      tokens.take 13 ≠ [] ∧ ∀ t ∈ (tokens.take 13).getLast?, t.kind ≠ .semicolon := by
    decide +kernel
  have hu : union.isKeyword Keyword.setOperator = true := by decide
  exact ⟨hT, hne, hlast, rfl, hu, set_operator_cuts [] true ticketsAndOne hT hne hlast rfl hu⟩

end IndexAdvice
