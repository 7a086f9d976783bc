import IndexAdvice.Proofs.ConditionCuts
import IndexAdvice.Proofs.RestatedClauses
import IndexAdvice.Proofs.ShiftedTokens
import IndexAdvice.Proofs.WhereKept

/-!
# The table of a nested query

A nested query is attributed to the table that its text names after the first `FROM`, `UPDATE` or
`INTO` outside parentheses. This is found out before the clauses of the text are, and by another
reading: the clauses know that the `FROM` of `DISTINCT FROM` opens none, that a word such as `LIMIT`
opens one even as the last part of a dotted name, and that the tables of `INTO` are not selected
from.

`table_of_nested` says when the two readings agree. If the first of the three words is a `FROM` that
opens a clause, and a table stands right after it with no word of its name opening a clause, this
table is also the first one that is selected from. Otherwise the query may be attributed to a table
that it does not select from (`ordersOf_attributed_to_previous`).
-/

namespace IndexAdvice

open Token

variable {catalog : Catalog} {splitOr : Bool} {t w : Token} {names after front rest ts : List Token}
  {ref : ColumnRef}

/-! ### References before other tokens -/

namespace ColumnRef

/-- Whether tokens go on a reference that stands before them. -/
def continues : List Token → Bool
  | d :: t :: _ => d.kind == .dot && t.isIdentifier
  | _ => false

theorem continues_dottedNames (ts : List Token) : continues (dottedNames ts).2 = false := by
  fun_induction dottedNames ts with
  | case1 d t rest h more ih => exact ih
  | case2 d t rest h => simpa [continues] using h
  | case3 rest h =>
    match rest with
    | [] => rfl
    | [_] => rfl
    | d :: t :: rest => exact absurd rfl (h d t rest)

theorem dottedNames_eq_nil (h : continues ts = false) : dottedNames ts = ([], ts) := by
  match ts with
  | [] => rfl
  | [_] => rfl
  | d :: t :: ts =>
    have hdot : ¬ (d.kind == .dot && t.isIdentifier) = true := by simpa [continues] using h
    rw [dottedNames, if_neg hdot]

/-- The names of a reference are read alike whatever follows, as long as that does not go on it. -/
theorem dottedNames_append {more : List String} {after' : List Token}
    (hafter' : continues after' = false) (names : List Token)
    (h : dottedNames (names ++ after) = (more, after)) :
    dottedNames (names ++ after') = (more, after') := by
  have hself (h' : dottedNames (names ++ after) = ([], names ++ after)) : names = [] := by
    have := congrArg Prod.snd (h'.symm.trans h)
    simpa using this
  match names with
  | [] =>
    have hafter := continues_dottedNames after
    rw [List.nil_append] at h
    rw [h] at hafter
    rw [dottedNames_eq_nil hafter] at h
    rw [List.nil_append, dottedNames_eq_nil hafter', ← (Prod.mk.inj h).1]
  | [d] =>
    by_cases hcontinues : continues (d :: after) = true
    · -- what follows would lose a token to the reference, and does not
      match after with
      | [] => exact absurd hcontinues (by simp [continues])
      | t :: after =>
        have hdot : (d.kind == .dot && t.isIdentifier) = true := hcontinues
        rw [List.singleton_append, dottedNames, if_pos hdot] at h
        have hle := (dottedNames_suffix after).length_le
        rw [(Prod.mk.inj h).2, List.length_cons] at hle
        omega
    · exact absurd (hself (dottedNames_eq_nil (Bool.eq_false_iff.mpr hcontinues))) (by simp)
  | d :: t :: names =>
    rw [List.cons_append, List.cons_append, dottedNames] at h ⊢
    by_cases hdot : (d.kind == .dot && t.isIdentifier) = true
    · rw [if_pos hdot] at h ⊢
      obtain ⟨rfl, hrest⟩ := Prod.mk.inj h
      have ih := dottedNames_append hafter' names (Prod.ext rfl hrest)
      simp only [ih]
    · have hstays : continues (d :: t :: names ++ after) = false := by
        simpa [continues] using hdot
      exact absurd (hself (dottedNames_eq_nil hstays)) (by simp)

/-- The names taken are the first tokens, and no comma is among them. -/
theorem exists_names_of_dottedNames (ts : List Token) :
    ∃ names, ts = names ++ (dottedNames ts).2 ∧ ∀ u ∈ names, u.kind ≠ .comma := by
  fun_induction dottedNames ts with
  | case1 d t rest h more ih =>
    obtain ⟨names, hrest, hnames⟩ := ih
    obtain ⟨hdot, ht⟩ := Bool.and_eq_true_iff.mp h
    refine ⟨d :: t :: names, by rw [List.cons_append, List.cons_append, ← hrest], ?_⟩
    rintro u (_ | ⟨_, _ | ⟨_, hu⟩⟩)
    · rw [beq_iff_eq.mp hdot]
      decide
    · exact kind_ne_of_isIdentifier ht (by decide)
    · exact hnames u hu
  | case2 => exact ⟨[], rfl, fun _ h => absurd h List.not_mem_nil⟩
  | case3 => exact ⟨[], rfl, fun _ h => absurd h List.not_mem_nil⟩

/-- What is read as a reference, and that nothing after it goes on it. -/
theorem exists_names_of_read? (h : read? rest = some (ref, after)) :
    ∃ t names, rest = t :: names ++ after ∧ t.isIdentifier = true ∧
      (∀ u ∈ t :: names, u.kind ≠ .comma) ∧ continues after = false := by
  cases rest with
  | nil => exact absurd h (by simp [read?])
  | cons t rest =>
    simp only [read?] at h
    split at h
    · cases h
    · rename_i hnot
      obtain ⟨-, rfl⟩ := Prod.mk.inj (Option.some.inj h)
      obtain ⟨names, hrest, hnames⟩ := exists_names_of_dottedNames rest
      simp only [Bool.or_eq_true, not_or] at hnot
      have ht : t.isIdentifier = true := by simpa using hnot.1
      exact ⟨t, names, by rw [List.cons_append, ← hrest], ht,
        List.forall_mem_cons.mpr ⟨kind_ne_of_isIdentifier ht (by decide), hnames⟩,
        continues_dottedNames rest⟩

/-- A reference is read alike whatever follows, as long as that does not go on it. -/
theorem read?_append {after' : List Token} (h : read? (t :: names ++ after) = some (ref, after))
    (hafter' : continues after' = false) : read? (t :: names ++ after') = some (ref, after') := by
  rw [List.cons_append, read?] at h ⊢
  cases hnames : dottedNames (names ++ after) with
  | mk more after₀ =>
    rw [hnames] at h
    simp only at h
    split at h
    · cases h
    · rename_i hnot
      obtain ⟨hread, rfl⟩ := Prod.mk.inj (Option.some.inj h)
      rw [dottedNames_append hafter' names hnames]
      simp only
      rw [if_neg hnot, hread]

theorem continues_of_isPrefix (h : ts <+: after) (hafter : continues after = false) :
    continues ts = false := by
  match ts, h with
  | [], _ => rfl
  | [_], _ => rfl
  | d :: t :: ts, h =>
    obtain ⟨more, rfl⟩ := h
    exact hafter

/-- Semicolons do not go on a reference. -/
theorem continues_append (h : continues after = false) (hts : ∀ t ∈ ts, t.kind = .semicolon) :
    continues (after ++ ts) = false := by
  match after, ts with
  | [], [] => rfl
  | [], [_] => rfl
  | [], d :: t :: ts => simp [continues, hts d List.mem_cons_self]
  | [d], [] => rfl
  | [d], t :: ts => simp [continues, isIdentifier, hts t List.mem_cons_self]
  | d :: t :: after, ts => exact h

end ColumnRef

/-! ### The first table of a `FROM` clause -/

/-- The first part ends before a separator. -/
theorem Token.exists_cutFrom_cons {base : Nat} {sep : Token → Bool} {b w : Bool}
    {part : List Token} (hpart : part ≠ []) (ts : List Token) :
    ∃ more parts, cutFrom base sep b w part ts = (part.reverse ++ more) :: parts ∧ more <+: ts := by
  induction ts generalizing part w with
  | nil =>
    refine ⟨[], [], ?_, List.nil_prefix⟩
    rw [cutFrom, flush, if_neg (by simpa using hpart), List.append_nil]
  | cons t ts ih =>
    have hgrow (w' : Bool) : ∃ more parts, cutFrom base sep b w' (t :: part) ts =
        (part.reverse ++ more) :: parts ∧ more <+: t :: ts := by
      obtain ⟨more, parts, hcut, hmore⟩ := ih (w := w') (List.cons_ne_nil t part)
      refine ⟨t :: more, parts, ?_, List.prefix_cons_iff.mpr (.inr ⟨more, rfl, hmore⟩)⟩
      rw [hcut, List.reverse_cons, List.append_assoc]
      rfl
    rw [cutFrom]
    split
    · exact hgrow true
    · split
      · split
        · exact hgrow false
        · refine ⟨[], cutFrom base sep b w [] ts, ?_, List.nil_prefix⟩
          rw [flush, if_neg (by simpa using hpart), List.append_nil]
          rfl
      · exact hgrow w

/-- A list that starts with a reference has its table first. -/
theorem listedTables_append (h : ColumnRef.read? (t :: names ++ after) = some (ref, after))
    (ht : t.isIdentifier = true) (hnames : ∀ u ∈ t :: names, u.kind ≠ .comma)
    {more : List Token} (hmore : more <+: after) :
    ∃ short tables, listedTables (t :: names ++ more) = (ref.name, short) :: tables := by
  have hsolid : Solid (baseDepth (t :: names ++ more)) (·.kind == .comma) false (t :: names) :=
    solid_of_forall_sep fun u hu _ => beq_eq_false_iff_ne.mpr (hnames u hu)
  have hne : (t :: names).reverse ≠ [] := by simp
  obtain ⟨first, parts, hcut, hfirst⟩ : ∃ first parts,
      cutFrom (baseDepth (t :: names ++ more)) (·.kind == .comma) false false (t :: names).reverse
        more = ((t :: names).reverse.reverse ++ first) :: parts ∧ first <+: more :=
    exists_cutFrom_cons hne more
  rw [List.reverse_reverse] at hcut
  have hitems : items (t :: names ++ more) = (t :: names ++ first) :: parts := by
    rw [items, hsolid, List.append_nil, hcut]
  have hcontinues : ColumnRef.continues after = false := by
    obtain ⟨_, _, -, -, -, hcontinues⟩ := ColumnRef.exists_names_of_read? h
    exact hcontinues
  have hread : ColumnRef.read? (t :: names ++ first) = some (ref, first) :=
    ColumnRef.read?_append h <|
      ColumnRef.continues_of_isPrefix (hfirst.trans hmore) hcontinues
  have hparen : (t.kind == TokenKind.lparen) = false :=
    beq_eq_false_iff_ne.mpr (kind_ne_of_isIdentifier ht (by decide))
  rw [listedTables, hitems]
  refine ⟨_, _, List.filterMap_cons_some (b := (ref.name, aliasAt? first)) ?_⟩
  rw [hread, List.cons_append, List.head?_cons, Option.any_some, hparen]
  rfl

/-! ### The two readings -/

namespace Span

/-- Whether a token outside parentheses is one of the words that a table may be named after, or a
set operator. -/
def endsOutput (t : Token) : Bool :=
  t.depth == 0 && t.isKeyword ("FROM" :: "UPDATE" :: "INTO" :: Keyword.setOperator)

/-- What does not end a select list is none of the keywords that do. -/
theorem isKeyword_of_endsOutput (h : endsOutput t = false) {keywords : List String}
    (hsub : keywords ⊆ "FROM" :: "UPDATE" :: "INTO" :: Keyword.setOperator) :
    (t.depth == 0 && t.isKeyword keywords) = false := by
  refine Bool.eq_false_iff.mpr fun hkeyword => Bool.eq_false_iff.mp h ?_
  simp only [isKeyword, Bool.and_eq_true, List.contains_iff_mem] at hkeyword
  simp only [endsOutput, isKeyword, Bool.and_eq_true, List.contains_iff_mem]
  exact ⟨hkeyword.1, hkeyword.2.1, hsub hkeyword.2.2⟩

/-- The first `FROM` clause of a text goes on from the first `FROM` that opens one, if no set
operator stands before it. -/
theorem firstOf_divide_from (hfront : ∀ t ∈ front, endsOutput t = false) (hdepth : w.depth = 0)
    (hw : w.isKeyword ["FROM"] = true)
    (hdistinct : front.getLast?.any (·.isKeyword ["DISTINCT"]) = false) :
    firstOf (divide (front ++ w :: rest)) "FROM" = continuation (some w) rest := by
  -- from whatever clause the front belongs to
  have hfirst {keyword : String} (hkeyword : keyword ≠ "FROM") {front : List Token}
      {before : Option Token} (hfront : ∀ t ∈ front, endsOutput t = false)
      (hlast : (front.getLast?.or before).any (·.isKeyword ["DISTINCT"]) = false) :
      firstOf (divideFrom keyword .body before [] (front ++ w :: rest)) "FROM" =
        continuation (some w) rest :=
    firstOf_clause (by decide) (by decide)
      (fun t ht => isKeyword_of_endsOutput (hfront t ht) (by decide)) hw
      (opening_from hdepth hw hlast rest) hkeyword (absurd · (by decide)) (absurd · (by decide))
  cases front with
  | nil =>
    have hstart : ¬ w.isKeyword ("WHERE" :: Keyword.statement) = true := by
      have hkind := kind_of_isKeyword hw
      have hupper : w.upper = "FROM" := by simpa [isKeyword, hkind] using hw
      rw [isKeyword, hupper, Bool.and_eq_true]
      exact fun h => absurd h.2 (by decide)
    rw [List.nil_append, divide, if_neg hstart, ← List.nil_append (w :: rest)]
    exact hfirst (by decide) hfront rfl
  | cons t front =>
    have hlast : (t :: front).getLast? = front.getLast?.or (some t) := by
      rw [List.getLast?_cons]
      cases front.getLast? <;> rfl
    rw [List.cons_append, divide]
    split
    next hstart =>
      refine hfirst ?_ (fun u hu => hfront u (List.mem_cons_of_mem t hu)) (hlast ▸ hdistinct)
      intro hupper
      rw [isKeyword, hupper, Bool.and_eq_true] at hstart
      exact absurd hstart.2 (by decide)
    next =>
      rw [← List.cons_append]
      exact hfirst (by decide) hfront (by rwa [Option.or_none])

/-- What goes on a select item is a front part of what follows. -/
theorem continuation_isPrefix (before : Option Token) (ts : List Token) :
    continuation before ts <+: ts := by
  induction ts generalizing before with
  | nil => exact List.nil_prefix
  | cons t ts ih =>
    rw [continuation]
    split
    · exact List.prefix_cons_iff.mpr (.inr ⟨_, rfl, ih (some t)⟩)
    · exact List.nil_prefix

/-- Words that open nothing go on the open span. -/
theorem exists_continuation_append (h : ∀ t ∈ names, t.upper ∉ Keyword.opening)
    (before : Option Token) (after : List Token) :
    ∃ more, continuation before (names ++ after) = names ++ more ∧ more <+: after := by
  induction names generalizing before with
  | nil => exact ⟨_, rfl, continuation_isPrefix before after⟩
  | cons t names ih =>
    rw [List.forall_mem_cons] at h
    obtain ⟨more, hmore, hprefix⟩ := ih h.2 (some t)
    refine ⟨more, ?_, hprefix⟩
    rw [List.cons_append, continuation, if_pos (opening_eq_nothing_of_not_mem h.1 _ _), hmore]
    rfl

end Span

/-- The table that a text is attributed to is the one after the first word that it may be named
after, if there is one. -/
theorem primaryTable?_append (hfront : ∀ t ∈ front, Span.endsOutput t = false)
    (hdepth : w.depth = 0) (hw : w.isKeyword ["FROM", "UPDATE", "INTO"] = true)
    (href : ColumnRef.read? rest = some (ref, after)) :
    primaryTable? (front ++ w :: rest) = some ref.name := by
  induction front with
  | nil =>
    rw [List.nil_append, primaryTable?, if_pos (by rw [hdepth, hw]; rfl), href]
  | cons t front ih =>
    rw [List.forall_mem_cons] at hfront
    have ht := Span.isKeyword_of_endsOutput hfront.1
      (show ["FROM", "UPDATE", "INTO"] ⊆ _ by decide)
    rw [List.cons_append, primaryTable?, if_neg (by rw [ht]; exact Bool.false_ne_true),
      ih hfront.2]

namespace Query

/-- A nested record is the query of a group. -/
theorem exists_group_of_mem_nested {query : Query} {record : Query × Clauses}
    (h : record ∈ (query.parse catalog splitOr).nested.records) :
    ∃ outer g, record.1 = Group.query catalog outer g ∧
      record.2 = (record.1.parse catalog splitOr).clauses := by
  induction query using nestedInduction catalog with
  | step query ih =>
    rw [records_nested_parse, List.mem_flatMap] at h
    obtain ⟨g, hg, h⟩ := h
    rcases List.mem_cons.mp h with rfl | h
    · exact ⟨query, g, rfl, rfl⟩
    · exact ih g hg h

/-- The first table that a query selects from. -/
theorem head?_tables_parse {query : Query}
    (hfrom : Span.firstOf (Span.divide (statementTokens query.sql)) "FROM" = ts)
    {table : String} {short : Option String} {tables : List (String × Option String)}
    (htables : listedTables ts = (table, short) :: tables) :
    (query.parse catalog splitOr).clauses.tables.head? = some table := by
  have hread : (query.parse catalog splitOr).clauses.tables =
      ((Span.tokensOf (Span.divide (statementTokens query.sql)) "FROM" ++
        Span.tokensOf (Span.divide (statementTokens query.sql)) "UPDATE").flatMap
          listedTables).map (·.1) := by
    rw [clauses_parse, Clauses.ofTokens]
  rw [Span.firstOf] at hfrom
  cases hspans : Span.tokensOf (Span.divide (statementTokens query.sql)) "FROM" with
  | nil =>
    have hnone : ts = [] := by rw [← hfrom, hspans, List.headD_nil]
    exact absurd htables (by simp [hnone, listedTables, items, cutFrom, flush])
  | cons first spans =>
    rw [hspans, List.headD_cons] at hfrom
    rw [hread, hspans, hfrom, List.cons_append, List.flatMap_cons, htables]
    rfl

end Query

/-- **The table of a nested query.** Say that `w` is the first word of a nested query, outside
parentheses, that is a set operator or may be followed by a table, and that a table follows it. The
query is attributed to this table. If `w` is a `FROM`, not that of `DISTINCT FROM`, and no word of
the table's name opens a clause, then this is the first of the tables that the query selects
from. -/
theorem table_of_nested {query : Query} {record : Query × Clauses}
    (h : record ∈ (query.parse catalog splitOr).nested.records)
    (hrest : (statementTokens record.1.sql).dropWhile (fun t => !Span.endsOutput t) = w :: rest)
    (hw : w.isKeyword ["FROM", "UPDATE", "INTO"] = true)
    (href : ColumnRef.read? rest = some (ref, after)) (hname : ref.name ≠ "") :
    let front := (statementTokens record.1.sql).takeWhile fun t => !Span.endsOutput t
    let name := rest.take (rest.length - after.length)
    record.1.table = ref.name ∧
      (w.isKeyword ["FROM"] = true →
        front.getLast?.any (·.isKeyword ["DISTINCT"]) = false →
        (∀ t ∈ name, t.upper ∉ Keyword.opening) →
        record.2.tables.head? = some record.1.table) := by
  intro front name
  have htokens : statementTokens record.1.sql = front ++ w :: rest := by
    rw [← hrest, List.takeWhile_append_dropWhile]
  have hfront : ∀ t ∈ front, Span.endsOutput t = false := fun t ht => by
    simpa using List.all_eq_true.mp List.all_takeWhile t ht
  have hdepth : w.depth = 0 := by
    have hfound := JoinTarget.head?_dropWhile_not Span.endsOutput (statementTokens record.1.sql)
    rw [hrest, List.head?_cons, eq_comm] at hfound
    have hends : Span.endsOutput w = true := List.find?_some hfound
    exact beq_iff_eq.mp (Bool.and_eq_true_iff.mp hends).1
  obtain ⟨outer, g, hquery, hclauses⟩ := Query.exists_group_of_mem_nested h
  obtain ⟨t, names, hnames, ht, hcommas, hcontinues⟩ := ColumnRef.exists_names_of_read? href
  have htable : record.1.table = ref.name := by
    -- semicolons at the end of the text do not go on the reference
    obtain ⟨semis, hsemis, hsplit⟩ := statementTokens_append record.1.sql
    have hread : ColumnRef.read? (rest ++ semis) = some (ref, after ++ semis) := by
      rw [hnames, List.append_assoc]
      exact ColumnRef.read?_append (hnames ▸ href)
        (ColumnRef.continues_append hcontinues hsemis)
    have hprimary : primaryTable? (tokenize record.1.sql) = some ref.name := by
      rw [hsplit, htokens, List.append_assoc, List.cons_append]
      exact primaryTable?_append hfront hdepth hw hread
    have hgroup : record.1.table =
        ((primaryTable? (tokenize record.1.sql)).filter (!·.isEmpty)).getD outer.table := by
      rw [hquery]
      rfl
    rw [hgroup, hprimary, Option.filter_some, if_pos (by simpa using hname)]
    rfl
  refine ⟨htable, fun hfrom hdistinct hopening => ?_⟩
  have hnamed : name = t :: names := by
    have hlength : rest.length - after.length = (t :: names).length := by
      rw [hnames, List.length_append, Nat.add_sub_cancel]
    show rest.take (rest.length - after.length) = _
    rw [hlength, hnames, List.take_left]
  obtain ⟨more, hcontinued, hmore⟩ :=
    Span.exists_continuation_append (hnamed ▸ hopening) (some w) after
  obtain ⟨short, tables, hlisted⟩ :=
    listedTables_append (hnames ▸ href) ht hcommas hmore
  have hfirst : Span.firstOf (Span.divide (front ++ w :: rest)) "FROM" =
      Span.continuation (some w) rest :=
    Span.firstOf_divide_from hfront hdepth hfrom hdistinct
  rw [← htokens, hnames, hcontinued] at hfirst
  rw [hclauses, htable]
  exact Query.head?_tables_parse hfirst hlisted

/-- A search for the users of some orders. -/
def usersOf : Query where
  table := "User"
  fields := ["id"]
  sql := "id IN (SELECT o.user_id FROM app.orders o WHERE o.status = $1)"

/-- The text that is nested in the search. -/
def usersOfNested : String :=
  "SELECT o.user_id FROM app.orders o WHERE o.status = $1"

/-- The nested query runs on the orders, by both readings. -/
theorem usersOf_attributed_to_orders :
    ∃ record ∈ (usersOf.parse [] true).nested.records,
      record.1.table = "orders" ∧ record.2.tables.head? = some "orders" := by
  obtain ⟨record, hrecords, hsql⟩ : ∃ record,
      (usersOf.parse [] true).nested.records = [record] ∧ record.1.sql = usersOfNested :=
    List.map_eq_singleton_iff.mp <|
      show (usersOf.parse [] true).nested.records.map (·.1.sql) = [usersOfNested] by
        decide +kernel
  have hmem : record ∈ (usersOf.parse [] true).nested.records := by
    rw [hrecords]
    exact List.mem_singleton_self record
  let tokens := statementTokens usersOfNested
  have hrest : (statementTokens record.1.sql).dropWhile (fun t => !Span.endsOutput t) =
      ⟨.word, "FROM", 17, 21, 0⟩ :: tokens.drop 5 := by
    rw [hsql]
    decide +kernel
  have href : ColumnRef.read? (tokens.drop 5) = some (⟨some "app", "orders"⟩, tokens.drop 8) := by
    decide +kernel
  obtain ⟨htable, hfrom⟩ := table_of_nested hmem hrest (by decide) href (by decide)
  have hfirst := hfrom (by decide) (by rw [hsql]; decide +kernel) (by decide +kernel)
  exact ⟨record, hmem, htable, hfirst.trans (congrArg some htable)⟩

/-- A search for users by a comparison of the status of their orders. -/
def ordersOf : Query where
  table := "User"
  fields := ["id"]
  sql := "EXISTS (SELECT o.status IS DISTINCT FROM previous FROM orders o WHERE o.user_id = $1)"

/-- **A wrong attribution.** The nested query selects from the orders and is attributed to a column
after `DISTINCT FROM`. -/
theorem ordersOf_attributed_to_previous :
    (ordersOf.parse [("Order", ["status", "user_id"])] true).nested.records.map
      (fun record => (record.1.table, record.2.tables)) = [("previous", ["orders"])] := by
  decide +kernel

end IndexAdvice
