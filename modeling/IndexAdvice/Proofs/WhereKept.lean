import IndexAdvice.Proofs.NestedQueries
import IndexAdvice.Proofs.WordsBefore

/-!
# Where the `WHERE` clause is kept

The condition of a query is what follows its first `WHERE` outside parentheses, up to the next
keyword that opens a clause (`Span.continuation`). It is read if the text starts with `WHERE` or
with a keyword of whole statements. A text that starts with `FROM` or a join is taken for a bare
condition, which is empty then, and stands for the `WHERE` clause in place of the real one:
`where_clause_kept` says both, and that the word `SELECT` in front brings the condition back.
-/

namespace IndexAdvice

open Text Token

/-- The words that may open a clause, by themselves or together with the next one. -/
def Keyword.opening : List String :=
  "JOIN" :: (setOperator ++ joinModifier ++ clause ++ paired.map (·.1))

namespace Span

variable {keyword : String} {phase : Phase} {before : Option Token} {t w : Token}
  {held front rest ts : List Token} {span : Span} {spans : List Span}

/-- The tokens that go on the open span, where `before` is the token before them. -/
def continuation (before : Option Token) : List Token → List Token
  | [] => []
  | t :: rest =>
    if opening before t rest = .nothing then t :: continuation (some t) rest else []

/-- Whether a token outside parentheses is `WHERE` or a set operator. -/
def endsSearch (t : Token) : Bool :=
  t.depth == 0 && t.isKeyword ("WHERE" :: Keyword.setOperator)

theorem firstOf_cons : firstOf (span :: spans) keyword =
    if span.keyword = keyword then span.tokens else firstOf spans keyword := by
  by_cases h : span.keyword = keyword
  · simp [firstOf, tokensOf, h]
  · simp [firstOf, tokensOf, h]

/-- The span that is open ends where the next one starts. -/
theorem firstOf_divideFrom (keyword : String) (before : Option Token) (held ts : List Token) :
    firstOf (divideFrom keyword .body before held ts) keyword =
      held.reverse ++ continuation before ts := by
  induction ts generalizing before held with
  | nil => simp [divideFrom, firstOf_cons, continuation]
  | cons t rest ih =>
    rw [divideFrom, continuation]
    cases h : opening before t rest with
    | nothing =>
      simp only [if_true]
      rw [ih, List.reverse_cons, List.append_assoc]
      rfl
    | _ => simp [firstOf_cons]

/-! ### The first clause of a keyword -/

/-- WHERE outside of all groups opens its clause, whatever came before. -/
theorem opening_where (hdepth : w.depth = 0) (hw : w.isKeyword ["WHERE"] = true)
    (before : Option Token) (rest : List Token) : opening before w rest = .clause "WHERE" := by
  have hkind := kind_of_isKeyword hw
  have hupper : w.upper = "WHERE" := by simpa [isKeyword, hkind] using hw
  simp [opening, hdepth, hkind, hupper, pair?, Keyword.setOperator, Keyword.paired,
    Keyword.joinModifier, Keyword.clause, List.lookup_cons]

/-- What is known about the opening of a token that is neither a given word nor a set operator. -/
def Opening.Passes (word : String) (t : Token) (rest : List Token) : Opening → Prop
  | .nothing => True
  | .stop => False
  | .pair next => next ≠ word ∧ rest.head?.any (·.isKeyword ["BY"]) = true
  | .join => startsJoin (t :: rest) = true
  | .clause next => next ≠ word

/-- A keyword of two words has a blank in it. -/
theorem blank_mem_of_pair? {next : String} (h : pair? t rest = some next) : ' ' ∈ next.toList := by
  unfold pair? at h
  split at h
  · split at h
    · rw [← Option.some.inj h]
      simp
    · cases h
  · cases h

/-- No pair makes a WHERE clause, and its second word is BY. -/
theorem pair?_passes {next : String} (h : pair? t rest = some next) :
    next ≠ "WHERE" ∧ rest.head?.any (·.isKeyword ["BY"]) = true := by
  refine ⟨fun hwhere => absurd (blank_mem_of_pair? h) (by rw [hwhere]; decide), ?_⟩
  unfold pair? at h
  split at h
  · rename_i second hlookup
    obtain rfl : second = "BY" := by
      obtain ⟨l₁, l₂, hpaired, -⟩ := List.lookup_eq_some_iff.mp hlookup
      have hmem : (t.upper, second) ∈ Keyword.paired := by
        rw [hpaired]
        exact List.mem_append_right l₁ List.mem_cons_self
      have hall : ∀ p ∈ Keyword.paired, p.2 = "BY" := by decide
      exact hall _ hmem
    split at h
    · assumption
    · cases h
  · cases h

/-- A token that is neither the word nor a set operator passes the word by. -/
theorem opening_passes {word : String} (hblank : ' ' ∉ word.toList)
    (ht : (t.depth == 0 && t.isKeyword (word :: Keyword.setOperator)) = false)
    (before : Option Token) (rest : List Token) : (opening before t rest).Passes word t rest := by
  have hfits := opening_fits before t rest
  revert hfits
  rw [opening]
  split
  · exact fun _ => trivial
  · rename_i hword
    simp only [Bool.or_eq_true, bne_iff_ne, not_or, not_not] at hword
    have hnot : ((word :: Keyword.setOperator).contains t.upper) = false := by
      simpa [isKeyword, hword.1, hword.2] using ht
    rw [List.contains_cons, Bool.or_eq_false_iff, beq_eq_false_iff_ne] at hnot
    rw [if_neg (by simpa using hnot.2)]
    split
    · rename_i next hpair
      refine fun _ => ⟨?_, (pair?_passes hpair).2⟩
      rintro rfl
      exact hblank (blank_mem_of_pair? hpair)
    · split
      · exact fun hfits => hfits
      · split
        · exact fun _ => hnot.1
        · exact fun _ => trivial

/-- **The first clause of a keyword.** Whatever stands before a word that opens the first clause of
its keyword, and no set operator does, the first span of the keyword is what goes on after it. -/
theorem firstOf_clause {word : String} (hblank : ' ' ∉ word.toList)
    (hword : word ∉ "BY" :: "JOIN" :: Keyword.joinModifier)
    (hfront : ∀ t ∈ front, (t.depth == 0 && t.isKeyword (word :: Keyword.setOperator)) = false)
    (hw : w.isKeyword [word] = true)
    (hopens : opening (front.getLast?.or before) w rest = .clause word) (hkeyword : keyword ≠ word)
    (hjoin : phase = .joinHead → startsJoin (front ++ w :: rest) = true)
    (hpair : phase = .pairTail → (front ++ w :: rest).head?.any (·.isKeyword ["BY"]) = true) :
    firstOf (divideFrom keyword phase before held (front ++ w :: rest)) word =
      continuation (some w) rest := by
  simp only [List.mem_cons, not_or] at hword
  have hother {keywords : List String} (h : w.isKeyword keywords = true) : word ∈ keywords := by
    have hkind := kind_of_isKeyword hw
    have hupper : w.upper = word := by simpa [isKeyword, hkind] using hw
    simpa [isKeyword, hkind, hupper] using h
  -- on the tokens before the word, none of which opens its clause or ends the statement
  induction front generalizing keyword phase before held with
  | nil =>
    cases phase with
    | pairTail =>
      have hby : w.isKeyword ["BY"] = true := hpair rfl
      exact absurd (List.mem_singleton.mp (hother hby)) hword.1
    | joinHead =>
      rcases (startsJoin_iff _ _).mp (hjoin rfl) with h | ⟨-, h, -⟩
      · exact absurd (List.mem_singleton.mp (hother h)) hword.2.1
      · exact absurd (hother h) hword.2.2
    | body =>
      have hopens : opening before w rest = .clause word := hopens
      rw [List.nil_append, divideFrom, hopens]
      simp only
      rw [firstOf_cons, if_neg hkeyword, firstOf_divideFrom]
      rfl
  | cons t front ih =>
    have hlast : (t :: front).getLast?.or before = front.getLast?.or (some t) := by
      rw [List.getLast?_cons]
      cases front.getLast? <;> rfl
    rw [hlast] at hopens
    have ih {keyword : String} {phase : Phase} {held : List Token} :=
      @ih keyword phase (some t) held (fun u hu => hfront u (List.mem_cons_of_mem t hu)) hopens
    have hhead (h : startsJoin (t :: (front ++ w :: rest)) = true)
        (hphase : afterJoinHead t = .joinHead) : startsJoin (front ++ w :: rest) = true :=
      startsJoin_tail h hphase
    have hafter := afterJoinHead_ne_pairTail t
    have hbody : Phase.body ≠ .joinHead ∧ Phase.body ≠ .pairTail := by decide
    rw [List.cons_append] at hjoin ⊢
    cases phase with
    | pairTail => exact ih hkeyword (absurd · hbody.1) (absurd · hbody.2)
    | joinHead => exact ih hkeyword (hhead (hjoin rfl)) (absurd · hafter)
    | body =>
      have hpasses := opening_passes hblank (hfront t List.mem_cons_self) before
        (front ++ w :: rest)
      rw [divideFrom]
      generalize opening before t (front ++ w :: rest) = o at hpasses
      cases o with
      | nothing => exact ih hkeyword (absurd · hbody.1) (absurd · hbody.2)
      | stop => exact hpasses.elim
      | pair next =>
        simp only
        rw [firstOf_cons, if_neg hkeyword]
        exact ih hpasses.1 (absurd · (by decide)) fun _ => hpasses.2
      | join =>
        simp only
        rw [firstOf_cons, if_neg hkeyword]
        exact ih (Ne.symm hword.2.1) (hhead hpasses) (absurd · hafter)
      | clause next =>
        simp only
        rw [firstOf_cons, if_neg hkeyword]
        exact ih hpasses (absurd · hbody.1) (absurd · hbody.2)

/-! ### The first `WHERE` -/

/-- Whatever stands before the first `WHERE` outside parentheses, and no set operator does, the
first `WHERE` span is what goes on after it. -/
theorem firstOf_where (hfront : ∀ t ∈ front, endsSearch t = false) (hdepth : w.depth = 0)
    (hw : w.isKeyword ["WHERE"] = true) (hkeyword : keyword ≠ "WHERE")
    (hjoin : phase = .joinHead → startsJoin (front ++ w :: rest) = true)
    (hpair : phase = .pairTail → (front ++ w :: rest).head?.any (·.isKeyword ["BY"]) = true) :
    firstOf (divideFrom keyword phase before held (front ++ w :: rest)) "WHERE" =
      continuation (some w) rest :=
  firstOf_clause (by decide) (by decide) hfront hw (opening_where hdepth hw _ _) hkeyword hjoin
    hpair

/-- A text that starts with `WHERE` or a keyword of whole statements has its first `WHERE` read. -/
theorem firstOf_divide_where (hfront : ∀ t ∈ front, endsSearch t = false) (hdepth : w.depth = 0)
    (hw : w.isKeyword ["WHERE"] = true) (hhead : ∀ t ∈ (front ++ w :: rest).head?, t.depth = 0)
    (hstart : (front ++ w :: rest).head?.any (·.isKeyword ("WHERE" :: Keyword.statement)) = true) :
    firstOf (divide (front ++ w :: rest)) "WHERE" = continuation (some w) rest := by
  cases front with
  | nil =>
    have hupper : w.upper = "WHERE" := by simpa [isKeyword, kind_of_isKeyword hw] using hw
    rw [List.nil_append, divide, if_pos (by simpa using hstart), hupper, firstOf_divideFrom]
    rfl
  | cons t front =>
    have hstart : t.isKeyword ("WHERE" :: Keyword.statement) = true := hstart
    have hkeyword : t.upper ≠ "WHERE" := by
      intro hupper
      have hends := hfront t List.mem_cons_self
      rw [endsSearch, hhead t rfl, isKeyword, kind_of_isKeyword hstart, hupper] at hends
      exact absurd hends (by decide)
    rw [List.cons_append, divide, if_pos hstart]
    exact firstOf_where (fun u hu => hfront u (List.mem_cons_of_mem t hu)) hdepth hw hkeyword
      (absurd · (by decide)) (absurd · (by decide))

/-! ### Texts that start with another clause -/

/-- Whether the tokens start with `FROM` or with a join. -/
def startsOther (tokens : List Token) : Bool :=
  tokens.head?.any (·.isKeyword ["FROM"]) || startsJoin tokens

/-- FROM opens its clause unless DISTINCT comes before it. -/
theorem opening_from (hdepth : t.depth = 0) (ht : t.isKeyword ["FROM"] = true)
    (hbefore : before.any (·.isKeyword ["DISTINCT"]) = false) (rest : List Token) :
    opening before t rest = .clause "FROM" := by
  have hkind := kind_of_isKeyword ht
  have hupper : t.upper = "FROM" := by simpa [isKeyword, hkind] using ht
  simp [opening, hdepth, hkind, hupper, hbefore, pair?, Keyword.setOperator, Keyword.paired,
    Keyword.joinModifier, Keyword.clause, List.lookup_cons]

/-- A word that opens nothing goes on the span that is open. -/
theorem opening_eq_nothing_of_not_mem (h : t.upper ∉ Keyword.opening) (before : Option Token)
    (rest : List Token) : opening before t rest = .nothing := by
  simp only [Keyword.opening, List.mem_cons, List.mem_append, not_or] at h
  obtain ⟨hjoin, ⟨⟨hset, hmodifier⟩, hclause⟩, hpaired⟩ := h
  have hpair : pair? t rest = none := by
    have hlookup : Keyword.paired.lookup t.upper = none :=
      List.lookup_eq_none_iff.mpr fun p hp => bne_iff_ne.mpr fun heq =>
        hpaired (List.mem_map.mpr ⟨p, hp, heq.symm⟩)
    rw [pair?, hlookup]
  rw [opening, hpair]
  simp [hjoin, hset, hmodifier, hclause]

/-- A join starts with a modifier or with JOIN itself. -/
theorem upper_of_startsJoin (h : startsJoin (t :: rest) = true) :
    t.kind = .word ∧ t.upper ∈ "JOIN" :: Keyword.joinModifier := by
  rw [List.mem_cons]
  rcases (startsJoin_iff _ _).mp h with hword | ⟨-, hword, -⟩
  · have hkind := kind_of_isKeyword hword
    exact ⟨hkind, .inl (by simpa [isKeyword, hkind] using hword)⟩
  · have hkind := kind_of_isKeyword hword
    exact ⟨hkind, .inr (by simpa [isKeyword, hkind] using hword)⟩

theorem opening_join (hdepth : t.depth = 0) (h : startsJoin (t :: rest) = true)
    (before : Option Token) : opening before t rest = .join := by
  obtain ⟨hkind, hupper⟩ := upper_of_startsJoin h
  -- none of these words is a set operator or the first of a pair
  have hset : ∀ word ∈ "JOIN" :: Keyword.joinModifier,
      Keyword.setOperator.contains word = false ∧ Keyword.paired.lookup word = none := by decide
  obtain ⟨hset, hpaired⟩ := hset _ hupper
  have hopens : (t.upper == "JOIN" || (Keyword.joinModifier.contains t.upper &&
      startsJoin (t :: rest))) = true := by
    rw [h, Bool.and_true, Bool.or_eq_true, beq_iff_eq, List.contains_iff_mem]
    exact List.mem_cons.mp hupper
  rw [opening, if_neg (by simp [hdepth, hkind]), hset, pair?, hpaired]
  simp only [Bool.false_eq_true, if_false, hopens, if_true]

/-- What starts with `FROM` or a join is divided as if an empty condition stood before it. -/
theorem divide_of_startsOther (hhead : ∀ t ∈ ts.head?, t.depth = 0) (h : startsOther ts = true) :
    ∃ spans, divide ts = ⟨"WHERE", []⟩ :: spans ∧
      divideFrom "SELECT" .body none [] ts = ⟨"SELECT", []⟩ :: spans := by
  cases ts with
  | nil => exact absurd h (by decide)
  | cons t rest =>
    have hdepth := hhead t rfl
    rw [startsOther, Bool.or_eq_true] at h
    have hnot {words : List String} (hupper : t.upper ∈ words)
        (hwords : ∀ word ∈ words, ("WHERE" :: Keyword.statement).contains word = false) :
        ¬ t.isKeyword ("WHERE" :: Keyword.statement) = true := by
      rw [isKeyword, hwords _ hupper, Bool.and_false]
      exact Bool.false_ne_true
    rcases h with hfrom | hjoin
    · have hfrom : t.isKeyword ["FROM"] = true := hfrom
      have hupper : t.upper ∈ ["FROM"] := by simpa [isKeyword, kind_of_isKeyword hfrom] using hfrom
      rw [divide, if_neg (hnot hupper (by decide)), divideFrom, divideFrom,
        opening_from hdepth hfrom rfl]
      exact ⟨_, rfl, rfl⟩
    · rw [divide, if_neg (hnot (upper_of_startsJoin hjoin).2 (by decide)), divideFrom, divideFrom,
        opening_join hdepth hjoin]
      exact ⟨_, rfl, rfl⟩

end Span

/-! ### The first token -/

/-- A query text does not start inside parentheses. -/
theorem depth_of_mem_head? {sql : String} {t : Token} (ht : t ∈ (statementTokens sql).head?) :
    t.depth = 0 := by
  have hlocate (ps : List Piece) (start : Nat) (t : Token) (ht : t ∈ (locate start 0 ps).head?) :
      t.depth = 0 := by
    induction ps generalizing start with
    | nil => exact absurd ht (by simp [locate])
    | cons p ps ih =>
      obtain ⟨kind, text⟩ := p
      cases kind with
      | none => exact ih _ (by rwa [locate_none] at ht)
      | some kind =>
        rw [locate_some, List.head?_cons, Option.mem_some_iff] at ht
        simp [← ht, ofPiece]
  obtain ⟨semis, -, hsemis⟩ := statementTokens_append sql
  refine hlocate (Piece.ofText sql.toList) 0 t ?_
  rw [← tokenize, hsemis, List.head?_append, Option.mem_def.mp ht]
  rfl

/-! ### The clause -/

theorem Predicate.branches_nil (scope : Scope) (splitOr : Bool) :
    branches scope splitOr [] = ([], false) := by
  simp [branches, alternatives, cutFrom, flush]

/-- The word that selects. -/
def Word.selectWord : Word := ⟨.word, ['S', 'E', 'L', 'E', 'C', 'T'], by decide⟩

/-- The sign for all columns. -/
def Word.starWord : Word := ⟨.star, ['*'], by decide⟩

/-- The query with a select list of all columns in front of its text. -/
def Query.selectAll (query : Query) : Query :=
  { query with sql := "SELECT * " ++ query.sql }

theorem Query.selectAll_eq (query : Query) :
    query.selectAll = query.withWords [Word.selectWord, Word.starWord] := by
  have hsql : "SELECT * " ++ query.sql = String.ofList
      (Word.print [Word.selectWord, Word.starWord] ++ ' ' :: query.sql.toList) := by
    rw [← String.toList_inj, String.toList_append]
    exact String.toList_ofList.symm
  rw [selectAll, withWords, hsql]

/-- What starts with `FROM` or a join keeps its clauses when the words are put in front. -/
theorem Query.divide_selectAll {query : Query} {spans : List Span}
    (h : Span.divideFrom "SELECT" .body none [] (statementTokens query.sql) =
      ⟨"SELECT", []⟩ :: spans) :
    ∃ span spans', Span.divide (statementTokens query.selectAll.sql) = span :: spans' ∧
      span.keyword = "SELECT" ∧ List.Forall₂ (Span.Restated 9) spans spans' := by
  obtain ⟨ts', htokens, hrestated⟩ := statementTokens_withWords
    [Word.selectWord, Word.starWord] (by decide) query
  rw [← Query.selectAll_eq] at htokens
  let select : Token := ofPiece .word ['S', 'E', 'L', 'E', 'C', 'T'] 0 0
  let star : Token := ofPiece .star ['*'] 7 0
  have hfront : statementTokens query.selectAll.sql = select :: star :: ts' := htokens
  have hdivided : List.Forall₂ (Span.Restated 9)
      (Span.divideFrom "SELECT" .body none [] (statementTokens query.sql))
      (Span.divideFrom "SELECT" .body (some star) [] ts') :=
    Span.restated_divideFrom "SELECT" .body .nil hrestated rfl
  rw [h] at hdivided
  obtain ⟨span, spans', hspan, hspans, hdivided⟩ := List.forall₂_cons_left_iff.mp hdivided
  refine ⟨{ span with tokens := [star] ++ span.tokens }, spans', ?_, hspan.keyword.symm, hspans⟩
  have hselect : select.isKeyword ("WHERE" :: Keyword.statement) = true := by decide
  have hupper : select.upper = "SELECT" := by decide
  rw [hfront, Span.divide, if_pos hselect, hupper, Span.divideFrom,
    Span.opening_eq_nothing_of_ne (.inr (by decide))]
  simp only
  rw [Span.divideFrom_eq_prepend, hdivided]
  rfl

/-- The text with the words in front has the branches of its clauses, nine characters further on. -/
theorem Query.restated_selectAll (catalog : Catalog) (splitOr : Bool) {query : Query}
    {spans : List Span}
    (hdivide : Span.divide (statementTokens query.sql) = ⟨"WHERE", []⟩ :: spans)
    (hselect : Span.divideFrom "SELECT" .body none [] (statementTokens query.sql) =
      ⟨"SELECT", []⟩ :: spans) :
    let read := Predicate.branches
      (Scope.ofClauses query query.groups (Span.divide (statementTokens query.sql))) splitOr
      (Span.firstOf spans "WHERE")
    let selected := (query.selectAll.parse catalog splitOr).clauses
    List.Forall₂ (List.Forall₂ (Predicate.Restated 9 Eq)) read.1 selected.branches ∧
      read.2 = selected.hasOr := by
  intro read selected
  obtain ⟨span, spans', hdivide', hspan, hspans⟩ := Query.divide_selectAll hselect
  have hslice (i j : Nat) : String.ofList (slice query.sql.toList i j) =
      String.ofList (slice query.selectAll.sql.toList (i + 9) (j + 9)) := by
    rw [Query.selectAll_eq]
    exact congrArg String.ofList (slice_withWords query i j).symm
  have hjoins : ∀ ts ∈ Span.tokensOf spans "JOIN", ts ≠ [] := fun ts hts =>
    Span.ne_nil_of_mem_joins (statementTokens query.sql) ts (by rw [hdivide]; exact hts)
  have hscope : Scope.Restates 9 Eq
      (Scope.ofClauses query query.groups (Span.divide (statementTokens query.sql)))
      (Scope.ofClauses query.selectAll query.selectAll.groups
        (Span.divide (statementTokens query.selectAll.sql))) := by
    rw [hdivide, hdivide', Scope.ofClauses_cons (by decide),
      Scope.ofClauses_cons (hspan ▸ by decide)]
    exact Scope.restates_ofClauses _ _ rfl rfl hslice hspans hjoins
  obtain ⟨hselected, hselectedOr⟩ := Clauses.branches_ofTokens splitOr query.selectAll
    (statementTokens query.selectAll.sql) query.selectAll.groups
  have hfirst : Span.firstOf (Span.divide (statementTokens query.selectAll.sql)) "WHERE" =
      Span.firstOf spans' "WHERE" := by
    rw [hdivide', Span.firstOf_cons, if_neg (hspan ▸ by decide)]
  rw [← Query.clauses_parse catalog, hfirst] at hselected hselectedOr
  have hread := Predicate.restated_branches hscope splitOr (Span.restated_firstOf hspans "WHERE")
  rwa [← hselected, ← hselectedOr] at hread

/-- **Where the `WHERE` clause is kept.** Say that `w` is the first `WHERE` of a text, outside
parentheses and before any set operator. If the text starts with `WHERE` or a keyword of whole
statements, its branches are those of the condition after `w`. If it starts with `FROM` or a join,
it has no branches, while the same text after `SELECT *` has those of the condition, nine characters
further on. -/
theorem where_clause_kept (catalog : Catalog) (splitOr : Bool) (query : Query) {w : Token}
    {rest : List Token} (hw : w.isKeyword ["WHERE"] = true)
    (hrest : (statementTokens query.sql).dropWhile (fun t => !Span.endsSearch t) = w :: rest) :
    let tokens := statementTokens query.sql
    let clauses := (query.parse catalog splitOr).clauses
    let selected := (query.selectAll.parse catalog splitOr).clauses
    let condition := Predicate.branches (Scope.ofClauses query query.groups (Span.divide tokens))
      splitOr (Span.continuation (some w) rest)
    (tokens.head?.any (·.isKeyword ("WHERE" :: Keyword.statement)) = true →
      clauses.branches = condition.1 ∧ clauses.hasOr = condition.2) ∧
    (Span.startsOther tokens = true →
      clauses.branches = [] ∧ clauses.hasOr = false ∧
        List.Forall₂ (List.Forall₂ (Predicate.Restated 9 Eq)) condition.1 selected.branches ∧
        condition.2 = selected.hasOr) := by
  intro tokens clauses selected condition
  obtain ⟨hbranches, hhasOr⟩ := Clauses.branches_ofTokens splitOr query tokens query.groups
  rw [← Query.clauses_parse catalog] at hbranches hhasOr
  -- what stands before the first `WHERE`
  let front := tokens.takeWhile fun t => !Span.endsSearch t
  have htokens : tokens = front ++ w :: rest := by
    rw [← hrest, List.takeWhile_append_dropWhile]
  have hfront : ∀ t ∈ front, Span.endsSearch t = false := fun t ht => by
    simpa using List.all_eq_true.mp List.all_takeWhile t ht
  have hdepth : w.depth = 0 := by
    have hfound := JoinTarget.head?_dropWhile_not Span.endsSearch tokens
    rw [hrest, List.head?_cons, eq_comm] at hfound
    have hends := List.find?_some hfound
    rw [Span.endsSearch, Bool.and_eq_true, beq_iff_eq] at hends
    exact hends.1
  have hhead : ∀ t ∈ tokens.head?, t.depth = 0 := fun _ => depth_of_mem_head?
  constructor
  · intro hstart
    rw [htokens] at hhead hstart
    have hfirst := Span.firstOf_divide_where hfront hdepth hw hhead hstart
    rw [← htokens] at hfirst
    rw [hfirst] at hbranches hhasOr
    exact ⟨hbranches, hhasOr⟩
  · intro hstart
    obtain ⟨spans, hdivide, hselect⟩ := Span.divide_of_startsOther hhead hstart
    have hempty : Span.firstOf (Span.divide tokens) "WHERE" = [] := by
      rw [hdivide, Span.firstOf_cons]
      rfl
    rw [hempty, Predicate.branches_nil] at hbranches hhasOr
    -- the condition is the first `WHERE` clause of what follows the empty one
    have hcondition : Span.continuation (some w) rest = Span.firstOf spans "WHERE" := by
      have hfirst : Span.firstOf (Span.divideFrom "SELECT" .body none [] (front ++ w :: rest))
          "WHERE" = Span.continuation (some w) rest :=
        Span.firstOf_where hfront hdepth hw (by decide) (absurd · (by decide))
          (absurd · (by decide))
      rw [← htokens, hselect, Span.firstOf_cons, if_neg (by decide)] at hfirst
      exact hfirst.symm
    have hread := Query.restated_selectAll catalog splitOr hdivide hselect
    rw [← hcondition] at hread
    exact ⟨hbranches, hhasOr, hread⟩

/-- A search for a user that leaves its select list out. -/
def fromSearch : Query where
  table := "User"
  fields := ["id"]
  sql := "FROM users WHERE id = $1"

/-- **The `WHERE` clause may be lost.** The search starts with `FROM` and has a `WHERE` outside
parentheses, but no branch of a condition; with `SELECT *` in front it has one. -/
theorem fromSearch_where_lost :
    let tokens := statementTokens fromSearch.sql
    tokens.head?.any (·.isKeyword ["FROM"]) = true ∧
      (tokens.any fun t => t.depth == 0 && t.isKeyword ["WHERE"]) = true ∧
      (fromSearch.parse [] true).clauses.branches = [] ∧
      (fromSearch.selectAll.parse [] true).clauses.branches.map (List.map Predicate.essence) =
        [[{ column := some "id", kind := .equality, operator := "=" }]] := by
  decide +kernel

/-- The `WHERE` of the search. -/
def fromSearchWhere : Token := ⟨.word, "WHERE", 11, 16, 0⟩

/-- The condition of the search. -/
def fromSearchCondition : List Token :=
  [⟨.word, "id", 17, 19, 0⟩, ⟨.operator, "=", 20, 21, 0⟩, ⟨.placeholder, "$1", 22, 24, 0⟩]

/-- The search loses the branch of its condition, and has it after `SELECT *`. -/
theorem fromSearch_where_restored :
    let tokens := statementTokens fromSearch.sql
    let condition := Predicate.branches
      (Scope.ofClauses fromSearch fromSearch.groups (Span.divide tokens)) true
      (Span.continuation (some fromSearchWhere) fromSearchCondition)
    (tokens.dropWhile fun t => !Span.endsSearch t) = fromSearchWhere :: fromSearchCondition ∧
      Span.startsOther tokens = true ∧ condition.1.length = 1 ∧
      (fromSearch.parse [] true).clauses.branches = [] ∧
      List.Forall₂ (List.Forall₂ (Predicate.Restated 9 Eq)) condition.1
        (fromSearch.selectAll.parse [] true).clauses.branches := by
  intro tokens condition
  obtain ⟨hrest, hstart, hcondition⟩ :
      (tokens.dropWhile fun t => !Span.endsSearch t) = fromSearchWhere :: fromSearchCondition ∧
        Span.startsOther tokens = true ∧ condition.1.length = 1 := by
    decide +kernel
  obtain ⟨hlost, -, hrestored, -⟩ :=
    (where_clause_kept [] true fromSearch (by decide) hrest).2 hstart
  exact ⟨hrest, hstart, hcondition, hlost, hrestored⟩

end IndexAdvice
