import IndexAdvice.Proofs.PrintedTokens
import IndexAdvice.Proofs.Records

/-!
# Conditions after `WHERE`

The text of a printed condition after the word `WHERE` is one clause: no token outside its
parentheses opens another clause, so its tokens are those of the `WHERE` span and the scope knows no
table but the query's own.
-/

namespace IndexAdvice

open Token

/-! ### The words of printed conditions -/

section Words

variable {s d : Nat} {t : Token} {ps : List Piece}

/-- The keywords that end a condition. -/
def Keyword.ending : List String := "JOIN" :: (clause ++ setOperator)

/-- No token outside the parentheses of a printed condition ends it. -/
theorem Piece.Printed.isKeyword_ending (h : Printed ps) (ht : t ∈ locate s d ps)
    (hdepth : t.depth = 0) : t.isKeyword Keyword.ending = false := by
  refine h.forall_locate (P := fun t => t.depth = 0 → t.isKeyword Keyword.ending = false)
    ?_ ?_ ?_ ?_ s d t ht hdepth
  · intro a s d t ht hdepth
    rw [(Printed.atom a).balanced.locate_eq] at ht
    obtain ⟨u, hu, rfl⟩ := List.mem_map.mp ht
    rw [depth_shift] at hdepth
    rw [isKeyword_shift]
    refine isKeyword_eq_false_of_subset ?_ (a.isAtomic.undivided u hu (by omega))
    exact List.subset_cons_self _ _
  · rintro w (rfl | rfl) s d - <;> rw [isKeyword_ofPiece] <;> decide
  · exact fun s d _ => rfl
  · exact fun s d _ => rfl

/-- A printed condition does not start as a nested query does. -/
theorem Piece.Printed.head_not_nested (h : Printed ps) (s d : Nat) :
    (locate s d ps).head?.any (fun t => !t.isKeyword Keyword.nested) = true := by
  induction h generalizing s d with
  | atom a =>
    have hbal := (Printed.atom a).balanced
    obtain ⟨t, ts, hts⟩ := List.exists_cons_of_ne_nil (a.locate_ne_nil 0 0)
    have hselect : t.isKeyword ["SELECT"] = false := by
      refine isKeyword_eq_false_of_subset ?_
        (a.isAtomic.undivided t (hts ▸ List.mem_cons_self) (hbal.depth_head hts))
      decide
    have hwith : t.isKeyword ["WITH"] = false := by
      have := a.isAtomic.unnested
      rwa [hts, List.head?_cons, Option.any_some] at this
    -- neither keyword starts an atom: SELECT would divide it, and WITH is excluded by name
    have hboth : t.isKeyword Keyword.nested = (t.isKeyword ["SELECT"] || t.isKeyword ["WITH"]) := by
      simp [isKeyword, Keyword.nested, Bool.and_or_distrib_left]
    rw [hbal.locate_eq, hts, List.map_cons, List.head?_cons, Option.any_some, isKeyword_shift,
      hboth, hselect, hwith]
    rfl
  | join hw h _ ih _ =>
    obtain ⟨t, ts, hts⟩ := List.exists_cons_of_ne_nil (h.ne_nil s d)
    have hhead := ih s d
    rw [hts] at hhead
    rw [locate_join h.balanced (kind_eq_word hw), hts]
    exact hhead
  | group pad h _ =>
    rw [locate_group h.balanced]
    rfl

/-- No two tokens of a printed condition outside its parentheses make a clause keyword. -/
theorem Piece.Printed.isChain_unpaired (h : Printed ps) (s d : Nat) :
    (locate s d ps).IsChain Unpaired := by
  induction h generalizing s d with
  | atom a =>
    rw [(Printed.atom a).balanced.locate_eq]
    refine List.isChain_map_of_isChain (shift s d) ?_ a.isAtomic.unpaired
    intro t u hpair hdepth
    rw [depth_shift] at hdepth
    exact hpair (by omega)
  | @join w ps qs hw h _ ih ih' =>
    rw [locate_join h.balanced (kind_eq_word hw), List.isChain_append]
    refine ⟨ih s d, ?_, ?_⟩
    · -- the connective is no first word of a pair
      refine List.isChain_cons.mpr ⟨?_, ih' _ _⟩
      intro u _ _ hkey
      rw [isKeyword_ofPiece] at hkey
      rcases hw with rfl | rfl
      · exact absurd hkey (by decide)
      · exact absurd hkey (by decide)
    · intro t _ u hu _ _
      obtain rfl := Option.mem_some_iff.mp hu
      rw [isKeyword_ofPiece]
      rcases hw with rfl | rfl <;> decide
  | group pad h ih =>
    rw [locate_group h.balanced, List.isChain_cons]
    refine ⟨fun u _ _ hkey => absurd hkey (by simp [isKeyword, ofPiece]), ?_⟩
    rw [List.isChain_append]
    refine ⟨ih _ _, List.isChain_singleton _, ?_⟩
    intro t _ u hu _ _
    obtain rfl := Option.mem_some_iff.mp hu
    rfl

end Words

/-! ### One span -/

namespace Span

variable {s d : Nat} {t : Token} {rest : List Token} {before : Option Token} {ps : List Piece}

/-- A word outside of all groups is no pair with what follows if the two are not listed as one. -/
theorem pair?_eq_none (hpair : ∀ u ∈ rest.head?, Unpaired t u) (hdepth : t.depth = 0)
    (hword : t.kind = .word) : pair? t rest = none := by
  rw [pair?]
  cases hlook : Keyword.paired.lookup t.upper with
  | none => rfl
  | some second =>
    obtain ⟨l₁, l₂, hpaired, -⟩ := List.lookup_eq_some_iff.mp hlook
    have hmem : (t.upper, second) ∈ Keyword.paired := by
      rw [hpaired]
      exact List.mem_append_right l₁ List.mem_cons_self
    obtain ⟨hfirst, rfl⟩ : t.isKeyword ["GROUP", "ORDER"] = true ∧ second = "BY" := by
      rw [isKeyword, hword]
      rcases List.mem_cons.mp hmem with heq | hmem
      · obtain ⟨h, rfl⟩ := Prod.mk.inj heq
        exact ⟨by rw [h]; decide, rfl⟩
      · obtain ⟨h, rfl⟩ := Prod.mk.inj (List.mem_singleton.mp hmem)
        exact ⟨by rw [h]; decide, rfl⟩
    refine if_neg ?_
    rw [Option.any_eq_true]
    rintro ⟨u, hu, hby⟩
    rw [hpair u hu hdepth hfirst] at hby
    exact Bool.false_ne_true hby

/-- Words that are no `JOIN` outside parentheses start no join. -/
theorem startsJoin_locate (h : ∀ t ∈ locate s 0 ps, t.depth = 0 → t.isKeyword ["JOIN"] = false) :
    startsJoin (locate s 0 ps) = false := by
  induction ps generalizing s with
  | nil => rfl
  | cons p ps ih =>
    obtain ⟨kind, text⟩ := p
    cases kind with
    | none =>
      rw [locate_none] at h ⊢
      exact ih h
    | some kind =>
      rw [locate_some] at h ⊢
      rw [startsJoin, List.dropWhile_cons]
      split
      · next hmodifier =>
        -- a modifier is a word, and the token after it is at the same depth
        have hword := kind_of_isKeyword (Bool.and_eq_true_iff.mp hmodifier).2
        obtain rfl : kind = .word := hword
        exact ih fun t ht => h t (List.mem_cons_of_mem _ ht)
      · rw [List.head?_cons, Option.any_some, Bool.eq_false_iff]
        intro hjoin
        obtain rfl : kind = .word := kind_of_isKeyword hjoin
        exact absurd hjoin (Bool.eq_false_iff.mp (h _ List.mem_cons_self rfl))

/-- A token that ends no condition goes on the span that is open. -/
theorem opening_eq_nothing (hkey : t.depth = 0 → t.isKeyword Keyword.ending = false)
    (hpair : ∀ u ∈ rest.head?, Unpaired t u)
    (hjoin : t.depth = 0 → t.kind = .word → startsJoin (t :: rest) = false) :
    opening before t rest = .nothing := by
  rw [opening]
  by_cases houter : (t.depth != 0 || t.kind != .word) = true
  · rw [if_pos houter]
  · rw [if_neg houter]
    -- each of the remaining rules needs a keyword that the token is not
    rw [Bool.or_eq_true, not_or, bne_iff_ne, bne_iff_ne, not_not, not_not] at houter
    obtain ⟨hdepth, hword⟩ := houter
    have hnot {keywords : List String} (hsub : keywords ⊆ Keyword.ending) :
        keywords.contains t.upper = false := by
      have := isKeyword_eq_false_of_subset hsub (hkey hdepth)
      rwa [isKeyword, hword, beq_self_eq_true, Bool.true_and] at this
    have hset := @hnot Keyword.setOperator (by decide)
    have hclause := @hnot Keyword.clause (by decide)
    have hname := @hnot ["JOIN"] (by decide)
    rw [List.contains_cons, List.contains_nil, Bool.or_false] at hname
    rw [hset, pair?_eq_none hpair hdepth hword, hjoin hdepth hword, hclause, hname]
    simp

/-- **The span of a condition** reaches to its end. -/
theorem divideFrom_locate (keyword : String) (held : List Token)
    (hkey : ∀ t ∈ locate s d ps, t.depth = 0 → t.isKeyword Keyword.ending = false)
    (hpair : (locate s d ps).IsChain Unpaired) :
    divideFrom keyword .body before held (locate s d ps) =
      [⟨keyword, held.reverse ++ locate s d ps⟩] := by
  -- no token opens a clause, so all are held for the one that is being read
  induction ps generalizing s d before held with
  | nil => simp [locate, divideFrom]
  | cons p ps ih =>
    obtain ⟨kind, text⟩ := p
    cases kind with
    | none =>
      rw [locate_none] at hkey hpair ⊢
      exact ih held hkey hpair
    | some kind =>
      have hall := hkey
      rw [locate_some] at hkey hpair ⊢
      have hopening : opening before (ofPiece kind text s d)
          (locate (s + text.length) (depthAfter d kind) ps) = .nothing := by
        refine opening_eq_nothing (hkey _ List.mem_cons_self) ?_ ?_
        · exact fun u hu => (List.isChain_cons.mp hpair).1 u hu
        · intro hdepth hword
          obtain rfl : kind = .word := hword
          obtain rfl : d = 0 := hdepth
          rw [← locate_some]
          exact startsJoin_locate fun t ht hzero =>
            isKeyword_eq_false_of_subset (by decide) (hall t ht hzero)
      rw [divideFrom]
      simp only [hopening]
      rw [ih (ofPiece kind text s d :: held) (fun t ht => hkey t (List.mem_cons_of_mem _ ht))
        (List.isChain_cons.mp hpair).2, List.reverse_cons, List.append_assoc,
        List.singleton_append]

end Span

/-! ### The clause -/

/-- The query with a condition for its text. -/
def Query.withCondition (query : Query) (condition : List Char) : Query :=
  { query with sql := "WHERE " ++ String.ofList condition }

section Clause

variable {ps : List Piece}

/-- A text without semicolons is all statement. -/
theorem statementTokens_eq_self {sql : String}
    (h : ∀ t ∈ tokenize sql, t.kind ≠ .semicolon) : statementTokens sql = tokenize sql := by
  rw [statementTokens]
  rcases hrev : (tokenize sql).reverse with _ | ⟨t, ts⟩
  · rw [← List.reverse_reverse (tokenize sql), hrev]
    rfl
  · have ht : t ∈ tokenize sql := by
      rw [← List.mem_reverse, hrev]
      exact List.mem_cons_self
    have hkind : ¬ (t.kind == .semicolon) = true := by simpa using h t ht
    rw [List.dropWhile_cons, if_neg hkind, ← hrev, List.reverse_reverse]

theorem toList_where (condition : List Char) :
    ("WHERE " ++ String.ofList condition).toList = Word.whereWord.text ++ ' ' :: condition := by
  rw [String.toList_append, String.toList_ofList, String.toList_ofList]
  rfl

/-- The tokens of a printed condition after `WHERE`. -/
theorem statementTokens_where (h : Piece.Printed ps) :
    statementTokens ("WHERE " ++ String.ofList (ps.flatMap Piece.text)) =
      ofPiece .word Word.whereWord.text 0 0 :: locate 6 0 ps := by
  have htokens : tokenize ("WHERE " ++ String.ofList (ps.flatMap Piece.text)) =
      ofPiece .word Word.whereWord.text 0 0 :: locate 6 0 ps := by
    rw [tokenize, toList_where, h.isCut.ofText_where, Word.piece,
      locate_some, Piece.space, locate_none]
    rfl
  rw [statementTokens_eq_self, htokens]
  rw [htokens]
  intro t ht
  rcases List.mem_cons.mp ht with rfl | ht
  · exact fun hkind => by simp [ofPiece] at hkind
  · exact h.kind_ne_semicolon ht

/-- A printed condition after WHERE is the one clause of the statement. -/
theorem divide_where (h : Piece.Printed ps) :
    Span.divide (ofPiece .word Word.whereWord.text 0 0 :: locate 6 0 ps) =
      [⟨"WHERE", locate 6 0 ps⟩] := by
  have hkey : (ofPiece .word Word.whereWord.text 0 0).isKeyword
      ("WHERE" :: Keyword.statement) = true := by decide
  have hname : (ofPiece .word Word.whereWord.text 0 0).upper = "WHERE" := by decide
  rw [Span.divide, if_pos hkey, hname,
    Span.divideFrom_locate _ _ (fun t ht => h.isKeyword_ending ht) (h.isChain_unpaired 6 0)]
  rfl

/-- The scope of a condition that stands alone knows the fields and the names of the query's own
table only. -/
structure Scope.IsAlone (scope : Scope) (query : Query) (condition : List Char) : Prop where
  sql_eq : scope.sql = Word.whereWord.text ++ ' ' :: condition
  fields_eq : scope.fields = query.fields
  ownNames_eq : scope.ownNames = ownQualifiers query.table [] []

/-- **A printed condition** is read as the `WHERE` clause that it is. -/
theorem exists_scope_where (catalog : Catalog) (query : Query) (h : Piece.Printed ps) :
    let clauses := ((query.withCondition (ps.flatMap Piece.text)).parse catalog true).clauses
    ∃ scope : Scope, scope.IsAlone query (ps.flatMap Piece.text) ∧
      clauses.branches = ((alternatives (locate 6 0 ps)).map
        (Predicate.ofConjunction scope)).filter (!·.isEmpty) ∧
      clauses.hasOr = decide (1 < (alternatives (locate 6 0 ps)).length) := by
  intro clauses
  have hclauses : clauses = Clauses.ofTokens true (query.withCondition (ps.flatMap Piece.text))
      (ofPiece .word Word.whereWord.text 0 0 :: locate 6 0 ps)
      (query.withCondition (ps.flatMap Piece.text)).groups := by
    rw [← statementTokens_where h]
    exact Query.clauses_parse catalog true _
  refine ⟨Scope.ofSpans (query.withCondition (ps.flatMap Piece.text))
    (query.withCondition (ps.flatMap Piece.text)).groups [] [], ⟨?_, rfl, rfl⟩, ?_⟩
  · exact toList_where (ps.flatMap Piece.text)
  · rw [hclauses, Clauses.ofTokens, divide_where h]
    simp [Span.tokensOf, Span.firstOf, Predicate.branches]

end Clause

end IndexAdvice
