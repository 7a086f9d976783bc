import IndexAdvice.Proofs.RestatedClauses
import IndexAdvice.Proofs.SourceOrder

/-!
# Scopes that agree on some tokens

The readers of clauses look into a scope for the columns and qualifiers it knows, for the text that
tokens cover, and for whether a token lies in a nested query. Two scopes that say the same of this
for some tokens (`Scope.AgreeOn`) have every clause read alike that is made of these tokens, letter
by letter (`Clauses.readIn_of_agreeOn`): what else the query texts hold makes no difference.
-/

namespace IndexAdvice

open Token

variable {ts part : List Token} {scope scope' : Scope}

/-- Scopes that are the same as far as reading the tokens `ts` goes. -/
structure Scope.AgreeOn (ts : List Token) (scope scope' : Scope) : Prop where
  fields : scope.fields = scope'.fields
  aliases : scope.aliases = scope'.aliases
  ownNames : scope.ownNames = scope'.ownNames
  text : ∀ part : List Token, part ⊆ ts → scope.text part = scope'.text part
  inNested : ∀ t ∈ ts, scope.inNested t = scope'.inNested t

theorem Scope.AgreeOn.resolve (h : AgreeOn ts scope scope') : scope.resolve = scope'.resolve := by
  funext ref
  simp only [Scope.resolve, Scope.field?, h.fields, h.ownNames]

/-! ### Conditions -/

namespace Predicate

/-- The text of a condition is cut from the query's text, where the scopes agree. -/
theorem opaqueOf_of_agreeOn (h : Scope.AgreeOn ts scope scope') (hpart : part ⊆ ts) :
    opaqueOf scope part = opaqueOf scope' part := by
  simp only [opaqueOf, h.text part hpart]

theorem classify_of_agreeOn (h : Scope.AgreeOn ts scope scope') (hpart : part ⊆ ts) :
    classify scope part = classify scope' part := by
  rw [classify, classify, opaqueOf_of_agreeOn h hpart, h.resolve]
  cases hread : ColumnRef.read? part with
  | none => rfl
  | some read =>
    obtain ⟨ref, _ | ⟨op, rhs⟩⟩ := read
    · rfl
    · have hsuffix := (List.suffix_cons op rhs).trans (ColumnRef.suffix_of_read? hread)
      simp only [h.text rhs (List.Subset.trans hsuffix.subset hpart)]

/-- A conjunction within the tokens agreed on is read alike, group by group. -/
theorem ofConjunction_of_agreeOn (h : Scope.AgreeOn ts scope scope') (hpart : part ⊆ ts) :
    ofConjunction scope part = ofConjunction scope' part := by
  induction part using conjunctionInduction with
  | step tokens ih =>
    rw [ofConjunction_eq, ofConjunction_eq]
    refine List.flatMap_congr fun conjunct hconjunct => ?_
    have hsub : conjunct ⊆ ts :=
      List.Subset.trans ((inOrder_conjuncts tokens).infix_of_mem hconjunct).subset hpart
    have hinside : conjunct.tail.dropLast ⊆ ts :=
      List.Subset.trans
        (List.Subset.trans (List.dropLast_subset _) (List.tail_subset conjunct)) hsub
    rw [ih conjunct hconjunct hinside, opaqueOf_of_agreeOn h hsub, classify_of_agreeOn h hsub]

theorem branches_of_agreeOn (h : Scope.AgreeOn ts scope scope') (splitOr : Bool)
    (hpart : part ⊆ ts) : branches scope splitOr part = branches scope' splitOr part := by
  have hmap : (alternatives part).map (ofConjunction scope) =
      (alternatives part).map (ofConjunction scope') :=
    List.map_congr_left fun operand hoperand => ofConjunction_of_agreeOn h <|
      List.Subset.trans ((inOrder_alternatives part).infix_of_mem hoperand).subset hpart
  simp only [branches, opaqueOf_of_agreeOn h hpart, hmap]

theorem having_of_agreeOn (h : Scope.AgreeOn ts scope scope') (hpart : part ⊆ ts) :
    having scope part = having scope' part := by
  simp only [having, opaqueOf_of_agreeOn h hpart, ofConjunction_of_agreeOn h hpart]

end Predicate

/-! ### Joins -/

namespace JoinTarget

theorem readTable_suffix (tokens : List Token) : (readTable tokens).2.2 <:+ tokens := by
  unfold readTable
  split
  · exact List.nil_suffix
  · next t rest =>
    split
    · refine List.IsSuffix.trans ?_ (List.suffix_cons t rest)
      rw [afterGroup]
      split
      · exact List.drop_suffix _ _
      · exact List.nil_suffix
    · split
      · exact ColumnRef.suffix_of_read? ‹_›
      · exact List.suffix_refl _

theorem readCondition_suffix (tokens : List Token) : (readCondition tokens).1 <:+ tokens := by
  have hdrop := List.dropWhile_suffix (l := tokens) fun t => !t.isKeyword ["ON", "USING"]
  rw [readCondition]
  revert hdrop
  cases tokens.dropWhile fun t => !t.isKeyword ["ON", "USING"] with
  | nil => exact fun _ => List.nil_suffix
  | cons t rest =>
    intro hdrop
    simp only
    split
    · exact (List.suffix_cons t rest).trans hdrop
    · exact List.nil_suffix

/-- The condition of a join stands at its end. -/
theorem condition_suffix (tokens : List Token) : (ofSpan tokens).condition <:+ tokens := by
  have hskip (tokens : List Token) : skipKeyword "LATERAL" tokens <:+ tokens := by
    unfold skipKeyword
    split
    · split
      · exact List.suffix_cons _ _
      · exact List.suffix_refl _
    · exact List.nil_suffix
  rw [ofSpan]
  exact (readCondition_suffix _).trans ((readTable_suffix _).trans
    ((hskip _).trans (List.drop_suffix _ _)))

/-- The condition of a join is part of its clause. -/
theorem condition_subset (tokens : List Token) : (ofSpan tokens).condition ⊆ tokens :=
  (condition_suffix tokens).subset

/-- A join with its condition among the tokens agreed on is resolved alike. -/
theorem resolve_of_agreeOn (h : Scope.AgreeOn ts scope scope') {target : JoinTarget}
    (htarget : target.condition ⊆ ts) : resolve scope target = resolve scope' target := by
  have hconjunct : ofConjunct? scope target = ofConjunct? scope' target := by
    funext part
    simp only [ofConjunct?, key?, h.resolve, h.ownNames, h.aliases, h.text _ htarget]
  simp only [resolve, hconjunct, h.resolve, h.text _ htarget]

end JoinTarget

/-! ### Lists -/

theorem columnOf?_of_agreeOn (h : Scope.AgreeOn ts scope scope') :
    columnOf? scope = columnOf? scope' := by
  funext item
  simp only [columnOf?, h.resolve]

theorem groupColumns_of_agreeOn (h : Scope.AgreeOn ts scope scope') :
    groupColumns scope = groupColumns scope' := by
  funext tokens
  simp only [groupColumns, columnOf?_of_agreeOn h]

theorem sortColumns_of_agreeOn (h : Scope.AgreeOn ts scope scope') :
    sortColumns scope = sortColumns scope' := by
  funext tokens
  simp only [sortColumns, columnOf?_of_agreeOn h]

/-- References are looked up by the tokens that make them, all of which are agreed on. -/
theorem referencesFrom_of_agreeOn (h : Scope.AgreeOn ts scope scope') (before : Option Token)
    (skip : Nat) (hpart : part ⊆ ts) :
    referencesFrom scope before skip part = referencesFrom scope' before skip part := by
  induction part generalizing before skip with
  | nil => rw [referencesFrom, referencesFrom]
  | cons t rest ih =>
    obtain ⟨ht, hrest⟩ := List.cons_subset.mp hpart
    cases skip with
    | succ k => exact ih (some t) k hrest
    | zero => simp only [referencesFrom, h.inNested t ht, h.resolve, ih _ _ hrest]

theorem selectedColumns_of_agreeOn (h : Scope.AgreeOn ts scope scope') (hpart : part ⊆ ts) :
    selectedColumns scope part = selectedColumns scope' part := by
  have hquantifier (item : List Token) : dropQuantifier item ⊆ item := by
    unfold dropQuantifier
    split
    · split
      · exact List.subset_cons_self _ _
      · exact List.Subset.refl _
    · exact List.nil_subset _
  have halias (item : List Token) : dropAlias item ⊆ item := by
    unfold dropAlias
    split
    · split
      · exact List.dropLast_subset _
      · exact List.Subset.refl _
    · exact List.Subset.refl _
  rw [selectedColumns, selectedColumns]
  congr 1
  refine List.flatMap_congr fun item hitem => referencesFrom_of_agreeOn h none 0 ?_
  have hsub : item ⊆ part := ((inOrder_cutFrom _ _ _ _ [] part).infix_of_mem hitem).subset
  exact List.Subset.trans (halias _) (List.Subset.trans (hquantifier item)
    (List.Subset.trans hsub hpart))

/-! ### Clauses -/

/-- **Clauses are read alike** in scopes that agree on the tokens that are divided. -/
theorem Clauses.readIn_of_agreeOn (h : Scope.AgreeOn ts scope scope') (splitOr : Bool) :
    readIn scope splitOr (Span.divide ts) = readIn scope' splitOr (Span.divide ts) := by
  have hfirst (keyword : String) : Span.firstOf (Span.divide ts) keyword ⊆ ts :=
    (Span.firstOf_infix ts keyword).subset
  have hjoins : (JoinTarget.ofClauses (Span.divide ts)).map (JoinTarget.resolve scope) =
      (JoinTarget.ofClauses (Span.divide ts)).map (JoinTarget.resolve scope') := by
    refine List.map_congr_left fun target htarget => JoinTarget.resolve_of_agreeOn h ?_
    obtain ⟨joined, hjoined, rfl⟩ := List.mem_map.mp htarget
    obtain ⟨span, hspan, rfl⟩ := List.mem_map.mp hjoined
    exact List.Subset.trans (JoinTarget.condition_subset _)
      (Span.infix_of_mem_divide (List.mem_filter.mp hspan).1).subset
  rw [readIn, readIn, Predicate.branches_of_agreeOn h splitOr (hfirst "WHERE"), hjoins,
    groupColumns_of_agreeOn h, sortColumns_of_agreeOn h,
    Predicate.having_of_agreeOn h (hfirst "HAVING"), selectedColumns_of_agreeOn h (hfirst "SELECT")]

end IndexAdvice
