import IndexAdvice.Clause.Projection
import IndexAdvice.Proofs.RestatedConditions

/-!
# Restated lists

Restated lists name the same tables in any letter case, and the same columns of the query's own
table: to group and to sort by, and in the select list.
-/

namespace IndexAdvice

open Token

variable {a : Nat} {S : String → String → Prop} {ts ts' : List Token} {scope scope' : Scope}
  {before before' : Option Token}

/-! ### Tables and columns -/

/-- Tables with their aliases that differ in letter case at most. -/
def RecasedTable (x x' : String × Option String) : Prop :=
  Text.Recased x.1 x'.1 ∧ Option.Rel Text.Recased x.2 x'.2

/-- The tables listed are the same ones but for letter case. -/
theorem listedTables_of_restated (h : List.Forall₂ (Token.Restated a) ts ts') :
    List.Forall₂ RecasedTable (listedTables ts) (listedTables ts') := by
  refine List.rel_filterMap (fun item item' hitem => ?_) (forall₂_items h)
  rw [← head?_any_of_forall₂ hitem (p := (·.kind == .lparen)) fun _ _ h => by rw [h.kind]]
  split
  · exact .none
  · rcases ColumnRef.read?_of_restated hitem with ⟨hread, hread'⟩ |
      ⟨ref, after, ref', after', hread, hread', href, hafter⟩
    · rw [hread, hread']
      exact .none
    · rw [hread, hread']
      exact .some ⟨href.name, aliasAt?_of_restated hafter⟩

/-- A column is resolved to the field it names, in the field's own letter case. -/
theorem columnOf?_of_restated (hscope : Scope.Restates a S scope scope')
    (h : List.Forall₂ (Token.Restated a) ts ts') :
    columnOf? scope ts = columnOf? scope' ts' := by
  have hwhole := ColumnRef.whole?_of_restated h
  rw [columnOf?, columnOf?]
  revert hwhole
  generalize ColumnRef.whole? ts = o, ColumnRef.whole? ts' = o'
  rintro (href | _)
  · rw [Option.bind_some, Option.bind_some, hscope.resolve href]
  · rfl

theorem groupColumns_of_restated (hscope : Scope.Restates a S scope scope')
    (h : List.Forall₂ (Token.Restated a) ts ts') :
    groupColumns scope ts = groupColumns scope' ts' := by
  rw [groupColumns, groupColumns,
    filterMap_eq_of_forall₂ (forall₂_items h) fun _ _ hitem => columnOf?_of_restated hscope hitem]

/-! ### Sorting -/

theorem dropNullsOrder_of_restated (h : List.Forall₂ (Token.Restated a) ts ts') :
    List.Forall₂ (Token.Restated a) (dropNullsOrder ts) (dropNullsOrder ts') := by
  have hreverse := List.forall₂_reverse_iff.mpr h
  rw [dropNullsOrder, dropNullsOrder]
  generalize ts.reverse = us, ts'.reverse = us' at hreverse
  cases hreverse with
  | nil => exact h
  | cons hlast hrest =>
    cases hrest with
    | nil => exact h
    | cons hnulls hrest =>
      simp only [← hlast.isKeyword, ← hnulls.isKeyword]
      split
      · exact List.forall₂_reverse_iff.mpr hrest
      · exact h

theorem splitDirection_of_restated (h : List.Forall₂ (Token.Restated a) ts ts') :
    List.Forall₂ (Token.Restated a) (splitDirection ts).1 (splitDirection ts').1 ∧
      (splitDirection ts).2 = (splitDirection ts').2 := by
  have hreverse := List.forall₂_reverse_iff.mpr h
  rw [splitDirection, splitDirection, List.getLast?_eq_head?_reverse,
    List.getLast?_eq_head?_reverse]
  generalize ts.reverse = us, ts'.reverse = us' at hreverse
  cases hreverse with
  | nil => exact ⟨h, rfl⟩
  | cons hlast _ =>
    simp only [List.head?_cons, ← hlast.isKeyword, ← hlast.upper]
    split
    · exact ⟨forall₂_dropLast h, rfl⟩
    · exact ⟨h, rfl⟩

theorem sortColumns_of_restated (hscope : Scope.Restates a S scope scope')
    (h : List.Forall₂ (Token.Restated a) ts ts') :
    sortColumns scope ts = sortColumns scope' ts' := by
  rw [sortColumns, sortColumns]
  congr 1
  refine filterMap_eq_of_forall₂ (forall₂_items h) fun item item' hitem => ?_
  obtain ⟨hcolumn, hdirection⟩ := splitDirection_of_restated (dropNullsOrder_of_restated hitem)
  simp only [hdirection, columnOf?_of_restated hscope hcolumn]

/-! ### The select list -/

theorem dropQuantifier_of_restated (h : List.Forall₂ (Token.Restated a) ts ts') :
    List.Forall₂ (Token.Restated a) (dropQuantifier ts) (dropQuantifier ts') := by
  cases h with
  | nil => exact .nil
  | cons ht hrest =>
    rw [dropQuantifier, dropQuantifier, ← ht.isKeyword]
    split
    · exact hrest
    · exact .cons ht hrest

theorem dropAlias_of_restated (h : List.Forall₂ (Token.Restated a) ts ts') :
    List.Forall₂ (Token.Restated a) (dropAlias ts) (dropAlias ts') := by
  have hreverse := List.forall₂_reverse_iff.mpr h
  rw [dropAlias, dropAlias]
  generalize ts.reverse = us, ts'.reverse = us' at hreverse
  cases hreverse with
  | nil => exact h
  | cons hlast hrest =>
    cases hrest with
    | nil => exact h
    | cons hprevious _ =>
      simp only [← hlast.isIdentifier, ← hprevious.kind]
      split
      · exact forall₂_dropLast h
      · exact h

/-- **The select list.** Restated tokens refer to the same columns, if they lie in nested queries
alike. -/
theorem referencesFrom_of_restated (hscope : Scope.Restates a S scope scope')
    (hnested : ∀ t t', Token.Restated a t t' → scope.inNested t = scope'.inNested t')
    (h : List.Forall₂ (Token.Restated a) ts ts')
    (hbefore : before.any (·.isKeyword ["AS"]) = before'.any (·.isKeyword ["AS"])) (skip : Nat) :
    referencesFrom scope before skip ts = referencesFrom scope' before' skip ts' := by
  induction h generalizing before before' skip with
  | nil => cases skip <;> rfl
  | @cons t t' ts ts' ht hts ih =>
    have hnext : (some t).any (·.isKeyword ["AS"]) = (some t').any (·.isKeyword ["AS"]) := by
      rw [Option.any_some, Option.any_some, ht.isKeyword]
    cases skip with
    | succ skip =>
      rw [referencesFrom, referencesFrom]
      exact ih hnext skip
    | zero =>
      rw [referencesFrom, referencesFrom, ← hnested t t' ht, ← hbefore]
      split
      · exact ih hnext 0
      · rcases ColumnRef.read?_of_restated (.cons ht hts) with ⟨hread, hread'⟩ |
          ⟨ref, after, ref', after', hread, hread', href, hafter⟩
        · rw [hread, hread']
          exact ih hnext 0
        · rw [hread, hread']
          simp only [← hscope.resolve href, ← hts.length_eq, ← hafter.length_eq, ih hnext,
            ← head?_any_of_forall₂ hafter (p := (·.kind == .lparen)) (q := (·.kind == .lparen))
              fun _ _ h => by rw [h.kind]]

/-- The select list names the same columns, provided that both scopes pass over the same tokens. -/
theorem selectedColumns_of_restated (hscope : Scope.Restates a S scope scope')
    (hnested : ∀ t t', Token.Restated a t t' → scope.inNested t = scope'.inNested t')
    (h : List.Forall₂ (Token.Restated a) ts ts') :
    selectedColumns scope ts = selectedColumns scope' ts' := by
  rw [selectedColumns, selectedColumns, flatMap_eq_of_forall₂ (forall₂_items h) fun _ _ hitem =>
    referencesFrom_of_restated hscope hnested
      (dropAlias_of_restated (dropQuantifier_of_restated hitem)) rfl 0]

end IndexAdvice
