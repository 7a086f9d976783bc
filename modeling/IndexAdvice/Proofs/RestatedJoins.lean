import IndexAdvice.Proofs.RestatedConditions

/-!
# Restated joins

A join that is restated is taken apart in the same way (`JoinTarget.restated_ofSpan`), and brings in
the same column of the query's own table (`JoinTarget.restated_resolve`). The other table may differ
in letter case, which shows in the wording of advice only.
-/

namespace IndexAdvice

open Token

variable {a : Nat} {S : String → String → Prop} {ts ts' part part' : List Token}
  {scope scope' : Scope}

/-- Joins of two texts that use the same column, one `a` characters further on than the other. -/
structure Join.Restated (a : Nat) (j j' : Join) : Prop where
  localColumn : j.localColumn = j'.localColumn
  kind : j.kind = j'.kind
  position : j'.position = j.position + a

namespace JoinTarget

/-! ### The parts of a join -/

/-- Joins of two texts that differ in letter case at most, one `a` characters further on than the
other. -/
structure Restated (a : Nat) (target target' : JoinTarget) : Prop where
  kind : target.kind = target'.kind
  table : Text.Recased target.table target'.table
  aliasName : Option.Rel Text.Recased target.aliasName target'.aliasName
  condition : List.Forall₂ (Token.Restated a) target.condition target'.condition
  columns : List.Forall₂ Text.Recased target.columns target'.columns
  position : target'.position = target.position + a

/-- A joined table is read with its alias, both in their own letter case. -/
theorem restated_readTable (h : List.Forall₂ (Token.Restated a) ts ts') :
    Text.Recased (readTable ts).1 (readTable ts').1 ∧
      Option.Rel Text.Recased (readTable ts).2.1 (readTable ts').2.1 ∧
      List.Forall₂ (Token.Restated a) (readTable ts).2.2 (readTable ts').2.2 := by
  cases h with
  | nil => exact ⟨.refl "", .none, .nil⟩
  | @cons t t' rest rest' ht hrest =>
    simp only [readTable, ← ht.kind]
    split
    · have hafter := forall₂_afterGroup ht hrest
      have halias := aliasAt?_of_restated hafter
      refine ⟨?_, halias, hafter⟩
      revert halias
      generalize aliasAt? (afterGroup t rest) = o, aliasAt? (afterGroup t' rest') = o'
      rintro (hname | _)
      · exact hname
      · exact .refl ""
    · rcases ColumnRef.read?_of_restated (.cons ht hrest) with ⟨hread, hread'⟩ |
        ⟨ref, after, ref', after', hread, hread', href, hafter⟩
      · rw [hread, hread']
        exact ⟨.refl "", .none, .cons ht hrest⟩
      · rw [hread, hread']
        exact ⟨href.name, aliasAt?_of_restated hafter, hafter⟩

theorem restated_readCondition (h : List.Forall₂ (Token.Restated a) ts ts') :
    List.Forall₂ (Token.Restated a) (readCondition ts).1 (readCondition ts').1 ∧
      List.Forall₂ Text.Recased (readCondition ts).2 (readCondition ts').2 := by
  have hdrop := forall₂_dropWhile h (p := fun t => !t.isKeyword ["ON", "USING"])
    (q := fun t => !t.isKeyword ["ON", "USING"]) fun _ _ h => by rw [h.isKeyword]
  rw [readCondition, readCondition]
  generalize (ts.dropWhile fun t => !t.isKeyword ["ON", "USING"]) = us,
    (ts'.dropWhile fun t => !t.isKeyword ["ON", "USING"]) = us' at hdrop
  cases hdrop with
  | nil => exact ⟨.nil, .nil⟩
  | cons ht hrest =>
    simp only [← ht.isKeyword]
    split
    · exact ⟨hrest, .nil⟩
    · refine ⟨.nil, List.rel_map (fun _ _ h => h.name) (List.rel_filter (fun _ _ h => ?_) hrest)⟩
      simp only [h.isIdentifier]

/-- **Joins.** A restated join has the same parts. -/
theorem restated_ofSpan (h : List.Forall₂ (Token.Restated a) ts ts') (hne : ts ≠ []) :
    Restated a (ofSpan ts) (ofSpan ts') := by
  have hmodifiers := forall₂_takeWhile h (p := fun t => !t.isKeyword ["JOIN"])
    (q := fun t => !t.isKeyword ["JOIN"]) fun _ _ h => by rw [h.isKeyword]
  have hrest := List.forall₂_drop
    ((ts'.takeWhile fun t => !t.isKeyword ["JOIN"]).length + 1) h
  rw [← hmodifiers.length_eq] at hrest
  obtain ⟨htable, halias, hafter⟩ := restated_readTable (skipKeyword_of_restated "LATERAL" hrest)
  obtain ⟨hcondition, hcolumns⟩ := restated_readCondition hafter
  have hposition : (ts'.head?.map Token.start).getD 0 = (ts.head?.map Token.start).getD 0 + a := by
    cases h with
    | nil => exact absurd rfl hne
    | cons ht _ => exact ht.start
  rw [ofSpan, ofSpan, ← map_eq_of_forall₂ hmodifiers fun _ _ h => h.upper,
    ← hmodifiers.length_eq]
  exact ⟨rfl, htable, halias, hcondition, hcolumns, hposition⟩

/-! ### Join conditions -/

theorem restated_equality? (h : List.Forall₂ (Token.Restated a) part part') :
    Option.Rel (fun sides sides' => ColumnRef.Recased sides.1 sides'.1 ∧
      ColumnRef.Recased sides.2 sides'.2) (equality? part) (equality? part') := by
  rw [equality?, equality?]
  rcases ColumnRef.read?_of_restated h with ⟨hread, hread'⟩ |
    ⟨left, after, left', after', hread, hread', hleft, hafter⟩
  · rw [hread, hread']
    exact .none
  · rw [hread, hread']
    cases hafter with
    | nil => exact .none
    | @cons op op' rest rest' hop hrest =>
      simp only [← hop.contains_text ["=", "=="] (by decide)]
      split
      · have hwhole := ColumnRef.whole?_of_restated hrest
        revert hwhole
        generalize ColumnRef.whole? rest = o, ColumnRef.whole? rest' = o'
        rintro (hright | _)
        · exact .some ⟨hleft, hright⟩
        · exact .none
      · exact .none

/-- The own column of a key is the same one on either side. -/
theorem restated_key? (hscope : Scope.Restates a S scope scope') (joined joined' : String)
    {own own' other other' : ColumnRef} (hown : ColumnRef.Recased own own')
    (hother : ColumnRef.Recased other other') :
    (key? scope joined own other).map Prod.fst =
      (key? scope' joined' own' other').map Prod.fst := by
  have hnone : own.qualifier.isNone = own'.qualifier.isNone := by
    have hqualifier := hown.qualifier
    revert hqualifier
    generalize own.qualifier = q, own'.qualifier = q'
    rintro (_ | _) <;> rfl
  simp only [key?, ← hnone, ← hscope.isOwn hother.qualifier, ← hscope.resolve hown]
  split
  · rfl
  · cases scope.resolve own <;> rfl

/-- Conjuncts of a join condition give restated joins. -/
theorem restated_ofConjunct? (hscope : Scope.Restates a S scope scope')
    {target target' : JoinTarget} (htarget : Restated a target target')
    (h : List.Forall₂ (Token.Restated a) part part') (hne : part ≠ []) :
    Option.Rel (Join.Restated a) (ofConjunct? scope target part)
      (ofConjunct? scope' target' part') := by
  have hposition : (((part'.head?.map (·.start)).getD 0 : Nat) : Int) =
      ((part.head?.map (·.start)).getD 0 : Nat) + a := by
    cases h with
    | nil => exact absurd rfl hne
    | cons ht _ => simp [ht.start]
  have hequality := restated_equality? h
  rw [ofConjunct?, ofConjunct?]
  revert hequality
  generalize equality? part = o, equality? part' = o'
  rintro (⟨hleft, hright⟩ | _)
  · rename_i sides sides'
    -- whichever side is the own one, it is so in both
    have hkey : ((key? scope target.table sides.1 sides.2).or
          (key? scope target.table sides.2 sides.1)).map Prod.fst =
        ((key? scope' target'.table sides'.1 sides'.2).or
          (key? scope' target'.table sides'.2 sides'.1)).map Prod.fst := by
      rw [Option.map_or, Option.map_or,
        restated_key? hscope target.table target'.table hleft hright,
        restated_key? hscope target.table target'.table hright hleft]
    simp only
    revert hkey
    generalize (key? scope target.table sides.1 sides.2).or _ = o,
      (key? scope' target'.table sides'.1 sides'.2).or _ = o'
    intro hkey
    cases o with
    | none =>
      rw [Option.map_none, eq_comm, Option.map_eq_none_iff] at hkey
      rw [hkey]
      exact .none
    | some key =>
      rw [Option.map_some, eq_comm, Option.map_eq_some_iff] at hkey
      obtain ⟨key', rfl, hcolumn⟩ := hkey
      exact .some ⟨congrArg some hcolumn.symm, htarget.kind, hposition⟩
  · exact .none

/-- **Join columns.** A restated join brings in the same column of the query's own table. -/
theorem restated_resolve (hscope : Scope.Restates a S scope scope') {target target' : JoinTarget}
    (h : Restated a target target') :
    Join.Restated a (resolve scope target) (resolve scope' target') := by
  have hposition : (target'.position : Int) = target.position + a := by
    rw [h.position]
    rfl
  have hcolumns := h.columns
  rw [resolve, resolve]
  generalize target.columns = columns, target'.columns = columns' at hcolumns
  cases hcolumns with
  | cons hcolumn _ =>
    have href : ColumnRef.Recased ⟨none, _⟩ ⟨none, _⟩ := ⟨.none, hcolumn⟩
    exact ⟨hscope.resolve href, h.kind, hposition⟩
  | nil =>
    have hfound : Option.Rel (Join.Restated a)
        ((conjuncts target.condition).findSome? (ofConjunct? scope target))
        ((conjuncts target'.condition).findSome? (ofConjunct? scope' target')) :=
      findSome?_rel (forall₂_conjuncts h.condition) fun part hpart part' hrestated =>
        restated_ofConjunct? hscope h hrestated (ne_nil_of_mem_conjuncts hpart)
    simp only
    revert hfound
    generalize (conjuncts target.condition).findSome? _ = o,
      (conjuncts target'.condition).findSome? _ = o'
    rintro (hjoin | _)
    · exact hjoin
    · exact ⟨rfl, h.kind, hposition⟩

end JoinTarget

end IndexAdvice
