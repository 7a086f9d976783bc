import IndexAdvice.Proofs.Comparisons
import IndexAdvice.Proofs.FoldedConditions

/-!
# The conditions of partial indexes

A partial index is restricted to the constants that a branch compares columns with. Its condition
repeats each comparison with the bare column on the left and the constants as they stand in the
query, joined by `AND`. Read again against the same columns, it says just these comparisons, in
order, and it has no bind parameter (`partial_condition_read_back`). A column must have a name that
is written like that of a struct field and is no keyword, as others may divide the condition.
-/

namespace IndexAdvice

open Token

/-! ### Reading joined comparisons -/

section Reading

variable {query : Query} {c : Comparison} {cs : List Comparison}

/-- Whether a name is looked up as itself among some fields. -/
def IsDeclared (fields : List String) (name : String) : Prop :=
  ∀ scope : Scope, scope.fields = fields → scope.field? name = some name

/-- Printed comparisons make one WHERE clause. -/
theorem Span.divide_joined (c : Comparison) (cs : List Comparison) :
    divide (locate 0 0 (Comparison.joined (c :: cs))) =
      [⟨"WHERE", locate 0 0 (Comparison.joined (c :: cs))⟩] := by
  have hinert := fun t (ht : t ∈ locate 0 0 (Comparison.joined (c :: cs))) =>
    (Comparison.isInert_of_mem_joined ht).undivided
  have hchain : (locate 0 0 (Comparison.joined (c :: cs))).IsChain Unpaired := by
    refine (List.pairwise_of_forall_mem_list fun t ht u _ _ hpaired => ?_).isChain
    rw [isKeyword_eq_false_of_subset (by decide) (hinert t ht)] at hpaired
    exact absurd hpaired Bool.false_ne_true
  have hone := @divideFrom_locate 0 0 none (Comparison.joined (c :: cs)) "WHERE" []
    (fun t ht _ => isKeyword_eq_false_of_subset (by decide) (hinert t ht)) hchain
  obtain ⟨t, ts, hts⟩ := List.exists_cons_of_ne_nil (Comparison.locate_joined_ne_nil c cs)
  have hstart : t.isKeyword ("WHERE" :: Keyword.statement) = false :=
    isKeyword_eq_false_of_subset (by decide) (hinert t (hts ▸ List.mem_cons_self))
  rw [hts] at hone ⊢
  rw [divide, if_neg (Bool.eq_false_iff.mp hstart)]
  exact hone

/-- Joined comparisons are one alternative. -/
theorem Comparison.alternatives_joined (c : Comparison) (cs : List Comparison) :
    alternatives (locate 0 0 (joined (c :: cs))) = [locate 0 0 (joined (c :: cs))] := by
  have hne := locate_joined_ne_nil (s := 0) (d := 0) c cs
  rw [alternatives, (balanced_joined (c :: cs)).baseDepth_eq hne]
  refine Solid.cutFrom_eq (solid_of_forall_sep fun t ht _ => ?_) hne
  exact isKeyword_eq_false_of_subset (by decide) (isInert_of_mem_joined ht).undivided

/-- The text of printed comparisons has their tokens. -/
theorem tokenize_joined {sql : String} (hcut : Comparison.Separable (c :: cs))
    (hsql : sql.toList = (Comparison.joined (c :: cs)).flatMap Piece.text) :
    tokenize sql = locate 0 0 (Comparison.joined (c :: cs)) := by
  rw [tokenize, hsql, Comparison.ofText_joined hcut]

/-- **A text of joined comparisons** is a bare condition with these comparisons and no `OR`. -/
theorem Query.exists_branch_joined (catalog : Catalog) (splitOr : Bool)
    (hcut : Comparison.Separable (c :: cs))
    (hfield : ∀ c' ∈ c :: cs, IsDeclared query.fields c'.column)
    (hsql : query.sql.toList = (Comparison.joined (c :: cs)).flatMap Piece.text) :
    let clauses := (query.parse catalog splitOr).clauses
    ∃ branch, clauses.branches = [branch] ∧ clauses.hasOr = false ∧
      branch.map Predicate.gist = (c :: cs).map Comparison.predicate := by
  intro clauses
  have htokens := tokenize_joined hcut hsql
  have hstatement : statementTokens query.sql = locate 0 0 (Comparison.joined (c :: cs)) := by
    rw [statementTokens_eq_self, htokens]
    rw [htokens]
    exact fun t ht => (Comparison.isInert_of_mem_joined ht).unended
  let scope := Scope.ofSpans query query.groups [] []
  have hread : (Predicate.ofConjunction scope
      (locate 0 0 (Comparison.joined (c :: cs)))).map Predicate.gist =
        (c :: cs).map Comparison.predicate :=
    Comparison.map_gist_joined c cs (fun c' hc' => hfield c' hc' scope rfl)
      (hsql ▸ List.prefix_rfl)
  -- no condition is lost, so the conjunction makes a branch
  have hfull : (Predicate.ofConjunction scope
      (locate 0 0 (Comparison.joined (c :: cs)))).isEmpty = false := by
    rw [List.isEmpty_eq_false_iff]
    intro hnil
    rw [hnil] at hread
    exact absurd hread.symm (List.cons_ne_nil _ _)
  have hone : Predicate.branches scope splitOr (locate 0 0 (Comparison.joined (c :: cs))) =
      ([Predicate.ofConjunction scope (locate 0 0 (Comparison.joined (c :: cs)))], false) := by
    simp [Predicate.branches, Comparison.alternatives_joined, hfull]
  have hclauses : (clauses.branches, clauses.hasOr) =
      Predicate.branches scope splitOr (locate 0 0 (Comparison.joined (c :: cs))) := by
    rw [show clauses = _ from Query.clauses_parse catalog splitOr query, hstatement,
      Clauses.ofTokens, Span.divide_joined]
    rfl
  obtain ⟨hbranches, hor⟩ := Prod.mk.inj (hclauses.trans hone)
  exact ⟨_, hbranches, hor, hread⟩

end Reading

/-! ### The comparisons of a branch -/

namespace Predicate

/-- Whether a predicate compares a column with constants for equality. -/
def isLiteralEquality (p : Predicate) : Bool :=
  p.isLiteral && p.kind == .equality

/-- A literal equality as a partial condition has it. -/
def printed (p : Predicate) : Predicate :=
  { p.gist with text := p.render }

/-- A later predicate that says what an earlier one, which compares with constants, said. -/
structure Repeats (p p' : Predicate) : Prop where
  column_eq : p'.column = p.column
  kind_eq : p'.kind = p.kind
  operator_eq : p'.operator = p.operator
  value_eq : p'.value = p.value
  isLiteral : p'.isLiteral = true
  text_eq : p'.text = p.render

/-- A condition read back with the gist that was printed repeats it. -/
theorem repeats_of_gist_eq {p p' : Predicate} (hp : p.isLiteralEquality = true)
    (h : p'.gist = p.printed) : p.Repeats p' := by
  have hliteral : p.isLiteral = true := (Bool.and_eq_true_iff.mp hp).1
  have hgist {α : Type} (field : Predicate → α) (hfield : ∀ q, field q.gist = field q) :
      field p' = field p.printed := by
    rw [← h, hfield]
  exact ⟨hgist column fun _ => rfl, hgist kind fun _ => rfl, hgist operator fun _ => rfl,
    hgist value fun _ => rfl, (hgist (·.isLiteral) fun _ => rfl).trans hliteral,
    hgist Predicate.text fun _ => rfl⟩

variable {scope : Scope} {tokens : List Token} {p : Predicate}

theorem comparison?_equality {op : Token} {rhs : List Token} {kind : PredicateKind}
    {operator : String} (h : comparison? op rhs = some (kind, operator)) (hkind : kind = .equality) :
    operator = "=" ∨ operator = "IN" := by
  subst hkind
  simp only [comparison?] at h
  split_ifs at h <;> simp_all

/-- **A literal equality** is a reference to a column, `=` or `IN`, and constants. -/
theorem exists_of_isLiteralEquality (h : ReadIn scope tokens p)
    (hp : p.isLiteralEquality = true) :
    ∃ front rhs name column, tokens = front ++ rhs ∧ rhs ≠ [] ∧
      (p.operator = "=" ∨ p.operator = "IN") ∧ comparesConstants p.operator rhs = true ∧
      scope.field? name = some column ∧ p.column = some column ∧ p.value = scope.text rhs := by
  obtain ⟨hliteral, hkind⟩ := Bool.and_eq_true_iff.mp hp
  rw [beq_iff_eq] at hkind
  -- a condition kept as text has no literals, so the other branches drop out
  have hknown : p ≠ opaqueOf scope tokens := by
    rintro rfl
    exact absurd hliteral Bool.false_ne_true
  replace h := h.resolve_right hknown
  simp only [classify] at h
  split at h
  · next ref op rhs hread =>
    split at h
    · rw [h] at hkind
      exact PredicateKind.noConfusion hkind
    · next kind operator column _ hcomparison hresolve =>
      split at h
      · exact absurd h hknown
      · next hrhs =>
        subst h
        obtain ⟨front, rfl⟩ := ColumnRef.suffix_of_read? hread
        refine ⟨front ++ [op], rhs, ref.name, column, by simp, by simpa using hrhs,
          comparison?_equality hcomparison hkind, hliteral, ?_, rfl, rfl⟩
        rw [Scope.resolve] at hresolve
        split at hresolve
        · exact (Option.ite_none_right_eq_some.mp hresolve).2
        · exact hresolve
    · exact absurd h hknown
  · exact absurd h hknown

end Predicate

theorem Scope.mem_fields_of_field? {scope : Scope} {name column : String}
    (h : scope.field? name = some column) : column ∈ scope.fields :=
  List.mem_reverse.mp (List.mem_of_find?_eq_some h)

/-- A field that a name is looked up as is looked up as itself. -/
theorem Scope.isDeclared_of_field? {scope : Scope} {name column : String}
    (h : scope.field? name = some column) : IsDeclared scope.fields column := by
  intro scope' hfields
  have hsame : Text.lower column = Text.lower name := by
    simpa using List.find?_some h
  rw [Scope.field?, hfields, hsame]
  exact h

section Branch

variable {sql : String} {scope : Scope} {us ts vs : List Token} {p : Predicate}

theorem Predicate.ne_nil_of_isLiteralEquality (h : ReadIn scope ts p)
    (hp : p.isLiteralEquality = true) : ts ≠ [] := by
  obtain ⟨front, rhs, -, -, rfl, hne, -⟩ := exists_of_isLiteralEquality h hp
  exact List.append_ne_nil_of_right_ne_nil front hne

/-- A literal equality is printed as a comparison, which may have text after it if the query has. -/
theorem exists_comparison (hsql : scope.sql = sql.toList)
    (hfields : ∀ field ∈ scope.fields, IsFieldName field) (hT : tokenize sql = us ++ (ts ++ vs))
    (h : Predicate.ReadIn scope ts p) (hp : p.isLiteralEquality = true) :
    ∃ c : Comparison, c.predicate = p.printed ∧ IsDeclared scope.fields c.column ∧
      (vs ≠ [] → Piece.IsCut c.constants) := by
  obtain ⟨front, rhs, name, column, rfl, hne, hop, hcompared, hfield, hcolumn, hvalue⟩ :=
    Predicate.exists_of_isLiteralEquality h hp
  have hsplit : tokenize sql = (us ++ front) ++ (rhs ++ vs) := by
    rw [hT, List.append_assoc, List.append_assoc]
  obtain ⟨V, hV, hcut, htext⟩ := exists_constants hsplit hop hne hcompared
  have hmem := Scope.mem_fields_of_field? hfield
  obtain ⟨hliteral, hkind⟩ := Bool.and_eq_true_iff.mp hp
  rw [beq_iff_eq] at hkind
  let c : Comparison := ⟨column, p.operator, V, hfields column hmem, hV⟩
  have hrender : p.render = String.ofList c.text := by
    rw [c.text_eq, ← String.toList_inj]
    simp [Predicate.render, hcolumn, hkind, hvalue, htext scope hsql, toString, c]
  refine ⟨c, ?_, Scope.isDeclared_of_field? hfield, hcut⟩
  rw [Predicate.printed, hrender, Predicate.gist, Comparison.predicate]
  simp only [hcolumn, hkind, hliteral, hvalue, htext scope hsql, c]

/-- The literal equalities of a branch are printed as comparisons, of which all but the last may
have text after them. -/
theorem exists_comparisons {parts : List (List Token)} {literals : List Predicate}
    (hsql : scope.sql = sql.toList) (hfields : ∀ field ∈ scope.fields, IsFieldName field)
    (hparts : InOrder parts ts) (hT : tokenize sql = us ++ ts)
    (hread : List.Forall₂ (fun part p => Predicate.ReadIn scope part p ∧
      p.isLiteralEquality = true) parts literals) :
    ∃ cs : List Comparison, cs.map Comparison.predicate = literals.map Predicate.printed ∧
      Comparison.Separable cs ∧ ∀ c ∈ cs, IsDeclared scope.fields c.column := by
  induction hparts generalizing us literals with
  | nil ts =>
    cases hread
    exact ⟨[], rfl, List.isChain_nil, fun c hc => absurd hc List.not_mem_nil⟩
  | @cons gap part parts rest hparts ih =>
    cases hread with
    | @cons _ p _ literals hp hread =>
      have hsplit : tokenize sql = (us ++ gap ++ part) ++ rest := by
        rw [hT, List.append_assoc, List.append_assoc]
      obtain ⟨cs, hcs, hseparable, hdeclared⟩ := ih hsplit hread
      rw [List.append_assoc] at hsplit
      obtain ⟨c, hc, hcolumn, hcut⟩ := exists_comparison hsql hfields hsplit hp.1 hp.2
      refine ⟨c :: cs, ?_, List.isChain_cons.mpr ⟨fun c' hc' => hcut ?_, hseparable⟩,
        List.forall_mem_cons.mpr ⟨hcolumn, hdeclared⟩⟩
      · rw [List.map_cons, List.map_cons, hc, hcs]
      · -- there is another part in the rest
        rintro rfl
        cases hread with
        | nil =>
          rw [List.map_eq_nil_iff.mp hcs] at hc'
          exact absurd hc' (by simp)
        | cons hp' _ =>
          have hnil := hparts.infix_of_mem List.mem_cons_self
          exact Predicate.ne_nil_of_isLiteralEquality hp'.1 hp'.2 (List.infix_nil.mp hnil)

/-- Literal equalities with `AND` between them are printed as joined comparisons. -/
theorem toList_condition {literals : List Predicate} {cs : List Comparison}
    (h : cs.map Comparison.predicate = literals.map Predicate.printed) :
    (" AND ".intercalate (literals.map (·.render))).toList =
      (Comparison.joined cs).flatMap Piece.text := by
  have htexts : literals.map (fun p => p.render.toList) = cs.map Comparison.text := by
    calc literals.map (fun p => p.render.toList)
      _ = (literals.map Predicate.printed).map (fun p => p.text.toList) := by
        rw [List.map_map]
        rfl
      _ = (cs.map Comparison.predicate).map (fun p => p.text.toList) := by rw [h]
      _ = cs.map Comparison.text := by
        rw [List.map_map]
        exact List.map_congr_left fun c _ => String.toList_ofList
  rw [String.toList_intercalate, List.map_map, Comparison.texts_joined, ← htexts]
  rfl

/-- The constants of a candidate are the literal equalities of its branch, if no field has an empty
name. -/
theorem literals_ofBranch {caps : Capabilities} {clauses : Clauses} {branch : List Predicate}
    (hfields : ∀ field ∈ scope.fields, IsFieldName field)
    (hread : ∀ p ∈ branch, ∃ ts, Predicate.ReadIn scope ts p) :
    (Candidate.ofBranch caps clauses branch).literals =
      branch.filter Predicate.isLiteralEquality := by
  refine List.filter_congr fun p hp => Bool.eq_iff_iff.mpr ⟨fun h => ?_, fun h => ?_⟩
  · obtain ⟨hconstant, hsome⟩ := Bool.and_eq_true_iff.mp h
    obtain ⟨column, hcolumn⟩ := Option.isSome_iff_exists.mp hsome
    exact Bool.and_eq_true_iff.mpr
      ⟨hconstant, beq_iff_eq.mpr (equalityColumn?_eq_some.mp hcolumn).1⟩
  · obtain ⟨hconstant, hkind⟩ := Bool.and_eq_true_iff.mp h
    obtain ⟨ts, hts⟩ := hread p hp
    obtain ⟨-, -, name, column, -, -, -, -, hfield, hcolumn, -⟩ :=
      Predicate.exists_of_isLiteralEquality hts h
    have hmem := Scope.mem_fields_of_field? hfield
    have hne : column ≠ "" := by
      rintro rfl
      exact absurd (hfields _ hmem).starts (by decide)
    rw [hconstant, equalityColumn?_eq_some.mpr ⟨eq_of_beq hkind, hcolumn, hne⟩]
    rfl

/-- **Partial conditions.** If the columns are named like fields and not like keywords, the condition
of a recommendation made for a branch is read as one branch without an `OR`, whose predicates repeat
the literal equalities of the first branch in order, and it holds no placeholder. -/
theorem partial_condition_read_back {catalog catalog' : Catalog} {splitOr splitOr' : Bool}
    {target : Target} {table condition : String} {query again : Query} {branch : List Predicate}
    (hfields : ∀ field ∈ query.fields, IsFieldName field)
    (hbranch : branch ∈ (query.parse catalog splitOr).clauses.branches)
    (hcondition : (Advice.recommend target table query (Candidate.ofBranch target.capabilities
      (query.parse catalog splitOr).clauses branch)).condition = some condition)
    (hagain : again.fields = query.fields ∧ again.sql = condition) :
    let clauses := (again.parse catalog' splitOr').clauses
    (∃ read, clauses.branches = [read] ∧
      List.Forall₂ Predicate.Repeats (branch.filter Predicate.isLiteralEquality) read) ∧
      clauses.hasOr = false ∧ ∀ t ∈ tokenize condition, t.kind ≠ .placeholder := by
  intro clauses
  obtain ⟨scope, hsql, hscope, parts, hparts, hread⟩ := Query.exists_parts hbranch
  rw [← hscope] at hfields
  obtain ⟨hne, htext⟩ := condition_eq_of_recommend hcondition
  rw [literals_ofBranch hfields fun p hp => (exists_of_mem_forall₂ hread hp).imp fun _ h => h.2]
    at hne htext
  -- the literal equalities stand in some of the parts, still in order
  obtain ⟨parts', hsub, hliterals⟩ := @exists_forall₂_filter _ _ _ _ _
    Predicate.isLiteralEquality hread
  obtain ⟨cs, hcs, hseparable, hdeclared⟩ :=
    exists_comparisons hsql hfields (hparts.sublist hsub) (List.nil_append _).symm hliterals
  obtain ⟨c, cs, rfl⟩ : ∃ c cs', cs = c :: cs' := by
    refine List.exists_cons_of_ne_nil ?_
    rintro rfl
    exact hne (List.map_eq_nil_iff.mp hcs.symm)
  have hjoined : again.sql.toList = (Comparison.joined (c :: cs)).flatMap Piece.text := by
    rw [hagain.2, htext, toList_condition hcs]
  have hfield : ∀ c' ∈ c :: cs, IsDeclared again.fields c'.column := by
    rw [hagain.1, ← hscope]
    exact hdeclared
  obtain ⟨read, hbranches, hor, hgist⟩ :=
    Query.exists_branch_joined catalog' splitOr' hseparable hfield hjoined
  refine ⟨⟨read, hbranches, ?_⟩, hor, fun t ht => ?_⟩
  · have hrel := forall₂_mem (forall₂_of_map_eq (hgist.trans hcs))
    exact hrel.imp fun p p' ⟨hp', hp, _⟩ =>
      Predicate.repeats_of_gist_eq (List.mem_filter.mp hp).2 hp'
  · rw [← hagain.2, tokenize_joined hseparable hjoined] at ht
    exact (Comparison.isInert_of_mem_joined ht).bound

end Branch

/-- A search with a list that has a comment in it, a number with a sign, a bind parameter, and a
string with a keyword that is not closed. -/
def oddConstants : Query where
  table := "Note"
  fields := ["kind", "rank", "title"]
  sql := "SELECT * FROM notes n WHERE n.kind IN ('a', /* ? */ true) AND rank == -1 AND kind = $1 " ++
    "AND TITLE = 'x OR (y"

/-- The partial condition for it has all of its constants and is read back. -/
theorem oddConstants_read_back :
    let target : Target := .of (.of .postgres none) {}
    let condition := "kind IN ('a', /* ? */ true) AND rank = -1 AND title = 'x OR (y"
    let again : Query := { oddConstants with sql := condition }
    ∃ branch ∈ (oddConstants.parse [] true).clauses.branches,
      (Advice.recommend target "notes" oddConstants (Candidate.ofBranch target.capabilities
        (oddConstants.parse [] true).clauses branch)).condition = some condition ∧
      ∃ read, (again.parse [] true).clauses.branches = [read] ∧
        List.Forall₂ Predicate.Repeats (branch.filter Predicate.isLiteralEquality) read := by
  intro target condition again
  have hadvised : ∃ branch ∈ (oddConstants.parse [] true).clauses.branches,
      (Advice.recommend target "notes" oddConstants (Candidate.ofBranch target.capabilities
        (oddConstants.parse [] true).clauses branch)).condition = some condition := by
    decide +kernel
  obtain ⟨branch, hbranch, hcondition⟩ := hadvised
  have hagain : again.fields = oddConstants.fields ∧ again.sql = condition := ⟨rfl, rfl⟩
  exact ⟨branch, hbranch, hcondition,
    (partial_condition_read_back (by decide +kernel) hbranch hcondition hagain).1⟩

end IndexAdvice
