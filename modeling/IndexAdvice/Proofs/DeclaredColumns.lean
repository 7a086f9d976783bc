import Mathlib.Data.List.Basic
import IndexAdvice.Proofs.Records

/-!
# Clauses speak of declared columns

A column reaches the clauses of a query from many places: predicates, join conditions, `USING`
lists, `GROUP BY`, `ORDER BY` and the select list. Every one of them goes through `Scope.resolve`,
and what that returns is a **declared** column: a field of the query's table in the spelling that
wins among all fields that differ from it in letter case only (`declared_of_resolve`). Two declared
columns that agree up to letter case are therefore the same.

`Grounded` collects this for all clauses, and `grounded_parse` says that whatever is read in a query
is grounded in the fields of that query.
-/

namespace IndexAdvice

open Token Text

/-! ### Declared columns -/

/-- `column` is the declared spelling of one of the fields: looked up without regard to letter case,
it is found itself. -/
def Declared (fields : List String) (column : String) : Prop :=
  fields.reverse.find? (fun f => lower f == lower column) = some column

namespace Declared

variable {fields : List String} {a b : String}

theorem mem (h : Declared fields a) : a ∈ fields :=
  List.mem_reverse.mp (List.mem_of_find?_eq_some h)

/-- Letter case does not tell declared columns apart. -/
theorem eq_of_lower_eq (ha : Declared fields a) (hb : Declared fields b)
    (h : lower a = lower b) : a = b := by
  rw [Declared, h] at ha
  exact Option.some.inj (ha.symm.trans hb)

end Declared

/-- A field with a given name has a declared spelling. -/
theorem exists_declared {fields : List String} {name : String}
    (h : ∃ f ∈ fields, lower f = lower name) : ∃ f, Declared fields f ∧ lower f = lower name := by
  obtain ⟨g, hg, hlower⟩ := h
  have hsome : (fields.reverse.find? fun f => lower f == lower name).isSome := by
    rw [List.find?_isSome]
    exact ⟨g, List.mem_reverse.mpr hg, by simpa using hlower⟩
  obtain ⟨f, hf⟩ := Option.isSome_iff_exists.mp hsome
  have heq : lower f = lower name := by simpa using List.find?_some hf
  refine ⟨f, ?_, heq⟩
  rwa [Declared, heq]

/-- Fields are found under their names in any letter case. -/
theorem Scope.lower_of_field? {scope : Scope} {name f : String}
    (h : scope.field? name = some f) : lower f = lower name := by
  simpa using List.find?_some h

/-- A field that is found under a name is declared. -/
theorem declared_of_field? {scope : Scope} {name f : String} (h : scope.field? name = some f) :
    Declared scope.fields f := by
  rw [Declared, Scope.lower_of_field? h]
  exact h

/-- A qualifier decides whether a name is looked up, not what is found under it. -/
theorem Scope.field?_of_resolve {scope : Scope} {ref : ColumnRef} {f : String}
    (h : scope.resolve ref = some f) : scope.field? ref.name = some f := by
  unfold Scope.resolve at h
  split at h
  · split at h
    · exact h
    · simp at h
  · exact h

/-- **What a reference resolves to is declared.** -/
theorem declared_of_resolve {scope : Scope} {ref : ColumnRef} {f : String}
    (h : scope.resolve ref = some f) : Declared scope.fields f :=
  declared_of_field? (Scope.field?_of_resolve h)

/-! ### Clause by clause -/

/-- The clauses speak of declared columns only. -/
structure Clauses.Grounded (fields : List String) (clauses : Clauses) : Prop where
  branches : ∀ branch ∈ clauses.branches, ∀ p ∈ branch, ∀ column, p.column = some column →
    Declared fields column
  joins : ∀ j ∈ clauses.joins, ∀ column, j.localColumn = some column → Declared fields column
  groupBy : ∀ column ∈ clauses.groupBy, Declared fields column
  orderBy : ∀ s ∈ clauses.orderBy, Declared fields s.column
  selected : ∀ column ∈ clauses.selected, Declared fields column

section Scope

variable {scope : Scope}

/-- The column of a predicate was found in the scope. -/
theorem declared_of_classify {tokens : List Token} {column : String}
    (h : (Predicate.classify scope tokens).column = some column) :
    Declared scope.fields column := by
  simp only [Predicate.classify] at h
  -- only the two cases with a resolved reference give a column
  split at h
  · split at h
    · rename_i hresolve
      obtain rfl := Option.some.inj h
      exact declared_of_resolve hresolve
    · rename_i hresolve
      split at h
      · simp [Predicate.opaqueOf] at h
      · obtain rfl := Option.some.inj h
        exact declared_of_resolve hresolve
    · simp [Predicate.opaqueOf] at h
  · simp [Predicate.opaqueOf] at h

/-- So was that of every predicate in a conjunction, be it in a group or not. -/
theorem declared_of_mem_ofConjunction {tokens : List Token} {p : Predicate} {column : String}
    (hp : p ∈ Predicate.ofConjunction scope tokens) (h : p.column = some column) :
    Declared scope.fields column := by
  induction tokens using Predicate.conjunctionInduction with
  | step tokens ih =>
    rw [Predicate.ofConjunction_eq, List.mem_flatMap] at hp
    obtain ⟨part, hpart, hp⟩ := hp
    split at hp
    · split at hp
      · exact ih part hpart hp
      · rw [List.mem_singleton.mp hp] at h
        simp [Predicate.opaqueOf] at h
    · rw [List.mem_singleton.mp hp] at h
      exact declared_of_classify h

theorem declared_of_mem_branches {splitOr : Bool} {tokens : List Token} {branch : List Predicate}
    (hbranch : branch ∈ (Predicate.branches scope splitOr tokens).1) {p : Predicate}
    (hp : p ∈ branch) {column : String} (h : p.column = some column) :
    Declared scope.fields column := by
  simp only [Predicate.branches] at hbranch
  split at hbranch
  · rw [List.mem_singleton.mp hbranch] at hp
    rw [List.mem_singleton.mp hp] at h
    simp [Predicate.opaqueOf] at h
  · obtain ⟨part, -, rfl⟩ := List.mem_map.mp (List.mem_of_mem_filter hbranch)
    exact declared_of_mem_ofConjunction hp h

/-- A join is keyed by a column of the query's own table. -/
theorem declared_of_key? {joined : String} {own other : ColumnRef} {key : String × String × String}
    (h : JoinTarget.key? scope joined own other = some key) : Declared scope.fields key.1 := by
  simp only [JoinTarget.key?] at h
  split at h
  · simp at h
  · obtain ⟨column, hcolumn, rfl⟩ := Option.map_eq_some_iff.mp h
    exact declared_of_resolve hcolumn

theorem declared_of_ofConjunct? {target : JoinTarget} {part : List Token} {j : Join}
    (hj : JoinTarget.ofConjunct? scope target part = some j) {column : String}
    (h : j.localColumn = some column) : Declared scope.fields column := by
  simp only [JoinTarget.ofConjunct?] at hj
  split at hj
  · simp at hj
  · obtain ⟨key, hkey, rfl⟩ := Option.map_eq_some_iff.mp hj
    obtain rfl := Option.some.inj h
    rcases Option.or_eq_some_iff.mp hkey with hkey | ⟨-, hkey⟩
    · exact declared_of_key? hkey
    · exact declared_of_key? hkey

/-- A resolved join stands on a column that the scope offers, or on none. -/
theorem declared_of_joinResolve {target : JoinTarget} {column : String}
    (h : (JoinTarget.resolve scope target).localColumn = some column) :
    Declared scope.fields column := by
  simp only [JoinTarget.resolve] at h
  split at h
  · exact declared_of_resolve (by simpa using h)
  · cases hfound : (conjuncts target.condition).findSome? (JoinTarget.ofConjunct? scope target) with
    | none => simp [hfound] at h
    | some j =>
      obtain ⟨part, -, hpart⟩ := List.exists_of_findSome?_eq_some hfound
      rw [hfound, Option.getD_some] at h
      exact declared_of_ofConjunct? hpart h

theorem declared_of_columnOf? {item : List Token} {column : String}
    (h : columnOf? scope item = some column) : Declared scope.fields column := by
  obtain ⟨ref, -, href⟩ := Option.bind_eq_some_iff.mp (Option.filter_eq_some_iff.mp h).1
  exact declared_of_resolve href

/-- GROUP BY columns are declared. -/
theorem declared_of_mem_groupColumns {tokens : List Token} {column : String}
    (h : column ∈ groupColumns scope tokens) : Declared scope.fields column := by
  rw [groupColumns, List.mem_eraseDups] at h
  obtain ⟨item, -, hitem⟩ := List.mem_filterMap.mp h
  exact declared_of_columnOf? hitem

theorem mem_of_mem_firstDirections {seen : List String} {ss : List SortColumn} {s : SortColumn}
    (h : s ∈ firstDirections seen ss) : s ∈ ss := by
  induction ss generalizing seen with
  | nil => exact h
  | cons t ss ih =>
    simp only [firstDirections] at h
    split at h
    · exact List.mem_cons_of_mem t (ih h)
    · rcases List.mem_cons.mp h with rfl | h
      · exact List.mem_cons_self
      · exact List.mem_cons_of_mem t (ih h)

theorem declared_of_mem_sortColumns {tokens : List Token} {s : SortColumn}
    (h : s ∈ sortColumns scope tokens) : Declared scope.fields s.column := by
  obtain ⟨item, -, hitem⟩ := List.mem_filterMap.mp (mem_of_mem_firstDirections h)
  obtain ⟨column, hcolumn, rfl⟩ := Option.map_eq_some_iff.mp hitem
  exact declared_of_columnOf? hcolumn

theorem declared_of_mem_referencesFrom {before : Option Token} {skip : Nat} {tokens : List Token}
    {column : String} (h : column ∈ referencesFrom scope before skip tokens) :
    Declared scope.fields column := by
  induction tokens generalizing before skip with
  | nil => cases skip <;> simp [referencesFrom] at h
  | cons t rest ih =>
    cases skip with
    | succ k => exact ih h
    | zero =>
      simp only [referencesFrom] at h
      split at h
      · exact ih h
      · split at h
        · exact ih h
        · rcases List.mem_append.mp h with h | h
          · have hfound := (Option.filter_eq_some_iff.mp (Option.mem_toList.mp h)).1
            split at hfound
            · simp at hfound
            · exact declared_of_resolve hfound
          · exact ih h

/-- Columns of the select list are declared. -/
theorem declared_of_mem_selectedColumns {tokens : List Token} {column : String}
    (h : column ∈ selectedColumns scope tokens) : Declared scope.fields column := by
  rw [selectedColumns, List.mem_eraseDups] at h
  obtain ⟨item, -, hitem⟩ := List.mem_flatMap.mp h
  exact declared_of_mem_referencesFrom hitem

end Scope

/-! ### All clauses -/

/-- **All columns of the clauses are declared fields**, whichever clause they were read from. -/
theorem grounded_ofTokens (splitOr : Bool) (query : Query) (tokens : List Token)
    (groups : List Group) :
    (Clauses.ofTokens splitOr query tokens groups).Grounded query.fields := by
  simp only [Clauses.ofTokens]
  generalize hscope : Scope.ofSpans query groups _ _ = scope
  have hfields : query.fields = scope.fields := by rw [← hscope]; rfl
  rw [hfields]
  constructor
  · exact fun branch hbranch p hp column h => declared_of_mem_branches hbranch hp h
  · intro j hj column h
    obtain ⟨target, -, rfl⟩ := List.mem_map.mp hj
    exact declared_of_joinResolve h
  · exact fun column h => declared_of_mem_groupColumns h
  · exact fun s h => declared_of_mem_sortColumns h
  · exact fun column h => declared_of_mem_selectedColumns h

/-- **The clauses of a query are grounded in its fields.** -/
theorem grounded_parse (catalog : Catalog) (splitOr : Bool) (query : Query) :
    (query.parse catalog splitOr).clauses.Grounded query.fields := by
  rw [Query.clauses_parse]
  exact grounded_ofTokens ..

end IndexAdvice
