import IndexAdvice.Proofs.JoinStatements
import IndexAdvice.Proofs.OwnQualifiers

/-!
# Joins seen from both tables

The tables of a `JoinStatement` go by their names and aliases, their keys, in lower case. As long as
no key belongs to both, every qualifier stands for the table that has it
(`JoinStatement.mem_aliases`), so seen from either table one qualifier of the equality is an own
name and the other is not. The join that is read is then the same whichever table comes first and
whichever side of the equality is written first, and seen from the other table it is the mirror
image (`join_seen_from_both_tables`).
-/

namespace IndexAdvice

open Text Token

/-! ### The aliases of two tables -/

/-- The qualifiers that a table goes by, in lower case. -/
def JoinSide.keys (side : JoinSide) : List String :=
  (side.table :: side.short.toList).map fun name => lower name.spelling

section Aliases

variable {aliases : List (String × String)} {side : JoinSide} {key table : String}

theorem PlainName.spelling_ne_empty (name : PlainName) : name.spelling ≠ "" := by
  rw [PlainName.spelling, ne_eq, String.ofList_eq_empty_iff]
  exact name.word.text_ne_nil

theorem lookup_of_unique (hmem : (key, table) ∈ aliases)
    (hunique : ∀ other, (key, other) ∈ aliases → other = table) :
    aliases.lookup key = some table := by
  induction aliases with
  | nil => exact absurd hmem List.not_mem_nil
  | cons entry aliases ih =>
    obtain ⟨key', table'⟩ := entry
    rw [List.lookup_cons]
    by_cases hkey : key = key'
    · subst hkey
      simp [hunique table' List.mem_cons_self]
    · have hne : (key == key') = false := by simpa using hkey
      rw [hne]
      refine ih ?_ fun other hother => hunique other (List.mem_cons_of_mem _ hother)
      exact (List.mem_cons.mp hmem).resolve_left fun heq => hkey (congrArg Prod.fst heq)

/-- A table binds its keys, if nothing is bound to them yet. -/
theorem mem_bindListed (hfree : ∀ key ∈ side.keys, ∀ table, (key, table) ∉ aliases) :
    (key, table) ∈ bindListed aliases side.named ↔
      (key, table) ∈ aliases ∨ key ∈ side.keys ∧ table = side.named.1 := by
  have hname : (key, table) ∈ bindName aliases side.named.1 ↔
      (key, table) ∈ aliases ∨ key = lower side.named.1 ∧ table = side.named.1 := by
    have hlookup : aliases.lookup (lower side.named.1) = none := by
      rw [List.lookup_eq_none_iff]
      intro entry hmem
      rw [bne_iff_ne]
      intro hkey
      refine hfree (lower side.named.1) List.mem_cons_self entry.2 ?_
      rwa [hkey]
    rw [bindName, addAbsent, hlookup]
    simp
  rw [bindListed]
  cases hshort : side.short with
  | none =>
    have hkeys : side.keys = [lower side.named.1] := by rw [JoinSide.keys, hshort]; rfl
    have hnamed : side.named.2 = none := by rw [JoinSide.named, hshort]; rfl
    rw [hnamed, bindAlias, hname, hkeys, List.mem_singleton]
  | some short =>
    have hkeys : side.keys = [lower side.named.1, lower short.spelling] := by
      rw [JoinSide.keys, hshort]
      rfl
    have hnamed : side.named.2 = some short.spelling := by rw [JoinSide.named, hshort]; rfl
    have hset : (key, table) ∈ setAlias (bindName aliases side.named.1) (lower short.spelling)
        side.named.1 ↔ (key = lower short.spelling ∧ table = side.named.1) ∨
          (key ≠ lower short.spelling ∧ (key, table) ∈ bindName aliases side.named.1) := by
      simp [setAlias, and_comm]
    have hempty : short.spelling.isEmpty = false := by
      simpa using short.spelling_ne_empty
    rw [hnamed, bindAlias, hempty, if_neg Bool.false_ne_true, hset, hname, hkeys, List.mem_pair]
    -- nothing is bound to the alias, so it displaces nothing
    by_cases hkey : key = lower short.spelling
    · have hnot : (key, table) ∉ aliases := hfree key (by simp [hkeys, hkey]) table
      simp [hkey, hkey ▸ hnot]
    · simp [hkey]

end Aliases

/-! ### One table's view -/

/-- What a query needs of the sides of a join to see its own table in the one and another in the
other: the own table goes by its name, the other by none of its variants, the keys are apart, and
the column is declared. -/
structure JoinSide.Seen (query : Query) (column : String) (own other : JoinSide) : Prop where
  own_table : lower own.named.1 ∈ variants query.table
  other_keys : ∀ key ∈ other.keys, key ∉ variants query.table
  apart : ∀ key ∈ own.keys, key ∉ other.keys
  declared : Declared query.fields column
  column : lower column = lower own.column.spelling

/-- The scope of a query with two tables, each of which goes by its keys. -/
structure Scope.Knows (scope : Scope) (query : Query) (own other : JoinSide) : Prop where
  fields : scope.fields = query.fields
  ownNames : ∃ tables, scope.ownNames = ownQualifiers query.table tables scope.aliases
  aliases : ∀ key table, (key, table) ∈ scope.aliases ↔
    (key ∈ own.keys ∧ table = own.named.1) ∨ (key ∈ other.keys ∧ table = other.named.1)

section View

variable {scope : Scope} {query : Query} {own other : JoinSide} {x joined : String}
  {part : List Token}

/-- The own column is looked up. -/
theorem JoinSide.Seen.resolve_own (h : JoinSide.Seen query x own other)
    (hscope : scope.Knows query own other) : scope.resolve own.ref = some x := by
  obtain ⟨tables, hown⟩ := hscope.ownNames
  have hmem : lower own.qualifier.spelling ∈ scope.ownNames := by
    rw [hown]
    refine mem_ownQualifiers.mpr (.inr (.inl ⟨_, h.own_table, own.named.1, ?_, rfl⟩))
    exact (hscope.aliases _ _).mpr (.inl ⟨own.qualified, rfl⟩)
  have hfield : scope.field? own.column.spelling = some x := by
    rw [Scope.field?, hscope.fields, ← h.column]
    exact h.declared
  simp [Scope.resolve, JoinSide.ref, hmem, hfield]

/-- The other column is not. -/
theorem JoinSide.Seen.resolve_other (h : JoinSide.Seen query x own other)
    (hscope : scope.Knows query own other) : scope.resolve other.ref = none := by
  obtain ⟨tables, hown⟩ := hscope.ownNames
  have hnot : lower other.qualifier.spelling ∉ scope.ownNames := by
    rw [hown]
    intro hmem
    rcases mem_ownQualifiers.mp hmem with hvariant | ⟨v, hv, table, hbound, rfl⟩ | ⟨hnone, -⟩
    · exact h.other_keys _ other.qualified hvariant
    · rcases (hscope.aliases _ _).mp hbound with ⟨hkey, -⟩ | ⟨-, rfl⟩
      · exact h.apart _ hkey other.qualified
      · exact h.other_keys _ List.mem_cons_self hv
    · -- the first table stands in only if no table is named like the subject
      refine hnone (lower own.named.1) _ h.own_table ⟨own.named.1, ?_, rfl⟩
      exact (hscope.aliases _ _).mpr (.inl ⟨List.mem_cons_self, rfl⟩)
  simp [Scope.resolve, JoinSide.ref, hnot]

/-- The other qualifier stands for the other table. -/
theorem JoinSide.Seen.lookup_other (h : JoinSide.Seen query x own other)
    (hscope : scope.Knows query own other) :
    scope.aliases.lookup (lower other.qualifier.spelling) = some other.named.1 := by
  refine lookup_of_unique ((hscope.aliases _ _).mpr (.inr ⟨other.qualified, rfl⟩)) ?_
  intro table hbound
  rcases (hscope.aliases _ _).mp hbound with ⟨hkey, -⟩ | ⟨-, rfl⟩
  · exact absurd other.qualified (h.apart _ hkey)
  · rfl

/-- **The key** is the same whichever side of the equality comes first. -/
theorem JoinSide.Seen.keyIn?_eq (h : JoinSide.Seen query x own other)
    (hscope : scope.Knows query own other)
    (hpart : JoinTarget.equality? part = some (own.ref, other.ref) ∨
      JoinTarget.equality? part = some (other.ref, own.ref)) :
    JoinTarget.keyIn? scope joined part =
      some (x, other.named.1, other.column.spelling) := by
  have hkey : JoinTarget.key? scope joined own.ref other.ref =
      some (x, other.named.1, other.column.spelling) := by
    have hqualified : own.ref.qualifier.isNone = false := rfl
    rw [JoinTarget.key?, hqualified, h.resolve_own hscope]
    show some (x, (scope.aliases.lookup (lower other.qualifier.spelling)).getD _,
      other.column.spelling) = _
    rw [h.lookup_other hscope, Option.getD_some]
  have hnone : JoinTarget.key? scope joined other.ref own.ref = none := by
    simp [JoinTarget.key?, h.resolve_other hscope]
  rw [JoinTarget.keyIn?]
  rcases hpart with hpart | hpart
  · simp only [hpart, Option.bind_some, hkey, Option.some_or]
  · simp only [hpart, Option.bind_some, hnone, Option.none_or, hkey]

end View

/-! ### Both views -/

namespace JoinStatement

variable {st : JoinStatement} {flipped : Bool} {query : Query} {own other : JoinSide} {x : String}

/-- The tables of a statement, one of which is the own one. -/
def HasSides (st : JoinStatement) (own other : JoinSide) : Prop :=
  (own = st.first ∧ other = st.second) ∨ (own = st.second ∧ other = st.first)

/-- The join that a query sees. -/
def seen (st : JoinStatement) (column : String) (other : JoinSide) : Join where
  localColumn := some column
  remoteTable := other.table.spelling
  remoteColumn := some other.column.spelling
  kind := st.kind

/-- **Aliases.** Every key of a table stands for it. -/
theorem mem_aliases (hapart : ∀ key ∈ st.first.keys, key ∉ st.second.keys) {target : JoinTarget}
    (htable : target.table = st.second.named.1) (hshort : target.aliasName = st.second.named.2)
    (key table : String) :
    (key, table) ∈ bindJoin (bindListed [] st.first.named) target ↔
      (key ∈ st.first.keys ∧ table = st.first.named.1) ∨
        (key ∈ st.second.keys ∧ table = st.second.named.1) := by
  have hfirst (key table : String) : (key, table) ∈ bindListed [] st.first.named ↔
      key ∈ st.first.keys ∧ table = st.first.named.1 := by
    rw [mem_bindListed fun _ _ _ => List.not_mem_nil]
    simp
  have hjoin : bindJoin (bindListed [] st.first.named) target =
      bindListed (bindListed [] st.first.named) st.second.named := by
    have hempty : st.second.named.1.isEmpty = false := by
      simpa [JoinSide.named] using st.second.table.spelling_ne_empty
    rw [bindJoin, htable, hshort, hempty, if_neg Bool.false_ne_true, ← bindListed]
  rw [hjoin, mem_bindListed fun key hkey table hbound =>
    hapart key ((hfirst key table).mp hbound).1 hkey, hfirst]

/-- The scope of the statement knows both tables by their names and aliases, if these are apart. -/
theorem knows (hsides : st.HasSides own other) (hapart : ∀ key ∈ own.keys, key ∉ other.keys)
    (groups : List Group) {target : JoinTarget}
    (htable : target.table = st.second.named.1) (hshort : target.aliasName = st.second.named.2) :
    (Scope.ofSpans query groups [st.first.named] [target]).Knows query own other := by
  refine ⟨rfl, ⟨_, Scope.ownNames_ofSpans query groups _ _⟩, fun key table => ?_⟩
  rw [Scope.aliases_ofSpans]
  rcases hsides with ⟨rfl, rfl⟩ | ⟨rfl, rfl⟩
  · exact mem_aliases hapart htable hshort key table
  · exact (mem_aliases (fun key hfirst hsecond => hapart key hsecond hfirst) htable hshort key
      table).trans or_comm

/-- **One view.** From either table one join is seen, with the column of the table. -/
theorem joins_of_seen (hseen : JoinSide.Seen query x own other) (hsides : st.HasSides own other)
    (hwritten : st.IsWrittenAs flipped query.sql) (catalog : Catalog) (splitOr : Bool) :
    (query.parse catalog splitOr).clauses.joins.map Join.gist = [st.seen x other] := by
  obtain ⟨tokens, htokens⟩ := exists_tokens hwritten
  have hspans := tokens.divide_all (htokens ▸ consecutive_statementTokens query.sql)
  obtain ⟨position, htarget⟩ := tokens.exists_ofSpan
  let target : JoinTarget :=
    ⟨st.kind, st.second.named.1, st.second.named.2, tokens.condition, [], position⟩
  have htargets : JoinTarget.ofClauses (Span.divide tokens.all) = [target] := by
    simp [hspans, JoinTarget.ofClauses, Span.tokensOf, htarget, target]
  have hlisted : (Span.tokensOf (Span.divide tokens.all) "FROM" ++
      Span.tokensOf (Span.divide tokens.all) "UPDATE").flatMap listedTables = [st.first.named] := by
    simp [hspans, Span.tokensOf, tokens.listedTables_first]
  have hscope :
      (Scope.ofSpans query query.groups [st.first.named] [target]).Knows query own other :=
    knows hsides hseen.apart query.groups rfl rfl
  have hpart : JoinTarget.equality? tokens.equality = some (own.ref, other.ref) ∨
      JoinTarget.equality? tokens.equality = some (other.ref, own.ref) := by
    rw [tokens.equality?_equality]
    rcases hsides with ⟨rfl, rfl⟩ | ⟨rfl, rfl⟩ <;> cases flipped <;> simp
  obtain ⟨rest, hconjuncts⟩ := tokens.conjuncts_condition
  rw [Query.joins_parse, htokens, Scope.ofClauses, htargets, hlisted, List.map_singleton,
    List.map_singleton, JoinTarget.gist_resolve _ rfl]
  -- the first conjunct has a key, so the others do not matter
  have hcondition : target.condition = tokens.condition := rfl
  rw [hcondition, hconjuncts, List.findSome?_cons, hseen.keyIn?_eq hscope hpart]
  rfl

end JoinStatement

/-- What two subjects need to see a join from its two tables: each table is named like one of them,
their names are apart, the aliases are none of these names and differ, and each subject has the
column of its table. Letter case tells no names apart. -/
structure JoinStatement.Mirrors (st : JoinStatement) (A B : Query) : Prop where
  first : lower st.first.table.spelling ∈ variants A.table
  second : lower st.second.table.spelling ∈ variants B.table
  disjoint : ∀ name ∈ variants A.table, name ∉ variants B.table
  first_short : ∀ short ∈ st.first.short,
    lower short.spelling ∉ variants A.table ∧ lower short.spelling ∉ variants B.table
  second_short : ∀ short ∈ st.second.short,
    lower short.spelling ∉ variants A.table ∧ lower short.spelling ∉ variants B.table
  shorts : ∀ short ∈ st.first.short, ∀ short' ∈ st.second.short,
    lower short.spelling ≠ lower short'.spelling
  first_column : ∃ x ∈ A.fields, lower x = lower st.first.column.spelling
  second_column : ∃ y ∈ B.fields, lower y = lower st.second.column.spelling

namespace JoinStatement.Mirrors

variable {st : JoinStatement} {A B : Query} {x y : String}

/-- Two subjects that see a join see it in the other order as well. -/
theorem swap (h : st.Mirrors A B) : st.swap.Mirrors B A where
  first := h.second
  second := h.first
  disjoint name hB hA := h.disjoint name hA hB
  first_short short hshort := (h.second_short short hshort).symm
  second_short short hshort := (h.first_short short hshort).symm
  shorts short hshort short' hshort' := (h.shorts short' hshort' short hshort).symm
  first_column := h.second_column
  second_column := h.first_column

/-- The first subject sees the second table from its own. -/
theorem seen (h : st.Mirrors A B) (hx : Declared A.fields x)
    (hcolumn : lower x = lower st.first.column.spelling) (sql : String) :
    JoinSide.Seen { A with sql } x st.first st.second where
  own_table := h.first
  declared := hx
  column := hcolumn
  other_keys key hkey hvariant := by
    obtain ⟨name, hname, rfl⟩ := List.mem_map.mp hkey
    rcases List.mem_cons.mp hname with rfl | hshort
    · exact h.disjoint _ hvariant h.second
    · exact (h.second_short name (Option.mem_toList.mp hshort)).1 hvariant
  apart key hkey hkey' := by
    obtain ⟨name, hname, rfl⟩ := List.mem_map.mp hkey
    obtain ⟨name', hname', heq⟩ := List.mem_map.mp hkey'
    rcases List.mem_cons.mp hname with rfl | hshort
    · rcases List.mem_cons.mp hname' with rfl | hshort'
      · exact h.disjoint _ h.first (heq ▸ h.second)
      · exact (h.second_short name' (Option.mem_toList.mp hshort')).1 (heq ▸ h.first)
    · rcases List.mem_cons.mp hname' with rfl | hshort'
      · exact (h.first_short name (Option.mem_toList.mp hshort)).2 (heq ▸ h.second)
      · exact h.shorts name (Option.mem_toList.mp hshort) name' (Option.mem_toList.mp hshort')
          heq.symm

end JoinStatement.Mirrors

/-- **Joins are symmetric.** Two tables are joined on an equality between a column of each, and two
subjects see one of them as their own. Then there are declared columns of the subjects such that,
whichever table comes first, whichever side of the equality comes first, and whatever more
conditions there are, the one subject reads its column, the other table and the column that is
written there, and the other reads the same text in mirror image. -/
theorem join_seen_from_both_tables (catalog : Catalog) (splitOr : Bool) {st : JoinStatement}
    {A B : Query} (h : st.Mirrors A B) :
    ∃ x y, Declared A.fields x ∧ lower x = lower st.first.column.spelling ∧
      Declared B.fields y ∧ lower y = lower st.second.column.spelling ∧
      ∀ (swapped flipped : Bool) (sql : String),
        (if swapped then st.swap else st).IsWrittenAs flipped sql →
          (Query.parse catalog splitOr { A with sql }).clauses.joins.map Join.gist =
              [st.seen x st.second] ∧
            (Query.parse catalog splitOr { B with sql }).clauses.joins.map Join.gist =
              [st.seen y st.first] := by
  obtain ⟨x, hx, hfirst⟩ := exists_declared h.first_column
  obtain ⟨y, hy, hsecond⟩ := exists_declared h.second_column
  refine ⟨x, y, hx, hfirst, hy, hsecond, fun swapped flipped sql hwritten => ?_⟩
  have hA := h.seen hx hfirst sql
  have hB := h.swap.seen hy hsecond sql
  cases swapped with
  | true =>
    exact ⟨JoinStatement.joins_of_seen hA (.inr ⟨rfl, rfl⟩) hwritten catalog splitOr,
      JoinStatement.joins_of_seen hB (.inl ⟨rfl, rfl⟩) hwritten catalog splitOr⟩
  | false =>
    exact ⟨JoinStatement.joins_of_seen hA (.inl ⟨rfl, rfl⟩) hwritten catalog splitOr,
      JoinStatement.joins_of_seen hB (.inr ⟨rfl, rfl⟩) hwritten catalog splitOr⟩

/-- A field name as a name in a statement. -/
def IsFieldName.plainName {name : String} (h : IsFieldName name) : PlainName where
  word := h.word
  kind_eq := rfl
  free := by
    rw [IsFieldName.word, String.ofList_toList]
    exact h.free

/-- Orders with their active users, if they have some. -/
def ordersUsers : JoinStatement where
  first :=
    { table := (show IsFieldName "orders" by decide +kernel).plainName
      short := some (show IsFieldName "o" by decide +kernel).plainName
      withAs := false
      qualifier := (show IsFieldName "O" by decide +kernel).plainName
      column := (show IsFieldName "User_Id" by decide +kernel).plainName
      qualified := by decide +kernel }
  second :=
    { table := (show IsFieldName "users" by decide +kernel).plainName
      short := some (show IsFieldName "u" by decide +kernel).plainName
      withAs := true
      qualifier := (show IsFieldName "U" by decide +kernel).plainName
      column := (show IsFieldName "id" by decide +kernel).plainName
      qualified := by decide +kernel }
  modifiers := [⟨.word, ['l', 'e', 'f', 't'], by decide +kernel⟩]
  areModifiers := by decide +kernel
  more := [.conj, (show IsFieldName "active" by decide +kernel).word]
  startsAnd := by simp
  unended := by decide +kernel
  continued := by decide +kernel

/-- Orders and users see the join as mirror images. -/
theorem ordersUsers_seen :
    let orders : Query := { table := "Order", fields := ["id", "user_id"] }
    let users : Query := { table := "User", fields := ["id", "active"] }
    let sql := "SELECT * FROM users AS u\n left JOIN orders o ON U.id = O.User_Id AND active"
    ordersUsers.Mirrors orders users ∧ ordersUsers.swap.IsWrittenAs false sql ∧
      (Query.parse [] true { orders with sql }).clauses.joins.map Join.gist =
        [ordersUsers.seen "user_id" ordersUsers.second] ∧
      (Query.parse [] true { users with sql }).clauses.joins.map Join.gist =
        [ordersUsers.seen "id" ordersUsers.first] := by
  intro orders users sql
  have hmirrors : ordersUsers.Mirrors orders users := by
    constructor <;> decide +kernel
  have hwritten : ordersUsers.swap.IsWrittenAs false sql := by
    unfold JoinStatement.IsWrittenAs
    decide +kernel
  obtain ⟨x, y, hx, hfirst, hy, hsecond, hjoins⟩ := join_seen_from_both_tables [] true hmirrors
  have hx' : Declared orders.fields "user_id" := by
    unfold Declared
    decide +kernel
  have hy' : Declared users.fields "id" := by
    unfold Declared
    decide +kernel
  obtain rfl := hx.eq_of_lower_eq hx' (hfirst.trans (by decide +kernel))
  obtain rfl := hy.eq_of_lower_eq hy' (hsecond.trans (by decide +kernel))
  exact ⟨hmirrors, hwritten, hjoins true false sql hwritten⟩

end IndexAdvice
