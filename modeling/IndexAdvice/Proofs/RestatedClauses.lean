import IndexAdvice.Parse
import IndexAdvice.Proofs.AlikeKeys
import IndexAdvice.Proofs.KeyOrder
import IndexAdvice.Proofs.RestatedJoins
import IndexAdvice.Proofs.RestatedLists
import IndexAdvice.Proofs.RestatedSpans

/-!
# Restated queries

Of a table that an alias stands for only the lower-case name matters, and only to tell which
qualifiers mean the query's own table (`mem_ownQualifiers`). So restated tables and joins make
restated scopes (`Scope.restates_ofSpans`), and restated clauses have candidates with the same key
columns for every target database (`Clauses.Restated.columns`). The motives of those columns may
differ, since the name of a joined table is one of them.
-/

namespace IndexAdvice

open Token

variable {a : Nat} {S : String → String → Prop}

/-! ### Aliases -/

/-- Whether a qualifier stands for a table with the given name in lower case. -/
def StandsFor (aliases : List (String × String)) (key name : String) : Prop :=
  ∃ table, (key, table) ∈ aliases ∧ Text.lower table = name

/-- Qualifiers stand for the same tables in both lists, those aside that `E` excepts. -/
def AliasesAgree (E : String → Prop) (aliases aliases' : List (String × String)) : Prop :=
  ∀ key, ¬ E key → ∀ name, StandsFor aliases key name ↔ StandsFor aliases' key name

section Aliases

variable {E : String → Prop} {aliases aliases' : List (String × String)}
  {key name table table' : String}

/-- A table's name stands for the table, unless it stands for another one already. -/
theorem standsFor_bindName : StandsFor (bindName aliases table) key name ↔
    StandsFor aliases key name ∨ (key = Text.lower table ∧ name = Text.lower table ∧
      ∀ other, ¬ StandsFor aliases (Text.lower table) other) := by
  have hlookup : aliases.lookup (Text.lower table) = none ↔
      ∀ other, ¬ StandsFor aliases (Text.lower table) other := by
    rw [List.lookup_eq_none_iff]
    constructor
    · rintro h other ⟨entry, hmem, -⟩
      simpa using h _ hmem
    · intro h entry hmem
      rw [bne_iff_ne]
      intro hkey
      exact h _ ⟨entry.2, hkey ▸ hmem, rfl⟩
  rw [bindName, addAbsent]
  split
  · rename_i hknown
    refine ⟨.inl, fun h => h.resolve_right fun ⟨_, _, hnone⟩ => ?_⟩
    rw [hlookup.mpr hnone] at hknown
    cases hknown
  · rename_i hnew
    have hnone := hlookup.mp (Option.not_isSome_iff_eq_none.mp hnew)
    simp only [StandsFor, List.mem_append, List.mem_singleton, Prod.mk.injEq, or_and_right,
      exists_or]
    refine or_congr_right ⟨?_, ?_⟩
    · rintro ⟨_, ⟨rfl, rfl⟩, rfl⟩
      exact ⟨rfl, rfl, hnone⟩
    · rintro ⟨rfl, rfl, -⟩
      exact ⟨table, ⟨rfl, rfl⟩, rfl⟩

/-- An alias stands for the table it was given to last. -/
theorem standsFor_setAlias {short : String} : StandsFor (setAlias aliases short table) key name ↔
    (key = short ∧ name = Text.lower table) ∨ (key ≠ short ∧ StandsFor aliases key name) := by
  simp only [StandsFor, setAlias, List.mem_cons, Prod.mk.injEq, List.mem_filter, bne_iff_ne,
    or_and_right, exists_or]
  refine or_congr ⟨?_, ?_⟩ ⟨?_, ?_⟩
  · rintro ⟨_, ⟨rfl, rfl⟩, rfl⟩
    exact ⟨rfl, rfl⟩
  · rintro ⟨rfl, rfl⟩
    exact ⟨table, ⟨rfl, rfl⟩, rfl⟩
  · rintro ⟨other, ⟨hmem, hne⟩, hname⟩
    exact ⟨hne, other, hmem, hname⟩
  · rintro ⟨hne, other, hmem, hname⟩
    exact ⟨other, ⟨hmem, hne⟩, hname⟩

/-- Aliases go on agreeing when tables that differ in letter case are named. -/
theorem AliasesAgree.bindName (h : AliasesAgree E aliases aliases')
    (htable : Text.Recased table table') :
    AliasesAgree E (bindName aliases table) (bindName aliases' table') := by
  intro key hkey name
  rw [standsFor_bindName, standsFor_bindName, ← Text.lower_of_recased htable, h key hkey]
  refine or_congr_right (and_congr_right fun hlower => and_congr_right fun _ => ?_)
  exact forall_congr' fun other => not_congr (h _ (hlower ▸ hkey) other)

theorem AliasesAgree.bindAlias (h : AliasesAgree E aliases aliases')
    (htable : Text.Recased table table') {given given' : Option String}
    (hgiven : Option.Rel Text.Recased given given') :
    AliasesAgree E (bindAlias aliases table given) (bindAlias aliases' table' given') := by
  cases hgiven with
  | none => exact h
  | some hshort =>
    simp only [IndexAdvice.bindAlias, hshort.isEmpty]
    split
    · exact h
    · intro key hkey name
      rw [standsFor_setAlias, standsFor_setAlias, Text.lower_of_recased hshort,
        Text.lower_of_recased htable, h key hkey]

/-- Lists of tables bring in the same qualifiers for them. -/
theorem AliasesAgree.foldl_tables {listed listed' : List (String × Option String)}
    (h : AliasesAgree E aliases aliases') (hlisted : List.Forall₂ RecasedTable listed listed') :
    AliasesAgree E
      (listed.foldl (fun aliases (table, short) =>
        IndexAdvice.bindAlias (IndexAdvice.bindName aliases table) table short) aliases)
      (listed'.foldl (fun aliases (table, short) =>
        IndexAdvice.bindAlias (IndexAdvice.bindName aliases table) table short) aliases') := by
  induction hlisted generalizing aliases aliases' with
  | nil => exact h
  | cons hentry _ ih => exact ih ((h.bindName hentry.1).bindAlias hentry.1 hentry.2)

/-- Joins bring in the same qualifiers for their tables. -/
theorem AliasesAgree.foldl_targets {targets targets' : List JoinTarget}
    (h : AliasesAgree E aliases aliases')
    (htargets : List.Forall₂ (JoinTarget.Restated a) targets targets') :
    AliasesAgree E
      (targets.foldl (fun aliases target => IndexAdvice.bindAlias
        (if target.table.isEmpty then aliases else IndexAdvice.bindName aliases target.table)
        target.table target.aliasName) aliases)
      (targets'.foldl (fun aliases target => IndexAdvice.bindAlias
        (if target.table.isEmpty then aliases else IndexAdvice.bindName aliases target.table)
        target.table target.aliasName) aliases') := by
  induction htargets generalizing aliases aliases' with
  | nil => exact h
  | cons htarget _ ih =>
    refine ih (.bindAlias ?_ htarget.table htarget.aliasName)
    rw [htarget.table.isEmpty]
    split
    · exact h
    · exact h.bindName htarget.table

/-- **Own qualifiers**: the subject's variants, the qualifiers of tables named like one of them,
and if there are none of these, the qualifiers of the first table. -/
theorem mem_ownQualifiers {subject : String} {tables : List String} :
    key ∈ ownQualifiers subject tables aliases ↔
      key ∈ variants subject ∨ (∃ v ∈ variants subject, StandsFor aliases key v) ∨
        ((∀ other, ∀ v ∈ variants subject, ¬ StandsFor aliases other v) ∧
          ∃ first ∈ tables.head?, StandsFor aliases key (Text.lower first)) := by
  have hfilter (p : String → Bool) (key : String) :
      key ∈ (aliases.filter fun entry => p (Text.lower entry.2)).map (·.1) ↔
        ∃ name, p name = true ∧ StandsFor aliases key name := by
    simp only [StandsFor, List.mem_map, List.mem_filter, Prod.exists, exists_and_right,
      exists_eq_right]
    constructor
    · rintro ⟨table, hmem, hp⟩
      exact ⟨_, hp, table, hmem, rfl⟩
    · rintro ⟨_, hp, table, hmem, rfl⟩
      exact ⟨table, hmem, hp⟩
  have hnamed := hfilter (variants subject).contains
  have hfirst (first : String) := hfilter (· == Text.lower first) key
  simp only [List.contains_iff_mem] at hnamed
  simp only [beq_iff_eq, exists_eq_left] at hfirst
  have hnil : (aliases.filter fun entry =>
      (variants subject).contains (Text.lower entry.2)).map (·.1) = [] ↔
        ∀ other, ∀ v ∈ variants subject, ¬ StandsFor aliases other v := by
    rw [List.eq_nil_iff_forall_not_mem]
    refine forall_congr' fun other => ?_
    rw [hnamed]
    simp
  rw [← hnil, ← hnamed]
  unfold ownQualifiers
  generalize (aliases.filter fun entry =>
    (variants subject).contains (Text.lower entry.2)).map (·.1) = named
  -- the first table counts only if no alias stands for a variant
  rcases named with _ | ⟨other, named⟩
  · cases tables with
    | nil => simp
    | cons first tables =>
      simp only [List.nil_append, List.mem_append, hfirst, List.not_mem_nil, false_or, true_and,
        List.head?_cons, Option.mem_some_iff, exists_eq_left']
      exact or_comm
  · simp only [List.append_nil, List.mem_append, reduceCtorEq, false_and, or_false]
    exact or_comm

end Aliases

/-! ### Scopes -/

/-- Restated tokens cover related stretches of text, if any stretch is related to the one `a`
characters further on. -/
theorem Scope.text_of_restated {scope scope' : Scope} {ts ts' : List Token}
    (hslice : ∀ i j, S (String.ofList (Text.slice scope.sql i j))
      (String.ofList (Text.slice scope'.sql (i + a) (j + a))))
    (h : List.Forall₂ (Token.Restated a) ts ts') : S (scope.text ts) (scope'.text ts') := by
  have hempty : S "" "" := by simpa [Text.slice] using hslice 0 0
  have hreverse := List.forall₂_reverse_iff.mpr h
  rw [Scope.text, Scope.text, List.getLast?_eq_head?_reverse, List.getLast?_eq_head?_reverse]
  generalize ts.reverse = us, ts'.reverse = us' at hreverse
  cases h with
  | nil => exact hempty
  | cons hfirst _ =>
    cases hreverse with
    | nil => exact hempty
    | cons hlast _ =>
      simp only [List.head?_cons, hfirst.start, hlast.stop]
      exact hslice _ _

/-- **Scopes.** Restated tables and joins make restated scopes. -/
theorem Scope.restates_ofSpans {query query' : Query} (groups groups' : List Group)
    {listed listed' : List (String × Option String)} {targets targets' : List JoinTarget}
    (hfields : query.fields = query'.fields) (htable : query.table = query'.table)
    (hslice : ∀ i j, S (String.ofList (Text.slice query.sql.toList i j))
      (String.ofList (Text.slice query'.sql.toList (i + a) (j + a))))
    (hlisted : List.Forall₂ RecasedTable listed listed')
    (htargets : List.Forall₂ (JoinTarget.Restated a) targets targets') :
    Scope.Restates a S (Scope.ofSpans query groups listed targets)
      (Scope.ofSpans query' groups' listed' targets') where
  fields := hfields
  ownNames name := by
    have hagree : AliasesAgree (fun _ => False) (Scope.ofSpans query groups listed targets).aliases
        (Scope.ofSpans query' groups' listed' targets').aliases :=
      AliasesAgree.foldl_targets (.foldl_tables (fun _ _ _ => Iff.rfl) hlisted) htargets
    have hstands (key name : String) := hagree key (fun h => h) name
    have hfirst : (∃ first ∈ (listed.map (·.1)).head?, StandsFor
          (Scope.ofSpans query groups listed targets).aliases name (Text.lower first)) ↔
        ∃ first ∈ (listed'.map (·.1)).head?, StandsFor
          (Scope.ofSpans query' groups' listed' targets').aliases name (Text.lower first) := by
      cases hlisted with
      | nil => simp
      | cons hentry _ => simp [hstands, Text.lower_of_recased hentry.1]
    rw [Bool.eq_iff_iff, List.contains_iff_mem, List.contains_iff_mem]
    refine mem_ownQualifiers.trans (Iff.trans ?_ mem_ownQualifiers.symm)
    rw [htable]
    refine or_congr_right (or_congr ?_ (and_congr ?_ hfirst))
    · exact exists_congr fun v => and_congr_right fun _ => hstands name v
    · exact forall₃_congr fun other v _ => not_congr (hstands other v)
  text _ _ h := Scope.text_of_restated hslice h

/-- The joins that are among the clauses of a query. -/
def JoinTarget.ofClauses (spans : List Span) : List JoinTarget :=
  (Span.tokensOf spans "JOIN").map JoinTarget.ofSpan

/-- The scope of a query that is divided into the given clauses. -/
def Scope.ofClauses (query : Query) (groups : List Group) (spans : List Span) : Scope :=
  Scope.ofSpans query groups
    ((Span.tokensOf spans "FROM" ++ Span.tokensOf spans "UPDATE").flatMap listedTables)
    (JoinTarget.ofClauses spans)

section Divided

variable {span : Span} {spans spans' : List Span}

/-- The keywords of the clauses that name tables. -/
def Keyword.naming : List String :=
  ["FROM", "UPDATE", "JOIN"]

/-- Only JOIN clauses have a join target. -/
theorem JoinTarget.ofClauses_cons (h : span.keyword ≠ "JOIN") :
    ofClauses (span :: spans) = ofClauses spans := by
  simp [ofClauses, Span.tokensOf, h]

/-- A clause that names no table brings nothing into scope. -/
theorem Scope.ofClauses_cons (h : span.keyword ∉ Keyword.naming) (query : Query)
    (groups : List Group) : ofClauses query groups (span :: spans) = ofClauses query groups spans := by
  have hfrom : span.keyword ≠ "FROM" := fun heq => h (heq ▸ by decide)
  have hupdate : span.keyword ≠ "UPDATE" := fun heq => h (heq ▸ by decide)
  have hjoin : span.keyword ≠ "JOIN" := fun heq => h (heq ▸ by decide)
  simp [ofClauses, JoinTarget.ofClauses_cons hjoin, Span.tokensOf, hfrom, hupdate]

/-- The join targets of restated clauses are restated. -/
theorem JoinTarget.restated_ofClauses (h : List.Forall₂ (Span.Restated a) spans spans')
    (hjoins : ∀ ts ∈ Span.tokensOf spans "JOIN", ts ≠ []) :
    List.Forall₂ (JoinTarget.Restated a) (ofClauses spans) (ofClauses spans') :=
  List.rel_map (fun _ _ h => restated_ofSpan h.1 (hjoins _ h.2.1))
    (forall₂_mem (Span.restated_tokensOf h "JOIN"))

/-- **Scopes of restated clauses resolve alike**, whatever stands before the clauses. -/
theorem Scope.restates_ofClauses {query query' : Query} (groups groups' : List Group)
    (hfields : query.fields = query'.fields) (htable : query.table = query'.table)
    (hslice : ∀ i j, S (String.ofList (Text.slice query.sql.toList i j))
      (String.ofList (Text.slice query'.sql.toList (i + a) (j + a))))
    (h : List.Forall₂ (Span.Restated a) spans spans')
    (hjoins : ∀ ts ∈ Span.tokensOf spans "JOIN", ts ≠ []) :
    Scope.Restates a S (ofClauses query groups spans) (ofClauses query' groups' spans') :=
  restates_ofSpans groups groups' hfields htable hslice
    (forall₂_flatMap (List.rel_append (Span.restated_tokensOf h "FROM")
      (Span.restated_tokensOf h "UPDATE")) fun _ _ _ => listedTables_of_restated)
    (JoinTarget.restated_ofClauses h hjoins)

end Divided

/-! ### Clauses -/

/-- The clauses that are read from spans in a scope. -/
def Clauses.readIn (scope : Scope) (splitOr : Bool) (spans : List Span) : Clauses where
  branches := (Predicate.branches scope splitOr (Span.firstOf spans "WHERE")).1
  hasOr := (Predicate.branches scope splitOr (Span.firstOf spans "WHERE")).2
  joins := (JoinTarget.ofClauses spans).map (JoinTarget.resolve scope)
  groupBy := groupColumns scope (Span.firstOf spans "GROUP BY")
  orderBy := sortColumns scope (Span.firstOf spans "ORDER BY")
  having := Predicate.having scope (Span.firstOf spans "HAVING")
  selected := selectedColumns scope (Span.firstOf spans "SELECT")
  tables := ((Span.tokensOf spans "FROM" ++ Span.tokensOf spans "UPDATE").flatMap listedTables).map
    (·.1)

/-- The clauses of a token list are read in the scope they set up. -/
theorem Clauses.ofTokens_eq_readIn (splitOr : Bool) (query : Query) (tokens : List Token)
    (groups : List Group) :
    Clauses.ofTokens splitOr query tokens groups =
      Clauses.readIn (Scope.ofClauses query groups (Span.divide tokens)) splitOr
        (Span.divide tokens) := by
  rw [Clauses.ofTokens]
  rfl

theorem Clauses.selected_ofTokens (splitOr : Bool) (query : Query) (tokens : List Token)
    (groups : List Group) :
    (Clauses.ofTokens splitOr query tokens groups).selected =
      selectedColumns (Scope.ofClauses query groups (Span.divide tokens))
        (Span.firstOf (Span.divide tokens) "SELECT") := by
  rw [Clauses.ofTokens_eq_readIn]
  rfl

theorem Clauses.branches_ofTokens (splitOr : Bool) (query : Query) (tokens : List Token)
    (groups : List Group) :
    let read := Predicate.branches (Scope.ofClauses query groups (Span.divide tokens)) splitOr
      (Span.firstOf (Span.divide tokens) "WHERE")
    (Clauses.ofTokens splitOr query tokens groups).branches = read.1 ∧
      (Clauses.ofTokens splitOr query tokens groups).hasOr = read.2 := by
  intro read
  rw [Clauses.ofTokens_eq_readIn]
  exact ⟨rfl, rfl⟩

/-- What two texts say about the columns of their table, one `a` characters further on than the
other. The select lists and the tables are left out. -/
structure Clauses.Restated (a : Nat) (S : String → String → Prop) (c c' : Clauses) : Prop where
  branches : List.Forall₂ (List.Forall₂ (Predicate.Restated a S)) c.branches c'.branches
  joins : List.Forall₂ (Join.Restated a) c.joins c'.joins
  groupBy : c.groupBy = c'.groupBy
  orderBy : c.orderBy = c'.orderBy
  hasOr : c.hasOr = c'.hasOr

/-- Queries with restated scopes, joins and clauses say the same. -/
theorem Clauses.restated_ofTokens (splitOr : Bool) {query query' : Query}
    {tokens tokens' : List Token} {groups groups' : List Group}
    (hscope : Scope.Restates a S (Scope.ofClauses query groups (Span.divide tokens))
      (Scope.ofClauses query' groups' (Span.divide tokens')))
    (htargets : List.Forall₂ (JoinTarget.Restated a) (JoinTarget.ofClauses (Span.divide tokens))
      (JoinTarget.ofClauses (Span.divide tokens')))
    (hfirst : ∀ keyword ∈ ["WHERE", "GROUP BY", "ORDER BY"], List.Forall₂ (Token.Restated a)
      (Span.firstOf (Span.divide tokens) keyword) (Span.firstOf (Span.divide tokens') keyword)) :
    Clauses.Restated a S (Clauses.ofTokens splitOr query tokens groups)
      (Clauses.ofTokens splitOr query' tokens' groups') := by
  have hbranches := Predicate.restated_branches hscope splitOr (hfirst "WHERE" (by decide))
  rw [ofTokens_eq_readIn, ofTokens_eq_readIn]
  exact {
    branches := hbranches.1
    joins := List.rel_map (fun _ _ htarget => JoinTarget.restated_resolve hscope htarget) htargets
    groupBy := groupColumns_of_restated hscope (hfirst "GROUP BY" (by decide))
    orderBy := sortColumns_of_restated hscope (hfirst "ORDER BY" (by decide))
    hasOr := hbranches.2 }

/-! ### Keys -/

section Keys

variable {c c' : Clauses} {branch branch' : List Predicate}

/-- Mentions of one column, one `a` characters further on than the other. -/
structure Mention.Restated (a : Nat) (m m' : Mention) : Prop where
  column : m.column = m'.column
  position : m'.position = m.position + a

/-- The place of a mention, `b` characters further on, and its column. -/
def Mention.spot (b : Nat) (m : Mention) : Int × String :=
  (m.position + b, m.column)

/-- The order of mentions by place and column alone. -/
def SpotPrecedes (x y : Int × String) : Prop :=
  x.1 < y.1 ∨ x.1 = y.1 ∧ x.2 ≤ y.2

theorem SpotPrecedes.antisymm {x y : Int × String} (hxy : SpotPrecedes x y)
    (hyx : SpotPrecedes y x) : x = y := by
  rcases hxy with hlt | ⟨heq, hle⟩
  · rcases hyx with hgt | ⟨heq, -⟩ <;> omega
  · rcases hyx with hgt | ⟨-, hge⟩
    · omega
    · exact Prod.ext heq (String.le_antisymm hle hge)

/-- The order of mentions is that of their spots. -/
theorem Mention.Precedes.spot {m n : Mention} (h : m.Precedes n) (b : Nat) :
    SpotPrecedes (m.spot b) (n.spot b) := by
  rcases h with hlt | ⟨heq, hlt | ⟨hcolumn, -⟩⟩
  · exact .inl (by simpa [Mention.spot] using hlt)
  · exact .inr ⟨congrArg (· + (b : Int)) heq, Std.le_of_lt hlt⟩
  · have hle : m.column ≤ n.column := hcolumn ▸ String.le_refl _
    exact .inr ⟨congrArg (· + (b : Int)) heq, hle⟩

/-- **Sorting** puts mentions of the same columns at the same places in the same order, whatever
their motives are: by place and column alone, both results are the one ordering of those. -/
theorem map_column_sortBy {ms ms' : List Mention} (h : List.Forall₂ (Mention.Restated a) ms ms') :
    (sortBy Mention.le ms).map (·.column) = (sortBy Mention.le ms').map (·.column) := by
  have hsorted (ms : List Mention) (b : Nat) :
      ((sortBy Mention.le ms).map (Mention.spot b)).Pairwise SpotPrecedes :=
    List.pairwise_map.mpr ((pairwise_sortBy Mention.le_total Mention.le_trans ms).imp fun h =>
      (Mention.le_iff.mp h).spot b)
  have hspots : ms.map (Mention.spot a) = ms'.map (Mention.spot 0) :=
    map_eq_of_forall₂ h fun m m' h => by
      rw [Mention.spot, Mention.spot, h.position, h.column, Int.natCast_zero, Int.add_zero]
  have hperm : ((sortBy Mention.le ms).map (Mention.spot a)).Perm
      ((sortBy Mention.le ms').map (Mention.spot 0)) :=
    ((perm_sortBy _ ms).map _).trans (hspots ▸ ((perm_sortBy _ ms').map _).symm)
  have heq := hperm.eq_of_pairwise (fun _ _ _ _ => SpotPrecedes.antisymm) (hsorted ms a)
    (hsorted ms' 0)
  have hcolumns := congrArg (List.map Prod.snd) heq
  rwa [List.map_map, List.map_map] at hcolumns

namespace Candidate

/-- **Restated clauses give the same columns** to a candidate, in the same order. -/
theorem columns_of_restated (hc : Clauses.Restated a S c c')
    (hbranch : List.Forall₂ (Predicate.Restated a S) branch branch') (caps : Capabilities) :
    (ofBranch caps c branch).columns = (ofBranch caps c' branch').columns := by
  have hequality : (equalityMentions caps c branch).map (·.column) =
      (equalityMentions caps c' branch').map (·.column) := by
    refine map_column_sortBy (List.rel_append (R := Mention.Restated a) ?_ ?_)
    · refine List.rel_filterMap (fun p p' hp => ?_) hbranch
      have hcolumn : equalityColumn? p = equalityColumn? p' := by
        simp only [equalityColumn?, hp.kind, hp.column]
      rw [hcolumn]
      cases equalityColumn? p' with
      | none => exact .none
      | some column => exact .some ⟨rfl, hp.position⟩
    · refine List.rel_filterMap (fun j j' hj => ?_) hc.joins
      rw [hj.kind, hj.localColumn]
      split
      · cases j'.localColumn with
        | none => exact .none
        | some column => exact .some ⟨rfl, hj.position⟩
      · exact .none
  have hrange : branch.filterMap rangeColumn? = branch'.filterMap rangeColumn? :=
    filterMap_eq_of_forall₂ hbranch fun p p' hp => by
      simp only [rangeColumn?, hp.kind, hp.column]
  rw [columns_ofBranch, columns_ofBranch]
  simp only [Role.all, List.flatMap_cons, List.flatMap_nil, roleColumns, hequality, hrange,
    hc.groupBy, hc.orderBy]

end Candidate

/-- **Keys.** Restated clauses have candidates with the same key columns for every target
database. -/
theorem Clauses.Restated.columns (h : Clauses.Restated a S c c') (caps : Capabilities) :
    (Candidate.ofClauses caps c).map Candidate.columns =
      (Candidate.ofClauses caps c').map Candidate.columns := by
  have hbranches : List.Forall₂ (List.Forall₂ (Predicate.Restated a S))
      (if c.branches.isEmpty then [[]] else c.branches)
      (if c'.branches.isEmpty then [[]] else c'.branches) := by
    rw [isEmpty_of_forall₂ h.branches]
    split
    · exact .cons .nil .nil
    · exact h.branches
  rw [Candidate.ofClauses, Candidate.ofClauses, List.map_map, List.map_map]
  exact map_eq_of_forall₂ hbranches fun _ _ hbranch =>
    Candidate.columns_of_restated h hbranch caps

/-- The branches of restated clauses have the same predicates, up to their texts and places. -/
theorem Clauses.Restated.essences (h : Clauses.Restated a S c c') :
    c.branches.map (List.map Predicate.essence) =
      c'.branches.map (List.map Predicate.essence) := by
  refine map_eq_of_forall₂ h.branches fun branch branch' hbranch => ?_
  refine map_eq_of_forall₂ hbranch fun p p' hp => ?_
  simp only [Predicate.essence, hp.column, hp.kind, hp.isLiteral, hp.operator]

end Keys

end IndexAdvice
