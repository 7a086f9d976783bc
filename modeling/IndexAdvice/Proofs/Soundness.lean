import IndexAdvice.Advisor
import IndexAdvice.Proofs.AdviceOrigin
import IndexAdvice.Proofs.DeclaredColumns
import IndexAdvice.Proofs.KeyOrder

/-!
# Recommendations are sound

A recommended index must fit the table it is recommended for. `Recommendation.StemsFrom` states what
that means for one query and one branch of its search: every column of the index is a declared
column of the query's table, no column occurs twice in any letter case, and the condition of a
partial index consists of equalities of that branch.

The two ingredients come from elsewhere: a recommendation is made for a candidate of some record
(`Advice.madeFor_of_mem_recommendations`), and what a record says is grounded in the fields of its
query (`grounded_parse`). `reports_sound` puts them together for both entry points of the advisor.
-/

namespace IndexAdvice

open Text

/-! ### What a candidate is made of -/

section Candidates

variable {caps : Capabilities} {clauses : Clauses} {branch : List Predicate} {fields : List String}

/-- Predicates of every branch stand on declared columns. -/
private theorem branch_grounded (hg : clauses.Grounded fields)
    (hbranch : branch ∈ clauses.searchBranches) {p : Predicate} (hp : p ∈ branch) {column : String}
    (h : p.column = some column) : Declared fields column := by
  rw [Clauses.searchBranches] at hbranch
  split at hbranch
  · rw [List.mem_singleton.mp hbranch] at hp
    simp at hp
  · exact hg.branches branch hbranch p hp column h

/-- Key columns are declared. -/
theorem declared_of_mem_columns (hg : clauses.Grounded fields)
    (hbranch : branch ∈ clauses.searchBranches) {column : String}
    (h : column ∈ (Candidate.ofBranch caps clauses branch).columns) : Declared fields column := by
  obtain ⟨role, hrole⟩ := mem_columns_ofBranch.mp h
  cases hrole with
  | equality hp _ hcolumn _ => exact branch_grounded hg hbranch hp hcolumn
  | join hj _ hcolumn => exact hg.joins _ hj _ hcolumn
  | range hp _ hcolumn _ => exact branch_grounded hg hbranch hp hcolumn
  | group hcolumn => exact hg.groupBy _ hcolumn
  | sort hs => exact hg.orderBy _ hs

/-- A candidate has each column once. -/
theorem nodup_columns : (Candidate.ofBranch caps clauses branch).columns.Nodup := by
  rw [columns_ofBranch]
  exact nodup_eraseDups _

/-- Key columns differ in more than letter case. -/
theorem pairwise_lower_ne_columns (hg : clauses.Grounded fields)
    (hbranch : branch ∈ clauses.searchBranches) :
    (Candidate.ofBranch caps clauses branch).columns.Pairwise fun a b => lower a ≠ lower b := by
  refine List.Pairwise.imp_of_mem (fun {a b} ha hb hne hlower => hne ?_) nodup_columns
  exact (declared_of_mem_columns hg hbranch ha).eq_of_lower_eq
    (declared_of_mem_columns hg hbranch hb) hlower

/-- Selected columns that are left for covering are declared and not in the key. -/
theorem mem_selectedOnly {column : String}
    (h : column ∈ (Candidate.ofBranch caps clauses branch).selectedOnly) :
    column ∈ clauses.selected ∧ column ∉ (Candidate.ofBranch caps clauses branch).columns := by
  obtain ⟨hselected, hkey⟩ := List.mem_filter.mp h
  refine ⟨hselected, fun hmem => ?_⟩
  obtain ⟨k, hk, rfl⟩ := List.mem_map.mp hmem
  rw [Bool.not_eq_true'] at hkey
  exact Bool.false_ne_true (hkey.symm.trans (List.any_eq_true.mpr ⟨k, hk, beq_self_eq_true _⟩))

/-- A literal of a candidate is an equality of its branch, rendered with a declared column. -/
theorem mem_literals (hg : clauses.Grounded fields) (hbranch : branch ∈ clauses.searchBranches)
    {p : Predicate} (h : p ∈ (Candidate.ofBranch caps clauses branch).literals) :
    p ∈ branch ∧ ∃ column ∈ fields, p.column = some column ∧
      p.render = column ++ " " ++ p.operator ++ " " ++ p.value := by
  obtain ⟨hp, hliteral⟩ := List.mem_filter.mp h
  obtain ⟨column, hcolumn⟩ := Option.isSome_iff_exists.mp (Bool.and_eq_true_iff.mp hliteral).2
  obtain ⟨hkind, hsome, -⟩ := equalityColumn?_eq_some.mp hcolumn
  refine ⟨hp, column, (branch_grounded hg hbranch hp hsome).mem, hsome, ?_⟩
  simp only [Predicate.render, hsome, hkind]
  rfl

end Candidates

/-! ### Soundness of one recommendation -/

/-- A recommendation stems from one branch of a query. -/
structure Recommendation.StemsFrom (caps : Capabilities) (query : Query) (clauses : Clauses)
    (branch : List Predicate) (r : Recommendation) : Prop where
  /-- The key is the key of the branch. -/
  columns_eq : r.columns = (Candidate.ofBranch caps clauses branch).columns
  columns_ne_nil : r.columns ≠ []
  /-- The key columns differ in more than letter case. -/
  columns_distinct : r.columns.Pairwise fun a b => lower a ≠ lower b
  columns_declared : ∀ column ∈ r.columns, column ∈ query.fields
  covering_distinct : r.covering.Nodup
  covering_declared : ∀ column ∈ r.covering, column ∈ query.fields
  covering_disjoint : ∀ column ∈ r.covering, column ∉ r.columns
  /-- The condition is a conjunction of equalities of the branch on declared columns. -/
  condition_declared : ∀ condition, r.condition = some condition → ∃ conjuncts : List Predicate,
    conjuncts ≠ [] ∧ condition = " AND ".intercalate (conjuncts.map (·.render)) ∧
      ∀ p ∈ conjuncts, p ∈ branch ∧ ∃ column ∈ query.fields, p.column = some column ∧
        p.render = column ++ " " ++ p.operator ++ " " ++ p.value
  source_eq : r.source = query.location
  sql_eq : r.sql = query.sql
  origin_eq : r.origin = query.origin

/-- A recommendation made for a candidate of grounded clauses stems from one of their branches. -/
theorem Advice.stemsFrom_of_madeFor {target : Target} {table : String} {query : Query}
    {clauses : Clauses} {r : Recommendation} (hg : clauses.Grounded query.fields)
    (hselected : clauses.selected.Nodup) (h : MadeFor target table (query, clauses) r) :
    ∃ branch ∈ clauses.searchBranches,
      r.StemsFrom target.capabilities query clauses branch := by
  obtain ⟨-, c, hc, hkey, rfl⟩ := h
  obtain ⟨branch, hbranch, rfl⟩ := List.mem_map.mp hc
  refine ⟨branch, hbranch, ?_⟩
  -- a database without covering indexes gets none, any other the selected columns left
  have hcovering : ∀ column ∈ (recommend target table query
      (Candidate.ofBranch target.capabilities clauses branch)).covering,
      column ∈ (Candidate.ofBranch target.capabilities clauses branch).selectedOnly := by
    intro column hcolumn
    simp only [recommend] at hcolumn
    split at hcolumn
    · exact hcolumn
    · simp at hcolumn
  constructor
  case columns_eq => rfl
  case columns_ne_nil => exact fun h => hkey (List.map_eq_nil_iff.mp h)
  case columns_distinct => exact pairwise_lower_ne_columns hg hbranch
  case columns_declared => exact fun column h => (declared_of_mem_columns hg hbranch h).mem
  case covering_distinct =>
    simp only [recommend]
    split
    · exact hselected.filter _
    · exact List.nodup_nil
  case covering_declared =>
    exact fun column h => (hg.selected _ (mem_selectedOnly (hcovering column h)).1).mem
  case covering_disjoint => exact fun column h => (mem_selectedOnly (hcovering column h)).2
  case condition_declared =>
    intro condition hcondition
    simp only [recommend] at hcondition
    split at hcondition
    · rename_i hliterals
      refine ⟨_, ?_, (Option.some.inj hcondition).symm, fun p hp => mem_literals hg hbranch hp⟩
      simpa using (Bool.and_eq_true_iff.mp hliterals).1
    · simp at hcondition
  case source_eq => rfl
  case sql_eq => rfl
  case origin_eq => rfl

/-! ### Names of columns -/

section Names

open Source

theorem ne_empty_of_fieldName? {segment : List Char} {field : String}
    (h : fieldName? segment = some field) : field ≠ "" := by
  obtain ⟨name, hname, rfl⟩ := Option.map_eq_some_iff.mp h
  obtain ⟨start, -, hstart⟩ := List.exists_of_findSome?_eq_some hname
  simp only [nameBeforeColon?] at hstart
  split at hstart
  · rename_i hhead
    split at hstart
    · split at hstart
      · simp at hstart
      · obtain rfl := Option.some.inj hstart
        intro hempty
        rw [String.ofList_eq_empty_iff.mp hempty] at hhead
        simp at hhead
    · simp at hstart
  · simp at hstart

/-- Declared fields have names. -/
theorem ne_empty_of_mem_declarations {file : String} {text : List Char} {d : Declaration}
    (hd : d ∈ declarations file text) {field : String} (h : field ∈ d.fields) : field ≠ "" := by
  obtain ⟨head, -, rfl⟩ := List.mem_map.mp hd
  obtain ⟨segment, -, hsegment⟩ := List.mem_filterMap.mp (List.mem_eraseDups.mp h)
  exact ne_empty_of_fieldName? hsegment

/-- A query of a source text gets its columns from a declaration or from the fallback catalog. -/
theorem exists_of_mem_fields_queries {methods : List String} {fallback : Catalog} {file : String}
    {text : List Char} {query : Query} (hq : query ∈ queries methods fallback file text)
    {field : String} (h : field ∈ query.fields) :
    (∃ d ∈ declarations file text, field ∈ d.fields) ∨ ∃ entry ∈ fallback, field ∈ entry.2 := by
  obtain ⟨call, -, rfl⟩ := List.mem_map.mp hq
  simp only [callFields] at h
  split at h
  · -- no declaration with fields stands before the call
    right
    cases hfound : fallback.lookup call.subject with
    | none => simp [hfound] at h
    | some fields =>
      obtain ⟨l₁, l₂, rfl, -⟩ := List.lookup_eq_some_iff.mp hfound
      exact ⟨(call.subject, fields), by simp, by simpa [hfound] using h⟩
  · left
    simp only [closestFields] at h
    cases hfound : ((declarations file text).reverse.find? fun d =>
        d.position < call.place.position && d.name == call.subject && !d.fields.isEmpty) with
    | none => simp [hfound] at h
    | some d =>
      exact ⟨d, List.mem_reverse.mp (List.mem_of_find?_eq_some hfound), by simpa [hfound] using h⟩

/-- Declaring adds an entry and changes none. -/
theorem Catalog.mem_of_mem_declare {catalog : Catalog} {name : String} {fields : List String}
    {entry : String × List String} (h : entry ∈ catalog.declare name fields) :
    entry ∈ catalog ∨ entry = (name, fields) := by
  simp only [Catalog.declare] at h
  split at h
  · obtain ⟨e, he, rfl⟩ := List.mem_map.mp h
    split
    · exact .inr rfl
    · exact .inl he
  · simpa using h

theorem Catalog.mem_of_mem_ofDeclarations {declarations : List (String × List String)}
    {entry : String × List String} (h : entry ∈ Catalog.ofDeclarations declarations) :
    entry ∈ declarations := by
  have step : ∀ (catalog : Catalog) (d entry : String × List String),
      entry ∈ catalog.declare d.1 d.2 → entry ∈ catalog ∨ entry = d :=
    fun _ _ _ h => Catalog.mem_of_mem_declare h
  rcases exists_of_mem_foldl (o := id) step h with h | ⟨d, hd, rfl⟩
  · simp at h
  · exact hd

end Names

/-! ### Soundness of reports -/

/-- Every recommendation of a report stems from one of its queries and a branch of what is read in
that query, and no key column has an empty name. -/
def Report.Sound (catalog : Catalog) (splitOr : Bool) (report : Report) : Prop :=
  ∀ r ∈ report.recommendations, ∃ query ∈ report.queries,
    ∃ branch ∈ (query.parse catalog splitOr).clauses.searchBranches,
      r.StemsFrom report.capabilities query (query.parse catalog splitOr).clauses branch ∧
        "" ∉ r.columns

theorem nodup_selected_parse (catalog : Catalog) (splitOr : Bool) (query : Query) :
    (query.parse catalog splitOr).clauses.selected.Nodup := by
  rw [Query.clauses_parse]
  simp only [Clauses.ofTokens, selectedColumns]
  exact nodup_eraseDups _

namespace Advisor

/-- A report on queries is sound if all columns it can draw on have names. -/
theorem sound_reportOn (advisor : Advisor) (catalog : Catalog) (filesScanned : Nat)
    (source : String) (queries : List Query) (hcatalog : ∀ entry ∈ catalog, "" ∉ entry.2)
    (hqueries : ∀ query ∈ queries, "" ∉ query.fields) :
    (advisor.reportOn catalog filesScanned source queries).Sound catalog
      advisor.settings.splitOrBranches := by
  intro r hr
  obtain ⟨table, ⟨query, clauses⟩, hrecord, hmade⟩ := Advice.madeFor_of_mem_recommendations hr
  obtain ⟨top, htop, hmem⟩ := List.mem_flatMap.mp hrecord
  have hclauses : clauses = (query.parse catalog _).clauses :=
    Query.clauses_eq_of_mem_records hmem
  subst hclauses
  obtain ⟨branch, hbranch, hstems⟩ := Advice.stemsFrom_of_madeFor
    (grounded_parse catalog _ query) (nodup_selected_parse catalog _ query) hmade
  refine ⟨query, List.mem_map.mpr ⟨_, hrecord, rfl⟩, branch, hbranch, hstems, fun hempty => ?_⟩
  -- the columns of a nested query are those of the query around it or of the catalog
  rcases Query.mem_fields_of_mem_records hmem (hstems.columns_declared _ hempty) with h | h
  · exact hqueries top htop h
  · obtain ⟨entry, hentry, h⟩ := h
    exact hcatalog entry hentry h

/-- The declarations of source texts, text by text. -/
def declarationsOf (texts : List (String × String)) : List (List Source.Declaration) :=
  texts.map fun (name, text) => Source.declarations name text.toList

private theorem not_mem_of_mem_flatten {texts : List (String × String)} {d : Source.Declaration}
    (h : d ∈ (declarationsOf texts).flatten) : "" ∉ d.fields := by
  obtain ⟨ds, hds, hd⟩ := List.mem_flatten.mp h
  obtain ⟨⟨name, text⟩, -, rfl⟩ := List.mem_map.mp hds
  exact fun hempty => ne_empty_of_mem_declarations hd hempty rfl

/-- No catalog made of declarations has a field without a name. -/
private theorem not_mem_of_mem_catalogOf {texts : List (String × String)}
    {entry : String × List String} (h : entry ∈ catalogOf (declarationsOf texts).flatten) :
    "" ∉ entry.2 := by
  obtain ⟨d, hd, rfl⟩ := List.mem_map.mp (Catalog.mem_of_mem_ofDeclarations h)
  exact not_mem_of_mem_flatten (List.mem_of_mem_filter hd)

private theorem not_mem_of_mem_fieldsElsewhere {texts : List (String × String)} {i : Nat}
    {entry : String × List String} (h : entry ∈ fieldsElsewhere (declarationsOf texts) i) :
    "" ∉ entry.2 := by
  obtain ⟨d, hd, rfl⟩ := List.mem_map.mp h
  obtain ⟨ds, hds, hd⟩ := List.mem_flatten.mp (List.mem_reverse.mp (List.mem_of_mem_filter hd))
  exact not_mem_of_mem_flatten (List.mem_flatten.mpr ⟨ds, List.mem_of_mem_eraseIdx hds, hd⟩)

/-- **Recommendations are sound.** Whatever the settings and the target database, every
recommendation on source texts, or on a single query with its field list, stems from a query of the
report and one branch of its search: its columns are declared columns of that query's table, told
apart by more than letter case. -/
theorem reports_sound (advisor : Advisor) :
    (∀ source texts, (advisor.analyzeSources source texts).Sound
      (catalogOf (declarationsOf texts).flatten) advisor.settings.splitOrBranches) ∧
    ∀ sql table fields, (advisor.analyzeQuery sql table fields).Sound
      [(table, (fields.map strip).filter (!·.isEmpty))] advisor.settings.splitOrBranches := by
  constructor
  · intro source texts
    refine sound_reportOn advisor _ _ source _ (fun _ => not_mem_of_mem_catalogOf) ?_
    intro query hquery hempty
    obtain ⟨⟨⟨name, text⟩, i⟩, htext, hquery⟩ := List.mem_flatMap.mp hquery
    rcases exists_of_mem_fields_queries hquery hempty with ⟨d, hd, h⟩ | ⟨entry, hentry, h⟩
    · exact ne_empty_of_mem_declarations hd h rfl
    · split at hentry
      · exact not_mem_of_mem_fieldsElsewhere hentry h
      · simp at hentry
  · intro sql table fields
    refine sound_reportOn advisor _ 0 table _ (fun entry h => ?_) (fun query h => ?_)
    · rw [List.mem_singleton.mp h]
      simp
    · rw [List.mem_singleton.mp h]
      simp

/-- An advisor with the usual settings. -/
def ofCapabilities (caps : Capabilities) : Advisor :=
  ⟨{}, caps⟩

/-- A declaration and a call whose query names the columns in another letter case, one of them in a
nested query. -/
def taskSource : String :=
  "struct Task{id:u8,due:u8}\nTask::make_query(\"ID IN (SELECT 1 ORDER BY DUE)\")"

/-- Both queries of the source lead to a recommendation, in declared spelling. -/
theorem taskSource_sound :
    ((ofCapabilities (.of .postgres none)).analyzeSources "" [("", taskSource)]).recommendations.map
        (·.columns) = [["id"], ["due"]] ∧
      ((ofCapabilities (.of .postgres none)).analyzeSources "" [("", taskSource)]).Sound
        (catalogOf (declarationsOf [("", taskSource)]).flatten) true := by
  refine ⟨?_, (reports_sound (ofCapabilities (.of .postgres none))).1 "" [("", taskSource)]⟩
  decide +kernel

end Advisor

end IndexAdvice
