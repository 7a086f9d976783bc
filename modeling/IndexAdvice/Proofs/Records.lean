import IndexAdvice.Parse

/-!
# The records of a query

`Query.records` lists a query and all queries nested in it. `Query.parse` builds them as a tree
whose recursion follows the nesting of the text; this module restates them as lists, one list for
each outermost group (`records_eq`), and gives the induction along the nesting that goes with it
(`Query.nestedInduction`). Everything else about nested queries is derived from these two.
-/

namespace IndexAdvice

/-- Fields that a catalog has for a table are those of one of its entries. -/
theorem Catalog.exists_mem_of_mem_fieldsFor {catalog : Catalog} {table field : String}
    (h : field ∈ catalog.fieldsFor table) : ∃ entry ∈ catalog, field ∈ entry.2 := by
  rw [Catalog.fieldsFor] at h
  cases hfound : (sortTexts (variants table)).findSome? catalog.ofVariant? with
  | none => simp [hfound] at h
  | some fields =>
    obtain ⟨variant, -, hvariant⟩ := List.exists_of_findSome?_eq_some hfound
    obtain ⟨entry, hentry, rfl⟩ := Option.map_eq_some_iff.mp hvariant
    exact ⟨entry, List.mem_of_find?_eq_some hentry, by simpa [hfound] using h⟩

namespace Query

variable (catalog : Catalog) (splitOr : Bool)

/-- The outermost groups of a query's text. -/
def groups (query : Query) : List Group :=
  Group.ofTokens query.sql.toList (statementTokens query.sql)

/-- The text of a group's query is shorter than the text around it. -/
theorem length_sql_lt_of_mem_groups {query : Query} {g : Group} (h : g ∈ query.groups) :
    (g.query catalog query).sql.length < query.sql.length := by
  have := Group.sql_length_lt_of_mem_ofTokens (ne_nil_of_mem_groups h) h
  simpa [Group.query, Query.nestedIn, String.length_toList] using this

/-- **Induction along the nesting**: what holds of a query once it holds of the queries of all its
groups holds of every query. -/
theorem nestedInduction {motive : Query → Prop}
    (step : ∀ query : Query, (∀ g ∈ query.groups, motive (g.query catalog query)) → motive query)
    (query : Query) : motive query :=
  step query fun g hg =>
    have := length_sql_lt_of_mem_groups catalog hg
    nestedInduction step (g.query catalog query)
termination_by query.sql.length

/-- The clauses of a query are read from its own tokens and groups. -/
theorem clauses_parse (query : Query) :
    (query.parse catalog splitOr).clauses =
      Clauses.ofTokens splitOr query (statementTokens query.sql) query.groups := by
  rw [Query.parse, groups]

/-- A tree with the query of one more group, and what is nested in it, in front. -/
def nest (query : Query) (g : Group) (rest : Nested) : Nested :=
  let read := (g.query catalog query).parse catalog splitOr
  .cons g.start g.stop (g.query catalog query) read.clauses read.nested rest

/-- The nested queries of a query are read from its groups, in their order. -/
theorem nested_parse (query : Query) :
    (query.parse catalog splitOr).nested =
      query.groups.foldr (nest catalog splitOr query) .nil := by
  rw [Query.parse]
  exact List.foldr_attach (f := nest catalog splitOr query)

/-- The records nested in a query are those of its groups, one group after the other. -/
theorem records_nested_parse (query : Query) :
    (query.parse catalog splitOr).nested.records =
      query.groups.flatMap fun g => (g.query catalog query).records catalog splitOr := by
  rw [nested_parse]
  induction query.groups with
  | nil => rfl
  | cons g gs ih => rw [List.foldr_cons, nest, Nested.records, ih]; rfl

/-- The records of a query: the query itself, then group by group the records of the group. -/
theorem records_eq (query : Query) :
    query.records catalog splitOr =
      (query, (query.parse catalog splitOr).clauses) ::
        query.groups.flatMap fun g => (g.query catalog query).records catalog splitOr := by
  rw [Query.records, Parsed.records, records_nested_parse]

variable {catalog splitOr}

/-- What a record says about its query is what is read in that query by itself. -/
theorem clauses_eq_of_mem_records {query : Query} {record : Query × Clauses}
    (h : record ∈ query.records catalog splitOr) :
    record.2 = (record.1.parse catalog splitOr).clauses := by
  induction query using nestedInduction catalog with
  | step query ih =>
    rw [records_eq, List.mem_cons, List.mem_flatMap] at h
    rcases h with rfl | ⟨g, hg, h⟩
    · rfl
    · exact ih g hg h

/-- The columns that a group's query knows of come from the query around it or from the catalog. -/
theorem mem_fields_query {query : Query} {g : Group} {field : String}
    (h : field ∈ (g.query catalog query).fields) :
    field ∈ query.fields ∨ ∃ entry ∈ catalog, field ∈ entry.2 := by
  simp only [Group.query, Query.nestedIn] at h
  split at h
  · exact .inl h
  · exact .inr (Catalog.exists_mem_of_mem_fieldsFor h)

/-- The columns that a record knows of come from the query it is listed for or from the catalog. -/
theorem mem_fields_of_mem_records {query : Query} {record : Query × Clauses}
    (h : record ∈ query.records catalog splitOr) {field : String} (hf : field ∈ record.1.fields) :
    field ∈ query.fields ∨ ∃ entry ∈ catalog, field ∈ entry.2 := by
  induction query using nestedInduction catalog with
  | step query ih =>
    rw [records_eq, List.mem_cons, List.mem_flatMap] at h
    rcases h with rfl | ⟨g, hg, h⟩
    · exact .inl hf
    · rcases ih g hg h with hg | hcatalog
      · exact mem_fields_query hg
      · exact .inr hcatalog

end Query

end IndexAdvice
