import Mathlib.Data.List.Find
import IndexAdvice.Proofs.RelatedLists
import IndexAdvice.Proofs.Soundness

/-!
# Files apart

With declarations of other files switched off, a call gets its columns from its own file. Nested
queries get theirs from the catalog, and this holds the declarations of **all** files whatever the
switch says. `Query.records_apart` compares what two catalogs make of one text: they find the same
queries, and give them the same columns as long as they agree on the nested tables.

So a file that is read in company is read as it is alone up to the columns of nested queries, and
these too are the same unless another file declares a table of that name: `files_read_apart`. That
they may differ is seen in `models_reach_nested_query`.
-/

namespace IndexAdvice

open Source

/-! ### Two catalogs -/

namespace Catalog

variable {catalog : Catalog} {declarations : List (String × List String)} {p : String → Bool}

/-- Declaring a name does nothing to the entries of other names. -/
theorem filter_declare (catalog : Catalog) (p : String → Bool) (name : String)
    (fields : List String) :
    (catalog.declare name fields).filter (p ·.1) =
      if p name then declare (catalog.filter (p ·.1)) name fields else catalog.filter (p ·.1) := by
  have hreplaced : ∀ entry : String × List String,
      p (if entry.1 == name then (name, fields) else entry).1 = p entry.1 := by
    intro entry
    split
    · rename_i heq
      rw [eq_of_beq heq]
    · rfl
  have hmap : (catalog.map fun entry => if entry.1 == name then (name, fields) else entry).filter
      (p ·.1) = (catalog.filter (p ·.1)).map fun entry =>
        if entry.1 == name then (name, fields) else entry := by
    rw [List.filter_map]
    exact congrArg _ (List.filter_congr fun entry _ => hreplaced entry)
  -- the entry of the name is replaced or added, and passes the test as the name does
  cases hp : p name with
  | true =>
    have hany : (catalog.filter (p ·.1)).any (·.1 == name) = catalog.any (·.1 == name) := by
      rw [List.any_filter]
      refine List.any_congr rfl fun entry => ?_
      cases heq : entry.1 == name with
      | true => rw [eq_of_beq heq, hp]; rfl
      | false => rw [Bool.and_false]
    rw [declare, declare, if_pos rfl, hany]
    split
    · exact hmap
    · rw [List.filter_append, List.filter_singleton, hp]
      rfl
  | false =>
    rw [if_neg Bool.false_ne_true, declare]
    split
    · rw [hmap]
      refine (List.map_congr_left fun entry hentry => if_neg fun heq => ?_).trans (List.map_id _)
      have hkept := (List.mem_filter.mp hentry).2
      rw [eq_of_beq heq, hp] at hkept
      exact Bool.false_ne_true hkept
    · rw [List.filter_append, List.filter_singleton, hp]
      exact List.append_nil _

/-- The entries of some names are made by the declarations of those names. -/
theorem filter_ofDeclarations (declarations : List (String × List String)) (p : String → Bool) :
    (ofDeclarations declarations).filter (p ·.1) = ofDeclarations (declarations.filter (p ·.1)) := by
  induction declarations using List.reverseRecOn with
  | nil => rfl
  | append_singleton declarations d ih =>
    have hlast (ds : List (String × List String)) :
        ofDeclarations (ds ++ [d]) = (ofDeclarations ds).declare d.1 d.2 := by
      simp [ofDeclarations]
    rw [hlast, filter_declare, ih, List.filter_append, List.filter_singleton]
    cases p d.1 with
    | true => exact (hlast _).symm
    | false => exact congrArg ofDeclarations (List.append_nil _).symm

/-- What is found under a variant depends on the entries that have the variant. -/
theorem ofVariant?_filter (catalog : Catalog) (v : String) :
    ofVariant? (catalog.filter fun entry => (variants entry.1).contains v) v =
      catalog.ofVariant? v := by
  rw [ofVariant?, ofVariant?, List.find?_filter]
  refine congrArg _ (List.find?_congr fun entry _ => ?_)
  rw [Bool.eq_iff_iff, decide_eq_true_eq, Bool.and_eq_true]
  exact ⟨And.right, fun h => ⟨h.2, h⟩⟩

/-- The fields of a table depend on the entries under its variants. -/
theorem fieldsFor_congr {catalog' : Catalog} {table : String}
    (h : ∀ v ∈ variants table, catalog.ofVariant? v = catalog'.ofVariant? v) :
    catalog.fieldsFor table = catalog'.fieldsFor table := by
  rw [fieldsFor, fieldsFor, findSome?_congr fun v hv => h v (mem_sortTexts.mp hv)]

end Catalog

/-! ### Tables that are declared elsewhere -/

/-- Whether no declaration with fields is for the table, under any of its names. -/
def Undeclared (declared : List Declaration) (table : String) : Prop :=
  ∀ d ∈ declared, d.fields ≠ [] → shareVariant d.name table = false

instance (declared : List Declaration) (table : String) : Decidable (Undeclared declared table) :=
  inferInstanceAs (Decidable (∀ d ∈ declared, _))

namespace Advisor

/-- Declarations for other tables do not matter to what is known about a table. -/
theorem fieldsFor_catalogOf {before own after : List Declaration} {table : String}
    (hbefore : Undeclared before table) (hafter : Undeclared after table) :
    (catalogOf (before ++ (own ++ after))).fieldsFor table = (catalogOf own).fieldsFor table := by
  refine Catalog.fieldsFor_congr fun v hv => ?_
  -- the variant singles out declarations, and those for other tables are not among them
  have hnone {ds : List Declaration} (hds : Undeclared ds table) :
      ((ds.filter (!·.fields.isEmpty)).map fun d => (d.name, d.fields)).filter
        (fun entry => (variants entry.1).contains v) = [] := by
    rw [List.filter_eq_nil_iff]
    intro entry hentry hcontains
    obtain ⟨d, hd, rfl⟩ := List.mem_map.mp hentry
    obtain ⟨hmem, hfields⟩ := List.mem_filter.mp hd
    have hapart := hds d hmem (by simpa using hfields)
    rw [shareVariant, List.any_eq_false] at hapart
    exact hapart v (List.contains_iff_mem.mp hcontains) (List.contains_iff_mem.mpr hv)
  rw [← Catalog.ofVariant?_filter (catalogOf _), ← Catalog.ofVariant?_filter (catalogOf own),
    catalogOf, catalogOf, Catalog.filter_ofDeclarations _ fun name => (variants name).contains v,
    Catalog.filter_ofDeclarations _ fun name => (variants name).contains v]
  simp only [List.filter_append, List.map_append, hnone hbefore, hnone hafter, List.nil_append,
    List.append_nil]

end Advisor

/-! ### One text under two catalogs -/

namespace Query

/-- What a query is apart from the columns that are known of its table. -/
def outline (q : Query) : String × String × Option Origin :=
  (q.table, q.sql, q.origin)

/-- Whether the query and those around it, as far as they are nested, run on tables that the
declarations are not for. -/
def Apart (declared : List Declaration) (q : Query) : Prop :=
  ∀ s ∈ q.toStatement :: q.ancestors, s.origin ≠ none → Undeclared declared s.table

instance (declared : List Declaration) (q : Query) : Decidable (q.Apart declared) :=
  inferInstanceAs (Decidable (∀ s ∈ _, _))

/-- The same query in two readings, with the same columns if it is apart. -/
def SameApart (declared : List Declaration) (q alone : Query) : Prop :=
  q.outline = alone.outline ∧ (alone.Apart declared → q = alone)

variable {catalog catalog' : Catalog} {declared : List Declaration}

/-- Readings whose queries are all apart are equal. -/
theorem eq_of_sameApart {qs alone : List Query} (h : List.Forall₂ (SameApart declared) qs alone)
    (hapart : ∀ q ∈ alone, q.Apart declared) : qs = alone := by
  have heq : List.Forall₂ (· = ·) qs alone :=
    (forall₂_mem h).imp fun _ q ⟨hsame, _, hq⟩ => hsame.2 (hapart q hq)
  rwa [List.forall₂_eq_eq_eq] at heq

/-- A query in the same group is the same query, if the catalogs agree on its table. -/
theorem sameApart_query {q alone : Query}
    (hcatalog : ∀ table, Undeclared declared table →
      catalog.fieldsFor table = catalog'.fieldsFor table)
    (h : SameApart declared q alone) (g : Group) :
    SameApart declared (g.query catalog q) (g.query catalog' alone) := by
  obtain ⟨houtline, hsame⟩ := h
  have htable : q.table = alone.table := congrArg Prod.fst houtline
  refine ⟨by simp only [outline, Group.query, nestedIn, htable], fun hapart => ?_⟩
  obtain rfl : q = alone := hsame fun s hs => hapart s (List.mem_cons_of_mem _ hs)
  have hundeclared := hapart _ List.mem_cons_self (Option.some_ne_none g.origin)
  have hfields := hcatalog _ hundeclared
  simp only [Group.query, nestedIn] at hfields ⊢
  rw [hfields]

/-- **One text under two catalogs.** The same queries are found in it, and those on tables that the
catalogs agree about are the same in all. -/
theorem records_apart (splitOr : Bool)
    (hcatalog : ∀ table, Undeclared declared table →
      catalog.fieldsFor table = catalog'.fieldsFor table)
    (q : Query) : ∀ alone : Query, SameApart declared q alone →
      List.Forall₂ (SameApart declared) ((q.records catalog splitOr).map (·.1))
        ((alone.records catalog' splitOr).map (·.1)) := by
  induction q using nestedInduction catalog with
  | step q ih =>
    intro alone h
    have hgroups : q.groups = alone.groups := by
      rw [groups, groups, show q.sql = alone.sql from congrArg (·.2.1) h.1]
    rw [records_eq, records_eq, List.map_cons, List.map_cons, List.map_flatMap, List.map_flatMap,
      ← hgroups]
    refine .cons h ?_
    have hself : List.Forall₂ (· = ·) q.groups q.groups := List.forall₂_eq_eq_eq ▸ rfl
    refine forall₂_flatMap hself fun g hg g' hgg' => ?_
    subst hgg'
    exact ih g hg _ (sameApart_query hcatalog h g)

/-- Nested queries belong to the file of the query around them. -/
theorem file_of_mem_records {splitOr : Bool} {q : Query} {record : Query × Clauses}
    (h : record ∈ q.records catalog splitOr) : record.1.file = q.file := by
  induction q using nestedInduction catalog with
  | step q ih =>
    rw [records_eq, List.mem_cons, List.mem_flatMap] at h
    rcases h with rfl | ⟨g, hg, h⟩
    · rfl
    · exact ih g hg h

end Query

/-! ### Files -/

namespace Advisor

variable (advisor : Advisor)

/-- The queries that are reported from the file at index `i` of source texts, those nested in its
calls included. -/
def queriesOf (texts : List (String × String)) (i : Nat) (file : String × String) : List Query :=
  let settings := advisor.settings
  let fallback :=
    if settings.crossFileDeclarations then fieldsElsewhere (declarationsOf texts) i else []
  let calls := Source.queries settings.queryMethods fallback file.1 file.2.toList
  calls.flatMap fun q =>
    (q.records (catalogOf (declarationsOf texts).flatten) settings.splitOrBranches).map (·.1)

/-- The queries of a report are those of its files, file after file. -/
theorem queries_analyzeSources (source : String) (texts : List (String × String)) :
    (advisor.analyzeSources source texts).queries =
      texts.zipIdx.flatMap fun (file, i) => advisor.queriesOf texts i file := by
  simp only [analyzeSources, reportOn, queriesOf, List.flatMap_assoc, List.map_flatMap]
  rfl

variable {advisor}

/-- Queries belong to the file they were read from. -/
theorem file_of_mem_queriesOf {texts : List (String × String)} {i : Nat} {file : String × String}
    {q : Query} (h : q ∈ advisor.queriesOf texts i file) : q.file = file.1 := by
  obtain ⟨call, hcall, h⟩ := List.mem_flatMap.mp h
  obtain ⟨record, hrecord, rfl⟩ := List.mem_map.mp h
  have hfile : call.file = file.1 := by
    obtain ⟨-, -, rfl⟩ := List.mem_map.mp hcall
    rfl
  rw [Query.file_of_mem_records hrecord, hfile]

/-- **Files are read apart.** With declarations of other files switched off, the queries of a report
are those of its files one after the other, and each file gives the queries that it gives alone: the
same tables, texts and origins in the same order. All that other files may change is the columns of
a nested query, and only if they declare its table, or that of a nested query around it. If they
declare none of these, the file is read as it is alone. -/
theorem files_read_apart (advisor : Advisor)
    (hoff : advisor.settings.crossFileDeclarations = false) (source : String)
    (texts : List (String × String)) :
    (advisor.analyzeSources source texts).queries =
      texts.zipIdx.flatMap (fun (file, i) => advisor.queriesOf texts i file) ∧
    ∀ i file, texts[i]? = some file →
      let read := advisor.queriesOf texts i file
      let alone := advisor.queriesOf [file] 0 file
      let elsewhere := (declarationsOf (texts.eraseIdx i)).flatten
      (∀ q ∈ read, q.file = file.1) ∧
      List.Forall₂ (Query.SameApart elsewhere) read alone ∧
      ((∀ q ∈ alone, q.Apart elsewhere) → read = alone) := by
  refine ⟨advisor.queries_analyzeSources source texts, fun i file hfile => ?_⟩
  intro read alone elsewhere
  -- the declarations of all files are those of the file between those of the others
  obtain ⟨hi, rfl⟩ := List.getElem?_eq_some_iff.mp hfile
  have hsplit : declarationsOf texts = declarationsOf (texts.take i) ++
      (declarationsOf [texts[i]] ++ declarationsOf (texts.drop (i + 1))) := by
    rw [declarationsOf, declarationsOf, declarationsOf, declarationsOf, ← List.map_append,
      ← List.map_append, List.singleton_append, List.getElem_cons_drop, List.take_append_drop]
  have hcatalog (table : String) (h : Undeclared elsewhere table) :
      (catalogOf (declarationsOf texts).flatten).fieldsFor table =
        (catalogOf (declarationsOf [texts[i]]).flatten).fieldsFor table := by
    simp only [elsewhere, List.eraseIdx_eq_take_drop_succ, declarationsOf, List.map_append,
      List.flatten_append] at h
    rw [hsplit, List.flatten_append, List.flatten_append]
    exact fieldsFor_catalogOf (fun d hd => h d (List.mem_append_left _ hd))
      (fun d hd => h d (List.mem_append_right _ hd))
  have hsame : List.Forall₂ (Query.SameApart elsewhere) read alone := by
    simp only [read, alone, queriesOf, hoff, Bool.false_eq_true, if_false]
    have hself (calls : List Query) : List.Forall₂ (· = ·) calls calls :=
      List.forall₂_eq_eq_eq ▸ rfl
    refine forall₂_flatMap (hself _) fun call _ call' heq => ?_
    subst heq
    exact Query.records_apart _ hcatalog call call ⟨rfl, fun _ => rfl⟩
  exact ⟨fun q hq => file_of_mem_queriesOf hq, hsame, Query.eq_of_sameApart hsame⟩

/-! ### A file with a nested query -/

/-- An advisor that is told to consult no other files. -/
def keepingApart : Advisor :=
  ⟨{ crossFileDeclarations := false, queryMethods := ["find"] }, .of .postgres none⟩

/-- Users are searched by their orders. -/
def userFile : String × String :=
  ("user.rs",
    "struct User{id:u8}\nUser::find(\"id IN (SELECT 1 FROM orders)\")")

/-- Next to a declaration of tasks the file is read as it is alone. -/
theorem userFile_read_apart :
    let texts := [("task.rs", "struct Task{due:u8}"), userFile]
    (∀ q ∈ keepingApart.queriesOf [userFile] 0 userFile,
      q.Apart (declarationsOf (texts.eraseIdx 1)).flatten) ∧
    keepingApart.queriesOf texts 1 userFile = keepingApart.queriesOf [userFile] 0 userFile := by
  intro texts
  have hapart : ∀ q ∈ keepingApart.queriesOf [userFile] 0 userFile,
      q.Apart (declarationsOf (texts.eraseIdx 1)).flatten := by
    decide +kernel
  obtain ⟨-, hread⟩ := files_read_apart keepingApart rfl "." texts
  exact ⟨hapart, (hread 1 userFile rfl).2.2 hapart⟩

/-- **Other files reach nested queries.** A file of models, though it is not to be consulted, gives
columns to the nested query, and the same file without the model gives none. -/
theorem models_reach_nested_query :
    let report (models : String) :=
      keepingApart.analyzeSources "." [("models.rs", models), userFile]
    let read (models : String) := ((report models).queries.filter (·.file == "user.rs")).map
      fun q => (q.table, q.fields, q.sql, q.origin)
    (read "struct Order{status:u8}").map (fun q => (q.1, q.2.1)) =
        [("User", ["id"]), ("orders", ["status"])] ∧
      (read "").map (fun q => (q.1, q.2.1)) = [("User", ["id"]), ("orders", [])] ∧
      ¬∀ models models', read models = read models' := by
  intro report read
  obtain ⟨hmodel, hnone⟩ :
      (read "struct Order{status:u8}").map (fun q => (q.1, q.2.1)) =
        [("User", ["id"]), ("orders", ["status"])] ∧
      (read "").map (fun q => (q.1, q.2.1)) = [("User", ["id"]), ("orders", [])] := by
    decide +kernel
  refine ⟨hmodel, hnone, fun hsame => ?_⟩
  rw [hsame _ "", hnone] at hmodel
  exact absurd hmodel (by decide)

end Advisor

end IndexAdvice
