import IndexAdvice.Parse
import IndexAdvice.Proofs.Deduplication

/-!
# Folding onto subjects

Advice on a query is filed under the first subject that counts the query's table among its variants,
its **claimant**: `lookup_subjectTable` reads this off the table of all variants, and
`tableOf_eq_claimant` off the grouping. So a nested query on `orders` is filed under `Order`.

A query that is not nested has a subject of its own. `subject_keeps_queries_iff` says when its
advice stays there: exactly if the claimant is that subject, up to letter case. With subjects
`Order` and `Orders` it is not, since `orders` is the plural of the first.
-/

namespace IndexAdvice

open Text

/-! ### The table of variants -/

theorem lookup_addAbsent {α : Type} (table : List (String × α)) (key k : String) (value : α) :
    (addAbsent table key value).lookup k =
      (table.lookup k).or (if k == key then some value else none) := by
  rw [addAbsent]
  split
  · rename_i hknown
    by_cases hk : k = key
    · obtain ⟨old, hold⟩ := Option.isSome_iff_exists.mp hknown
      rw [hk, hold]
      rfl
    · rw [if_neg (by simpa using hk), Option.or_none]
  · rw [List.lookup_append, List.lookup_cons, List.lookup_nil]
    cases k == key <;> rfl

/-- The variants of one more subject fill gaps only. -/
theorem lookup_foldl_addAbsent {α : Type} (table : List (String × α)) (keys : List String)
    (k : String) (value : α) :
    (keys.foldl (fun table key => addAbsent table key value) table).lookup k =
      (table.lookup k).or (if keys.contains k then some value else none) := by
  induction keys generalizing table with
  | nil => simp
  | cons key keys ih =>
    rw [List.foldl_cons, ih, lookup_addAbsent, Option.or_assoc]
    congr 1
    by_cases hk : k = key <;> simp [hk]

/-- **A variant stands for the first subject that has it.** -/
theorem lookup_subjectTable (subjects : List String) (k : String) :
    (subjectTable subjects).lookup k = subjects.find? fun s => (variants s).contains k := by
  have hfill : ∀ table : List (String × String),
      (subjects.foldl (fun table subject =>
        (variants subject).foldl (fun table v => addAbsent table v subject) table) table).lookup k =
      (table.lookup k).or (subjects.find? fun s => (variants s).contains k) := by
    induction subjects with
    | nil => simp
    | cons subject subjects ih =>
      intro table
      rw [List.foldl_cons, ih, lookup_foldl_addAbsent, Option.or_assoc, List.find?_cons]
      cases (variants subject).contains k <;> simp
  exact hfill []

/-! ### Claimants -/

namespace Advice

variable (records : List (Query × Clauses))

/-- The tables of the queries that are not nested. -/
def declaredSubjects : List String :=
  (records.filter (!·.1.isNested)).map (·.1.table)

/-- The first declared subject that counts a table among its variants. -/
def claimant? (table : String) : Option String :=
  (declaredSubjects records).find? fun s => (variants s).contains (lower table)

/-- No subject of another name claims the table. -/
def KeepsName (table : String) : Prop :=
  ∀ s, claimant? records table = some s → lower s = lower table

variable {records}

/-- A query is filed under the claimant of its table, or under the table if there is none. -/
theorem tableOf_eq_claimant (target : Target) (record : Query × Clauses) :
    tableOf target records record =
      tableLabel target ((claimant? records record.1.table).getD record.1.table) := by
  rw [tableOf, filedUnder, subjects, lookup_subjectTable]
  rfl

/-- Every offer is reported, as a recommendation or as a duplicate. -/
theorem reported_of_mem_offers {target : Target} {o : Offer} (ho : o ∈ offers target records) :
    o.recommendation target ∈ (ofRecords target records).recommendations ∨
      o.duplicate ∈ (ofRecords target records).duplicates := by
  have haccount := accounts_ofRecords target records
  rw [haccount.recommendations_eq, haccount.duplicates_eq]
  exact (mem_firsts_or_mem_repeats ho).imp List.mem_map_of_mem List.mem_map_of_mem

/-- **A subject keeps its queries unless another claims its name.** Where tables are written as
they are declared, every candidate of a query that is not nested is reported under a declared
subject, and this is the subject of the query, up to letter case, exactly if no subject of another
name is the first to count it among its variants. -/
theorem subject_keeps_queries_iff (target : Target) (hsnake : target.snakeCaseTables = false)
    (records : List (Query × Clauses)) (record : Query × Clauses) (hrecord : record ∈ records)
    (htop : record.1.isNested = false) (hfields : record.1.fields ≠ []) (c : Candidate)
    (hc : c ∈ Candidate.ofClauses target.capabilities record.2) (hkey : c.key ≠ []) :
    let o : Offer := ⟨tableOf target records record, record.1, c⟩
    o ∈ offers target records ∧
    (o.recommendation target ∈ (ofRecords target records).recommendations ∨
      o.duplicate ∈ (ofRecords target records).duplicates) ∧
    o.table ∈ declaredSubjects records ∧
    (lower o.table = lower record.1.table ↔ KeepsName records record.1.table) := by
  intro o
  have ho : o ∈ offers target records :=
    mem_offers.mpr ⟨record, hrecord, hfields, rfl, rfl, hc, hkey⟩
  have htable : o.table = (claimant? records record.1.table).getD record.1.table := by
    simp only [o, tableOf_eq_claimant, tableLabel, hsnake, Bool.false_eq_true, if_false]
  refine ⟨ho, reported_of_mem_offers ho, ?_, ?_⟩
  · rw [htable]
    cases hclaimant : claimant? records record.1.table with
    | some s => exact List.mem_of_find?_eq_some hclaimant
    | none =>
      exact List.mem_map.mpr ⟨record, List.mem_filter.mpr ⟨hrecord, by simp [htop]⟩, rfl⟩
  · rw [htable, KeepsName]
    cases claimant? records record.1.table with
    | some s => simp
    | none => simp

/-! ### Two sets of subjects -/

/-- A search by status in a table of the given name. -/
def statusSearch (table : String) : Query where
  table := table
  fields := ["status", "user_id"]
  sql := "status = $1"

/-- The key of the search by status. -/
def statusCandidate : Candidate :=
  ⟨[⟨"status", ["WHERE ="]⟩], [], []⟩

/-- A search for users by the status of their orders. -/
def buyerSearch : Query where
  table := "User"
  fields := ["id"]
  sql := "id IN (SELECT user_id FROM orders WHERE status = $1)"

/-- Orders are searched by themselves and inside a search for users. -/
def orderRecords : List (Query × Clauses) :=
  [statusSearch "Order", buyerSearch].flatMap
    (Query.records [("Order", ["status", "user_id"]), ("User", ["id"])] true)

/-- The search for orders stays with its subject, and the nested one joins it there. -/
theorem order_keeps_queries :
    let target : Target := .of (.of .postgres none) {}
    let advice := ofRecords target orderRecords
    let o : Offer := ⟨"Order", statusSearch "Order", statusCandidate⟩
    advice.recommendations.map Recommendation.key = [("Order", ["status"]), ("User", ["id"])] ∧
      advice.duplicates.map Duplicate.key = [("Order", ["status"])] ∧
      KeepsName orderRecords "Order" ∧
      o ∈ offers target orderRecords ∧ lower o.table = lower o.query.table := by
  intro target advice o
  let record : Query × Clauses :=
    (statusSearch "Order", ((statusSearch "Order").parse [] true).clauses)
  -- everything that is computed, in one evaluation
  obtain ⟨hrecommended, hduplicates, hclaimant, hfiled, hrecord, hcandidate⟩ :
      advice.recommendations.map Recommendation.key = [("Order", ["status"]), ("User", ["id"])] ∧
      advice.duplicates.map Duplicate.key = [("Order", ["status"])] ∧
      claimant? orderRecords "Order" = some "Order" ∧
      tableOf target orderRecords record = "Order" ∧ record ∈ orderRecords ∧
      statusCandidate ∈ Candidate.ofClauses target.capabilities record.2 := by
    decide +kernel
  have hkeeps : KeepsName orderRecords "Order" := by
    intro s hs
    rw [← Option.some.inj (hclaimant.symm.trans hs)]
  obtain ⟨hoffer, -, -, hkept⟩ := subject_keeps_queries_iff target rfl orderRecords record
    hrecord rfl (by decide) statusCandidate hcandidate (by decide)
  rw [hfiled] at hoffer hkept
  exact ⟨hrecommended, hduplicates, hkeeps, hoffer, hkept.mpr hkeeps⟩

/-- **A subject may lose its queries.** `orders` is the plural of `Order`, which is declared before
`Orders`, so the search in `Orders` is reported under `Order`, where it is taken for a duplicate. -/
theorem orders_filed_under_order :
    let target : Target := .of (.of .postgres none) {}
    let records := [statusSearch "Order", statusSearch "Orders"].flatMap (Query.records [] true)
    let advice := ofRecords target records
    advice.recommendations.map Recommendation.key = [("Order", ["status"])] ∧
      advice.duplicates.map Duplicate.key = [("Order", ["status"])] ∧
      ¬∀ o ∈ offers target records, o.query.isNested = false →
        lower o.table = lower o.query.table := by
  intro target records advice
  obtain ⟨hrecommended, hduplicates, hoffer, hlower⟩ :
      advice.recommendations.map Recommendation.key = [("Order", ["status"])] ∧
      advice.duplicates.map Duplicate.key = [("Order", ["status"])] ∧
      ⟨"Order", statusSearch "Orders", statusCandidate⟩ ∈ offers target records ∧
      lower "Order" ≠ lower "Orders" := by
    decide +kernel
  refine ⟨hrecommended, hduplicates, fun hkept => ?_⟩
  have hsame := hkept _ hoffer rfl
  exact hlower hsame

end Advice

end IndexAdvice
