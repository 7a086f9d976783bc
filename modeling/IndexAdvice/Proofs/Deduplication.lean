import IndexAdvice.Proofs.AdviceOrigin
import IndexAdvice.Proofs.FirstArrivals
import IndexAdvice.Report

/-!
# Deduplication

An **offer** is a candidate with a key, together with its query and the table that the query is
filed under. `Advice.offers` lists the offers of an analysis without regard to how it runs: table
after table in the order in which they are named first, and for each table query after query and
branch after branch.

The analysis itself is three nested folds. They share one invariant, `Advice.Accounts`: of the
offers made so far the first of each key are recommended and the repeats are reported as duplicates.
One candidate keeps it (`Accounts.addCandidate`), hence so do a query, a table and the whole
analysis (`accounts_ofRecords`). The main result `deduplication_conserves_offers` reads off what
this says about reports.
-/

namespace IndexAdvice

/-! ### Offers -/

/-- A candidate of a query that is filed under a table. -/
structure Offer where
  table : String
  query : Query
  candidate : Candidate
deriving DecidableEq, Repr

namespace Offer

/-- What decides whether two offers are for the same index. -/
def key (o : Offer) : String × List String :=
  (o.table, o.candidate.columns)

/-- The recommendation of an offer. -/
def recommendation (target : Target) (o : Offer) : Recommendation :=
  Advice.recommend target o.table o.query o.candidate

/-- The report of an offer as a duplicate. -/
def duplicate (o : Offer) : Duplicate :=
  ⟨o.table, o.candidate.columns, indexName o.table o.candidate.columns, o.query.location,
    o.query.sql⟩

/-- A candidate without a key is no offer. -/
def ofCandidate (table : String) (query : Query) (c : Candidate) : List Offer :=
  if c.key.isEmpty then [] else [⟨table, query, c⟩]

/-- The offers of a query, branch by branch. A query without known columns has none. -/
def ofRecord (target : Target) (table : String) (record : Query × Clauses) : List Offer :=
  if record.1.fields.isEmpty then []
  else (Candidate.ofClauses target.capabilities record.2).flatMap (ofCandidate table record.1)

/-- A record offers its candidates with a key, provided its query has fields. -/
theorem mem_ofRecord {target : Target} {table : String} {record : Query × Clauses} {o : Offer} :
    o ∈ ofRecord target table record ↔ record.1.fields ≠ [] ∧ o.table = table ∧
      o.query = record.1 ∧ o.candidate ∈ Candidate.ofClauses target.capabilities record.2 ∧
        o.candidate.key ≠ [] := by
  have hcandidate : ∀ c, o ∈ ofCandidate table record.1 c ↔
      c.key ≠ [] ∧ o = ⟨table, record.1, c⟩ := by
    intro c
    rw [ofCandidate]
    split <;> simp_all
  rw [ofRecord]
  split
  · simp_all
  · rename_i hfields
    simp only [List.mem_flatMap, hcandidate]
    constructor
    · rintro ⟨c, hc, hkey, rfl⟩
      exact ⟨by simpa using hfields, rfl, rfl, hc, hkey⟩
    · rintro ⟨-, rfl, hquery, hc, hkey⟩
      exact ⟨o.candidate, hc, hkey, by rw [← hquery]⟩

end Offer

/-- What decides whether two recommendations are for the same index. -/
def Recommendation.key (r : Recommendation) : String × List String :=
  (r.table, r.columns)

/-- What decides which recommendation a duplicate repeats. -/
def Duplicate.key (d : Duplicate) : String × List String :=
  (d.table, d.columns)

/-- A recommendation is for the index that was offered. -/
@[simp]
theorem Offer.key_recommendation (target : Target) (o : Offer) :
    (o.recommendation target).key = o.key :=
  rfl

namespace Advice

variable (target : Target) (records : List (Query × Clauses))

/-- The table that a query is filed under. -/
def tableOf (record : Query × Clauses) : String :=
  filedUnder target (subjects records) record.1

/-- The tables that queries are filed under, in the order in which they are named first. -/
def tables : List String :=
  (records.map (tableOf target records)).eraseDups

/-- The queries that are filed under a table. -/
def recordsAt (table : String) : List (Query × Clauses) :=
  records.filter (tableOf target records · == table)

/-- **The offers of an analysis**: table after table, then query after query, then branch after
branch. -/
def offers : List Offer :=
  (tables target records).flatMap fun table =>
    (recordsAt target records table).flatMap (Offer.ofRecord target table)

/-- The groups of the analysis are the tables with their queries. -/
theorem byTable_eq :
    byTable target records = (tables target records).map fun table =>
      (table, recordsAt target records table) := by
  rw [byTable, groupByFirst_eq, List.map_map]
  refine congrArg₂ List.map (funext fun table => ?_) rfl
  simp only [itemsAt, recordsAt, List.filter_map, List.map_map]
  exact congrArg (Prod.mk table) (List.map_id _)

variable {target records}

/-- The candidates with a key of all queries with known columns are offered, each for the table
that its query is filed under, and nothing else is. -/
theorem mem_offers {o : Offer} :
    o ∈ offers target records ↔ ∃ record ∈ records, record.1.fields ≠ [] ∧
      o.table = tableOf target records record ∧ o.query = record.1 ∧
        o.candidate ∈ Candidate.ofClauses target.capabilities record.2 ∧ o.candidate.key ≠ [] := by
  simp only [offers, List.mem_flatMap, Offer.mem_ofRecord, recordsAt, List.mem_filter]
  constructor
  · rintro ⟨table, -, record, ⟨hrecord, htable⟩, hfields, rfl, hrest⟩
    exact ⟨record, hrecord, hfields, (eq_of_beq htable).symm, hrest⟩
  · rintro ⟨record, hrecord, hfields, htable, hrest⟩
    refine ⟨o.table, ?_, record, ⟨hrecord, by simp [htable]⟩, hfields, rfl, hrest⟩
    rw [tables, List.mem_eraseDups, htable]
    exact List.mem_map_of_mem hrecord

/-! ### The invariant of the analysis -/

/-- The advice accounts for the offers made so far: the first of each key is recommended, and each
repeat is a duplicate. -/
structure Accounts (target : Target) (made : List Offer) (advice : Advice) : Prop where
  recommendations_eq :
    advice.recommendations = (firsts Offer.key made).map (Offer.recommendation target)
  duplicates_eq : advice.duplicates = (repeats Offer.key made).map Offer.duplicate

@[simp]
theorem duplicates_noteAll (advice : Advice) (messages : List String) :
    (advice.noteAll messages).duplicates = advice.duplicates := by
  induction messages generalizing advice with
  | nil => rfl
  | cons m ms ih => exact ih (advice.note m)

namespace Accounts

variable {made : List Offer} {advice : Advice} {table : String} {query : Query}

/-- Notes leave the accounts as they are. -/
theorem noteAll (h : Accounts target made advice) (messages : List String) :
    Accounts target made (advice.noteAll messages) where
  recommendations_eq := by rw [recommendations_noteAll, h.recommendations_eq]
  duplicates_eq := by rw [duplicates_noteAll, h.duplicates_eq]

/-- The keys that are recommended are those that have been offered. -/
theorem mem_keys (h : Accounts target made advice) (k : String × List String) :
    k ∈ made.map Offer.key ↔ ∃ r ∈ advice.recommendations, r.key = k := by
  rw [← List.mem_eraseDups, ← map_key_firsts, h.recommendations_eq]
  simp

/-- Looking a key up finds a recommendation exactly if the key has been offered. -/
theorem isSome_find? (h : Accounts target made advice) (table : String) (columns : List String) :
    (advice.find? table columns).isSome = (made.map Offer.key).contains (table, columns) := by
  rw [Bool.eq_iff_iff, find?, List.find?_isSome, List.contains_iff_mem, h.mem_keys]
  simp [Recommendation.key]

/-- A recommendation that is found has the name of the index that was looked for. -/
theorem name_of_find? (h : Accounts target made advice) {columns : List String}
    {r : Recommendation} (hfind : advice.find? table columns = some r) :
    r.name = indexName table columns := by
  have hkey := List.find?_some hfind
  have hmem := List.mem_of_find?_eq_some hfind
  rw [h.recommendations_eq] at hmem
  obtain ⟨o, -, rfl⟩ := List.mem_map.mp hmem
  obtain ⟨rfl, rfl⟩ : o.table = table ∧ o.candidate.columns = columns := by
    simpa [Offer.recommendation, recommend] using hkey
  rfl

/-- One candidate keeps the account. -/
theorem addCandidate (h : Accounts target made advice) (c : Candidate) :
    Accounts target (made ++ Offer.ofCandidate table query c)
      (addCandidate target table query advice c) := by
  rw [Advice.addCandidate, Offer.ofCandidate]
  split
  · rwa [List.append_nil]
  · have hknown := h.isSome_find? table c.columns
    cases hfind : advice.find? table c.columns with
    | some first =>
      -- a known key: the offer is a repeat
      rw [hfind] at hknown
      have hrepeat : (made.map Offer.key).contains (Offer.key ⟨table, query, c⟩) = true :=
        hknown.symm
      have hduplicate : Offer.duplicate ⟨table, query, c⟩ =
          ⟨table, c.columns, first.name, query.location, query.sql⟩ := by
        rw [h.name_of_find? hfind]
        rfl
      constructor
      · rw [firsts_concat, if_pos hrepeat]
        exact h.recommendations_eq
      · rw [repeats_concat, if_pos hrepeat, List.map_append, ← h.duplicates_eq, List.map_singleton,
          hduplicate]
    | none =>
      -- a new key: the offer is the first
      rw [hfind] at hknown
      have hfirst : (made.map Offer.key).contains (Offer.key ⟨table, query, c⟩) = false :=
        hknown.symm
      have hnoted := h.noteAll (limitNotes target.capabilities c)
      constructor
      · rw [firsts_concat, if_neg (Bool.eq_false_iff.mp hfirst), List.map_append,
          ← hnoted.recommendations_eq]
        rfl
      · rw [repeats_concat, if_neg (Bool.eq_false_iff.mp hfirst)]
        exact hnoted.duplicates_eq

/-- What one step keeps, a fold keeps. -/
theorem foldl {α : Type} {step : Advice → α → Advice} {made₁ : α → List Offer}
    (hstep : ∀ made advice x, Accounts target made advice →
      Accounts target (made ++ made₁ x) (step advice x))
    (h : Accounts target made advice) (xs : List α) :
    Accounts target (made ++ xs.flatMap made₁) (xs.foldl step advice) := by
  induction xs generalizing made advice with
  | nil => rwa [List.flatMap_nil, List.append_nil]
  | cons x xs ih =>
    rw [List.flatMap_cons, ← List.append_assoc]
    exact ih (hstep made advice x h)

/-- One query keeps the account. -/
theorem addQuery (h : Accounts target made advice) (record : Query × Clauses) :
    Accounts target (made ++ Offer.ofRecord target table record)
      (addQuery target table advice record) := by
  rw [Advice.addQuery, Offer.ofRecord]
  split
  · rw [List.append_nil]
    exact h.noteAll [fieldsNote table record.1]
  · exact foldl (fun _ _ c h => h.addCandidate c) (h.noteAll _) _

end Accounts

/-- **The analysis accounts for all offers.** -/
theorem accounts_ofRecords (target : Target) (records : List (Query × Clauses)) :
    Accounts target (offers target records) (ofRecords target records) := by
  have hstart : Accounts target [] {} := ⟨rfl, rfl⟩
  rw [ofRecords, byTable_eq, List.foldl_map]
  exact Accounts.foldl (fun _ _ _ h => Accounts.foldl (fun _ _ r h => h.addQuery r) h _) hstart _

/-! ### Reports by table -/

/-- The first offers of each key come table after table, as all offers do, so grouping their
recommendations by table moves none of them. -/
theorem regrouped_firsts {tables : List String} (hnodup : tables.Nodup) {made : String → List Offer}
    (hat : ∀ table, ∀ o ∈ made table, o.table = table) (target : Target) :
    let recommended := (firsts Offer.key (tables.flatMap made)).map (Offer.recommendation target)
    regrouped (·.table) recommended = recommended := by
  intro recommended
  induction tables using List.reverseRecOn with
  | nil => rfl
  | append_singleton tables table ih =>
    have hsplit := List.nodup_append.mp hnodup
    obtain ⟨new, hnew, hmem⟩ := firsts_append Offer.key (tables.flatMap made) (made table)
    simp only [recommended, List.flatMap_append, List.flatMap_singleton, hnew, List.map_append]
    rw [regrouped_append (k := table), ih hsplit.1]
    · intro r hr
      obtain ⟨o, ho, rfl⟩ := List.mem_map.mp hr
      exact hat table o (hmem o ho)
    · -- the tables before this one are others
      intro htable
      rw [List.map_map, List.mem_map] at htable
      obtain ⟨o, ho, heq⟩ := htable
      obtain ⟨table', htable', ho'⟩ := List.mem_flatMap.mp (mem_of_mem_firsts ho)
      have hsame : table' = table := (hat table' o ho').symm.trans heq
      exact hsplit.2.2 table' htable' table (List.mem_singleton.mpr rfl) hsame

/-- The recommendations table after table are the recommendations. -/
theorem regrouped_recommendations (target : Target) (records : List (Query × Clauses)) :
    regrouped (·.table) (ofRecords target records).recommendations =
      (ofRecords target records).recommendations := by
  rw [(accounts_ofRecords target records).recommendations_eq]
  refine regrouped_firsts (nodup_eraseDups _) (fun table o ho => ?_) target
  obtain ⟨record, -, ho⟩ := List.mem_flatMap.mp ho
  exact (Offer.mem_ofRecord.mp ho).2.1

/-! ### The account of a report -/

/-- The recommended keys are the offered keys, each once, in the order of first offer. -/
theorem map_key_recommendations (target : Target) (records : List (Query × Clauses)) :
    (ofRecords target records).recommendations.map Recommendation.key =
      ((offers target records).map Offer.key).eraseDups := by
  rw [(accounts_ofRecords target records).recommendations_eq, ← map_key_firsts, List.map_map]
  rfl

/-- A duplicate names the recommendation of its table and key. -/
theorem exists_recommendation_of_duplicate {target : Target} {records : List (Query × Clauses)}
    {d : Duplicate} (h : d ∈ (ofRecords target records).duplicates) :
    ∃ r ∈ (ofRecords target records).recommendations, r.key = d.key ∧ d.duplicateOf = r.name := by
  rw [(accounts_ofRecords target records).duplicates_eq] at h
  obtain ⟨o, ho, rfl⟩ := List.mem_map.mp h
  obtain ⟨-, -, -, first, -, hfirst, hkey⟩ := exists_first_of_mem_repeats ho
  refine ⟨first.recommendation target, ?_, hkey, ?_⟩
  · rw [(accounts_ofRecords target records).recommendations_eq]
    exact List.mem_map_of_mem hfirst
  · obtain ⟨htable, hcolumns⟩ := Prod.mk.inj hkey
    simp only [Offer.duplicate, Offer.recommendation, recommend, htable, hcolumns]

/-- **Deduplication conserves offers.** The recommendations are those of the first offers of each
table and key, the duplicates are all other offers, both in the order of the offers, and each
duplicate names the recommendation of its table and key. So recommendations and duplicates together
are as many as the offers, no two recommendations have table and key in common, and a report by
table, read group after group, lists the recommendations as they are. -/
theorem deduplication_conserves_offers (target : Target) (records : List (Query × Clauses)) :
    let advice := ofRecords target records
    let offers := offers target records
    advice.recommendations = (firsts Offer.key offers).map (Offer.recommendation target) ∧
    advice.duplicates = (repeats Offer.key offers).map Offer.duplicate ∧
    advice.recommendations.map Recommendation.key = (offers.map Offer.key).eraseDups ∧
    (advice.recommendations.map Recommendation.key).Nodup ∧
    (∀ d ∈ advice.duplicates,
      ∃ r ∈ advice.recommendations, r.key = d.key ∧ d.duplicateOf = r.name) ∧
    advice.recommendations.length + advice.duplicates.length = offers.length ∧
    ∀ report : Report,
      (Report.byTable { report with recommendations := advice.recommendations }).flatMap (·.2) =
        advice.recommendations := by
  intro advice offers
  have haccount := accounts_ofRecords target records
  have hkeys := map_key_recommendations target records
  refine ⟨haccount.recommendations_eq, haccount.duplicates_eq, hkeys, ?_,
    fun d hd => exists_recommendation_of_duplicate hd, ?_,
    fun _ => regrouped_recommendations target records⟩
  · rw [hkeys]
    exact nodup_eraseDups _
  · rw [haccount.recommendations_eq, haccount.duplicates_eq, List.length_map, List.length_map]
    exact length_firsts_add_length_repeats Offer.key offers

end Advice

end IndexAdvice
