import IndexAdvice.Proofs.DialectLimits
import IndexAdvice.Proofs.SubjectFolding

/-!
# Queries that come later

An analysis is run again when queries have been added at the end. If the new ones name no subject of
their own, every old query stays with the table that it was filed under (`tableOf_append`), so each
table has its old offers first and the new ones after them (`offersAt_append`). What is recommended
for a table, and what is a duplicate there, depends on the offers of that table alone
(`selected_offers`), and an offer is judged by those before it. So a new query adds advice and takes
none away, though its advice may come before that on other tables: `later_queries_keep_advice`.
-/

namespace IndexAdvice

/-! ### Blocks of items -/

section Blocks

variable {α β : Type} {blocks more : List String} {f g : String → List α}

/-- Blocks that grow make a list that grows. -/
theorem sublist_flatMap (h : ∀ b, (f b).Sublist (g b)) (blocks : List String) :
    (blocks.flatMap f).Sublist (blocks.flatMap g) := by
  induction blocks with
  | nil => exact List.Sublist.refl []
  | cons b blocks ih => exact (h b).append ih

/-- The items of one block among those of all. -/
theorem filter_flatMap_eq {home : α → String} (hat : ∀ b, ∀ x ∈ f b, home x = b) (b : String) :
    (blocks.flatMap f).filter (home · == b) = (blocks.filter (· == b)).flatMap f := by
  induction blocks with
  | nil => rfl
  | cons b' blocks ih =>
    rw [List.flatMap_cons, List.filter_append, ih, List.filter_cons]
    split
    · rename_i heq
      rw [List.flatMap_cons, List.filter_eq_self.mpr fun x hx => by rw [hat b' x hx, heq]]
    · rename_i hne
      have hnone : (f b').filter (home · == b) = [] :=
        List.filter_eq_nil_iff.mpr fun x hx => by rwa [hat b' x hx]
      rw [hnone, List.nil_append]

/-- More blocks, and more items at the end of each, leave the items of a block where they were. -/
theorem prefix_filter_flatMap {home : α → String} (hnodup : (blocks ++ more).Nodup)
    (hf : ∀ b, ∀ x ∈ f b, home x = b) (hg : ∀ b, ∀ x ∈ g b, home x = b)
    (h : ∀ b, f b <+: g b) (b : String) :
    (blocks.flatMap f).filter (home · == b) <+:
      ((blocks ++ more).flatMap g).filter (home · == b) := by
  rw [filter_flatMap_eq hf, filter_flatMap_eq hg]
  by_cases hb : b ∈ blocks
  · have hone {bs : List String} (hbs : bs.Nodup) (hmem : b ∈ bs) : bs.filter (· == b) = [b] := by
      rw [List.filter_beq, List.count_eq_one_of_mem hbs hmem]
      rfl
    rw [hone hnodup.of_append_left hb, hone hnodup (List.mem_append_left more hb),
      List.flatMap_singleton, List.flatMap_singleton]
    exact h b
  · have hnone : blocks.filter (· == b) = [] :=
      List.filter_eq_nil_iff.mpr fun b' hb' heq => hb (eq_of_beq heq ▸ hb')
    rw [hnone]
    exact List.nil_prefix

end Blocks

namespace Advice

/-! ### Offers by table -/

section Tables

variable (target : Target) (records : List (Query × Clauses))

/-- The offers for a table. -/
def offersAt (table : String) : List Offer :=
  (recordsAt target records table).flatMap (Offer.ofRecord target table)

variable {target records}

theorem table_of_mem_offersAt {table : String} {o : Offer}
    (h : o ∈ offersAt target records table) : o.table = table := by
  obtain ⟨record, -, ho⟩ := List.mem_flatMap.mp h
  exact (Offer.mem_ofRecord.mp ho).2.1

/-- **Each table by itself.** Whether an offer is the first of its key depends on the offers for its
table alone. -/
theorem selected_offers (judge : Bool → Bool) :
    selectAfter (judgedByKey Offer.key judge) (offers target records) =
      (tables target records).flatMap fun table =>
        selectAfter (judgedByKey Offer.key judge) (offersAt target records table) := by
  have hat : ∀ table, ∀ o ∈ offersAt target records table, (Offer.key o).1 = table :=
    fun _ _ ho => table_of_mem_offersAt ho
  exact selectAfter_flatMap (nodup_eraseDups _) hat

end Tables

/-! ### Subjects that are known already -/

section Later

variable (target : Target) {earlier later : List (Query × Clauses)}
  (hknown : ∀ record ∈ later, record.1.isNested = false →
    record.1.table ∈ declaredSubjects earlier)
include hknown

/-- A table is claimed by the first query that uses it, so later ones change nothing. -/
theorem claimant?_append (table : String) :
    claimant? (earlier ++ later) table = claimant? earlier table := by
  have hsplit : declaredSubjects (earlier ++ later) =
      declaredSubjects earlier ++ declaredSubjects later := by
    rw [declaredSubjects, List.filter_append, List.map_append]
    rfl
  rw [claimant?, claimant?, hsplit, List.find?_append]
  cases hfound : (declaredSubjects earlier).find? fun s =>
      (variants s).contains (Text.lower table) with
  | some s => rfl
  | none =>
    rw [Option.none_or, List.find?_eq_none]
    intro s hs
    obtain ⟨record, hrecord, rfl⟩ := List.mem_map.mp hs
    obtain ⟨hmem, htop⟩ := List.mem_filter.mp hrecord
    exact List.find?_eq_none.mp hfound _ (hknown record hmem (by simpa using htop))

/-- Old and new queries are filed as the old subjects say. -/
theorem tableOf_append (record : Query × Clauses) :
    tableOf target (earlier ++ later) record = tableOf target earlier record := by
  rw [tableOf_eq_claimant, tableOf_eq_claimant, claimant?_append hknown]

/-- Later queries add tables after those of the earlier ones. -/
theorem exists_tables_append : ∃ new, tables target (earlier ++ later) =
    tables target earlier ++ new := by
  have hsame : tableOf target (earlier ++ later) = tableOf target earlier :=
    funext (tableOf_append target hknown)
  rw [tables, tables, hsame, List.map_append, List.eraseDups_append]
  exact ⟨_, rfl⟩

/-- The old offers for a table come first. -/
theorem offersAt_append (table : String) : ∃ new, offersAt target (earlier ++ later) table =
    offersAt target earlier table ++ new := by
  have hsame : tableOf target (earlier ++ later) = tableOf target earlier :=
    funext (tableOf_append target hknown)
  rw [offersAt, offersAt, recordsAt, recordsAt, hsame, List.filter_append, List.flatMap_append]
  exact ⟨_, rfl⟩

/-- What is selected for a table goes on after what was selected before. -/
theorem prefix_selectAfter_offersAt (keep : List Offer → Offer → Bool) (table : String) :
    selectAfter keep (offersAt target earlier table) <+:
      selectAfter keep (offersAt target (earlier ++ later) table) := by
  obtain ⟨new, hnew⟩ := offersAt_append target hknown table
  obtain ⟨more, hmore, -⟩ := @selectAfter_append _ keep (offersAt target earlier table) new
  exact ⟨more, by rw [hnew, hmore]⟩

/-- What is selected from the old offers is selected still, in the same order. -/
theorem selectAfter_offers_sublist (judge : Bool → Bool) :
    (selectAfter (judgedByKey Offer.key judge) (offers target earlier)).Sublist
      (selectAfter (judgedByKey Offer.key judge) (offers target (earlier ++ later))) := by
  obtain ⟨new, hnew⟩ := exists_tables_append target hknown
  rw [selected_offers, selected_offers, hnew, List.flatMap_append]
  exact (sublist_flatMap (fun table => (prefix_selectAfter_offersAt target hknown _ table).sublist)
    _).trans (List.sublist_append_left _ _)

/-- What is selected from the old offers for a table comes first. -/
theorem prefix_filter_selectAfter_offers (judge : Bool → Bool) (table : String) :
    (selectAfter (judgedByKey Offer.key judge) (offers target earlier)).filter
        (·.table == table) <+:
      (selectAfter (judgedByKey Offer.key judge) (offers target (earlier ++ later))).filter
        (·.table == table) := by
  obtain ⟨new, hnew⟩ := exists_tables_append target hknown
  have hat (records : List (Query × Clauses)) (table : String) : ∀ o ∈ selectAfter
      (judgedByKey Offer.key judge) (offersAt target records table), o.table = table :=
    fun o ho => table_of_mem_offersAt (mem_of_mem_selectAfter ho)
  rw [selected_offers, selected_offers, hnew]
  refine prefix_filter_flatMap ?_ (hat earlier) (hat _) (prefix_selectAfter_offersAt target hknown _)
    table
  rw [← hnew]
  exact nodup_eraseDups _

end Later

/-- **Later queries take no advice away.** If the queries that are added at the end name no subject
of their own, then the old recommendations are found among the new ones, as they were and in their
order, and so are the old duplicates; the recommendations for each table start with the old ones;
and every old note is given still. -/
theorem later_queries_keep_advice (target : Target) (earlier later : List (Query × Clauses))
    (hknown : ∀ record ∈ later, record.1.isNested = false →
      record.1.table ∈ declaredSubjects earlier) :
    let before := ofRecords target earlier
    let after := ofRecords target (earlier ++ later)
    before.recommendations.Sublist after.recommendations ∧
    before.duplicates.Sublist after.duplicates ∧
    (∀ table, before.recommendations.filter (·.table == table) <+:
      after.recommendations.filter (·.table == table)) ∧
    ∀ m ∈ before.notes, m ∈ after.notes := by
  intro before after
  have hbefore := accounts_ofRecords target earlier
  have hafter := accounts_ofRecords target (earlier ++ later)
  have hfirsts : (firsts Offer.key (offers target earlier)).Sublist
      (firsts Offer.key (offers target (earlier ++ later))) :=
    selectAfter_offers_sublist target hknown (!·)
  refine ⟨?_, ?_, fun table => ?_, fun m hm => ?_⟩
  · rw [hbefore.recommendations_eq, hafter.recommendations_eq]
    exact hfirsts.map _
  · rw [hbefore.duplicates_eq, hafter.duplicates_eq]
    exact (selectAfter_offers_sublist target hknown id).map _
  · rw [hbefore.recommendations_eq, hafter.recommendations_eq, List.filter_map, List.filter_map]
    exact (prefix_filter_selectAfter_offers target hknown (!·) table).map _
  · rw [mem_notes_ofRecords] at hm ⊢
    refine hm.imp ?_ ?_
    · rintro ⟨record, hrecord, hm⟩
      exact ⟨record, List.mem_append_left later hrecord, by rwa [tableOf_append target hknown]⟩
    · rintro ⟨o, ho, hm⟩
      exact ⟨o, hfirsts.subset ho, hm⟩

/-! ### Tasks and users -/

/-- A query on a table, and the columns that it compares for equality in its only branch. -/
def searchOf (query : Query) (columns : List String) : Query × Clauses :=
  (query, { branches := [columns.map fun column =>
    { column := some column, kind := .equality, operator := "=" }] })

/-- Tasks are searched by status, and users by number. -/
def earlierSearches : List (Query × Clauses) :=
  [searchOf { table := "Task", fields := ["status", "due"] } ["status"],
    searchOf { table := "User", fields := ["id"] } ["id"]]

/-- More searches of the same tables: one for which no columns are known, and one of users with a
search of tasks inside. -/
def laterSearches : List (Query × Clauses) :=
  let outer : Query := { table := "User", fields := ["id"] }
  [searchOf { table := "Task" } [], searchOf outer ["id"],
    searchOf (outer.nestedIn "tasks" ["status", "due"] .whereIn "due = $1") ["due"]]

/-- The new advice on tasks comes before the old advice on users, and both are kept. -/
theorem earlierSearches_kept :
    let target : Target := .of (.of .postgres none) {}
    let before := ofRecords target earlierSearches
    let after := ofRecords target (earlierSearches ++ laterSearches)
    (∀ record ∈ laterSearches, record.1.isNested = false →
      record.1.table ∈ declaredSubjects earlierSearches) ∧
    before.recommendations.map Recommendation.key = [("Task", ["status"]), ("User", ["id"])] ∧
    after.recommendations.map Recommendation.key =
      [("Task", ["status"]), ("Task", ["due"]), ("User", ["id"])] ∧
    before.recommendations.Sublist after.recommendations := by
  intro target before after
  obtain ⟨hknown, hbefore, hafter⟩ :
      (∀ record ∈ laterSearches, record.1.isNested = false →
        record.1.table ∈ declaredSubjects earlierSearches) ∧
      before.recommendations.map Recommendation.key = [("Task", ["status"]), ("User", ["id"])] ∧
      after.recommendations.map Recommendation.key =
        [("Task", ["status"]), ("Task", ["due"]), ("User", ["id"])] := by
    decide +kernel
  exact ⟨hknown, hbefore, hafter,
    (later_queries_keep_advice target earlierSearches laterSearches hknown).1⟩

end Advice

end IndexAdvice
