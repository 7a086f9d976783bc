import Mathlib.Data.List.Infix
import IndexAdvice.Proofs.FoldedConditions

/-!
# Within the limits of the dialect

A database may have no covering columns, no partial indexes, no guard against an index that exists,
and may not execute every kind of join. What it does not have is left out of a recommendation and of
its statement, is named in the reason, and is noted once for the whole analysis.

`mem_notes_ofRecords` says where notes come from: from the queries, one by one, and from the first
offers of each key, which are the ones that get a recommendation. The main result
`advice_within_limits` puts record fields, statement, reason and notes together.
-/

namespace IndexAdvice

namespace Advice

/-! ### Where notes come from -/

/-- What is noted about a query before its candidates are looked at. -/
def recordNotes (target : Target) (table : String) (record : Query × Clauses) : List String :=
  if record.1.fields.isEmpty then [fieldsNote table record.1]
  else joinNotes target.capabilities table record.2

/-- The advice accounts for the offers made so far, and its notes are those on the first offer of
each key and what was `said` about queries, each once. -/
structure Noted (target : Target) (made : List Offer) (said : List String) (advice : Advice) :
    Prop extends Accounts target made advice where
  nodup : advice.notes.Nodup
  mem_notes_iff : ∀ m, m ∈ advice.notes ↔
    m ∈ said ∨ ∃ o ∈ firsts Offer.key made, m ∈ limitNotes target.capabilities o.candidate

theorem mem_notes_noteAll {advice : Advice} {messages : List String} {m : String} :
    m ∈ (advice.noteAll messages).notes ↔ m ∈ advice.notes ∨ m ∈ messages := by
  induction messages generalizing advice with
  | nil => simp [noteAll]
  | cons first messages ih =>
    have hnote : m ∈ (advice.note first).notes ↔ m ∈ advice.notes ∨ m = first := by
      simp only [note, addNew]
      split <;> simp_all
    rw [noteAll, List.foldl_cons, ← noteAll, ih, hnote, List.mem_cons, or_assoc]

/-- A note that has been made already is not made again. -/
theorem nodup_notes_noteAll {advice : Advice} (h : advice.notes.Nodup) (messages : List String) :
    (advice.noteAll messages).notes.Nodup := by
  induction messages generalizing advice with
  | nil => exact h
  | cons first messages ih =>
    have hnote : (advice.note first).notes.Nodup := by
      simp only [note, addNew]
      split
      · exact h
      · rename_i hnew
        refine List.nodup_append.mpr ⟨h, List.nodup_singleton first, fun a ha b hb heq => hnew ?_⟩
        rw [List.contains_iff_mem, ← List.mem_singleton.mp hb, ← heq]
        exact ha
    exact ih hnote

namespace Noted

variable {target : Target} {made : List Offer} {said : List String} {advice : Advice}
  {table : String} {query : Query}

theorem noteAll (h : Noted target made said advice) (messages : List String) :
    Noted target made (said ++ messages) (advice.noteAll messages) where
  toAccounts := h.toAccounts.noteAll messages
  nodup := nodup_notes_noteAll h.nodup messages
  mem_notes_iff m := by
    rw [mem_notes_noteAll, h.mem_notes_iff, List.mem_append, or_right_comm]

/-- One candidate is noted about only if it is the first offer of its key. -/
theorem addCandidate (h : Noted target made said advice) (c : Candidate) :
    Noted target (made ++ Offer.ofCandidate table query c) said
      (addCandidate target table query advice c) := by
  have haccount : Accounts target (made ++ Offer.ofCandidate table query c)
      (Advice.addCandidate target table query advice c) := h.toAccounts.addCandidate c
  have hknown := h.isSome_find? table c.columns
  refine ⟨haccount, ?_, fun m => ?_⟩
  · rw [Advice.addCandidate]
    split
    · exact h.nodup
    · split
      · exact h.nodup
      · exact nodup_notes_noteAll h.nodup _
  · rw [Advice.addCandidate, Offer.ofCandidate]
    split
    · rw [List.append_nil]
      exact h.mem_notes_iff m
    · have hkey : Offer.key ⟨table, query, c⟩ = (table, c.columns) := rfl
      rw [firsts_concat, hkey, ← hknown]
      cases hfind : advice.find? table c.columns with
      | some first => exact h.mem_notes_iff m
      | none =>
        show m ∈ (advice.noteAll _).notes ↔ _
        rw [mem_notes_noteAll, h.mem_notes_iff m]
        simp [or_assoc, or_and_right, exists_or]

/-- What one step keeps, a fold keeps. -/
theorem foldl {α : Type} {step : Advice → α → Advice} {made₁ : α → List Offer}
    {said₁ : α → List String}
    (hstep : ∀ made said advice x, Noted target made said advice →
      Noted target (made ++ made₁ x) (said ++ said₁ x) (step advice x))
    (h : Noted target made said advice) (xs : List α) :
    Noted target (made ++ xs.flatMap made₁) (said ++ xs.flatMap said₁) (xs.foldl step advice) := by
  induction xs generalizing made said advice with
  | nil =>
    rw [List.flatMap_nil, List.flatMap_nil, List.append_nil, List.append_nil]
    exact h
  | cons x xs ih =>
    rw [List.flatMap_cons, List.flatMap_cons, ← List.append_assoc, ← List.append_assoc]
    exact ih (hstep made said advice x h)

/-- A query adds its offers to those made and its notes to those said. -/
theorem addQuery (h : Noted target made said advice) (record : Query × Clauses) :
    Noted target (made ++ Offer.ofRecord target table record)
      (said ++ recordNotes target table record) (addQuery target table advice record) := by
  rw [Advice.addQuery, Offer.ofRecord, recordNotes]
  split
  · rw [List.append_nil]
    exact h.noteAll [fieldsNote table record.1]
  · have hnoted := h.noteAll (joinNotes target.capabilities table record.2)
    have hstep (made : List Offer) (said : List String) (advice : Advice) (c : Candidate)
        (h : Noted target made said advice) :
        Noted target (made ++ Offer.ofCandidate table record.1 c) (said ++ [])
          (Advice.addCandidate target table record.1 advice c) := by
      rw [List.append_nil]
      exact h.addCandidate c
    have hfold := foldl hstep hnoted (Candidate.ofClauses target.capabilities record.2)
    rw [List.flatMap_eq_nil_iff.mpr fun _ _ => rfl, List.append_nil] at hfold
    exact hfold

end Noted

section Notes

variable (target : Target) (records : List (Query × Clauses))

/-- The notes of an analysis and the offers it has accounted for. -/
theorem noted_ofRecords :
    Noted target (offers target records)
      ((tables target records).flatMap fun table =>
        (recordsAt target records table).flatMap (recordNotes target table))
      (ofRecords target records) := by
  have hstart : Noted target [] [] {} :=
    ⟨⟨rfl, rfl⟩, List.nodup_nil, fun m => by simp [firsts, selectAfter]⟩
  rw [ofRecords, byTable_eq, List.foldl_map]
  exact Noted.foldl (fun _ _ _ _ h => Noted.foldl (fun _ _ _ r h => h.addQuery r) h _) hstart _

/-- **Where notes come from**: every note is about a query, or about the first offer of a key. -/
theorem mem_notes_ofRecords {m : String} :
    m ∈ (ofRecords target records).notes ↔
      (∃ record ∈ records, m ∈ recordNotes target (tableOf target records record) record) ∨
        ∃ o ∈ firsts Offer.key (offers target records),
          m ∈ limitNotes target.capabilities o.candidate := by
  rw [(noted_ofRecords target records).mem_notes_iff]
  refine or_congr_left ?_
  simp only [List.mem_flatMap, recordsAt, List.mem_filter]
  constructor
  · rintro ⟨table, -, record, ⟨hrecord, htable⟩, hm⟩
    exact ⟨record, hrecord, eq_of_beq htable ▸ hm⟩
  · rintro ⟨record, hrecord, hm⟩
    refine ⟨_, ?_, record, ⟨hrecord, BEq.rfl⟩, hm⟩
    rw [tables, List.mem_eraseDups]
    exact List.mem_map_of_mem hrecord

/-- No note is given twice. -/
theorem count_notes_ofRecords {m : String} (h : m ∈ (ofRecords target records).notes) :
    (ofRecords target records).notes.count m = 1 :=
  List.count_eq_one_of_mem (noted_ofRecords target records).nodup h

end Notes

/-! ### Notes on limits -/

section Limits

variable {target : Target} {caps : Capabilities} {c : Candidate} {table : String}
  {record : Query × Clauses} {m : String}

/-- A note about a query names a table before a colon. -/
theorem colon_mem_of_mem_recordNotes (h : m ∈ recordNotes target table record) :
    ':' ∈ m.toList := by
  rw [recordNotes] at h
  split at h
  · rw [List.mem_singleton.mp h]
    simp [fieldsNote]
  · obtain ⟨j, -, hj⟩ := List.mem_filterMap.mp h
    split at hj
    · simp at hj
    · obtain ⟨column, -, rfl⟩ := Option.map_eq_some_iff.mp hj
      simp [joinNote]

/-- The notes on limits have no colon, so they differ from the notes that quote a query. -/
theorem colon_not_mem_coveringNote (caps : Capabilities) : ':' ∉ (coveringNote caps).toList := by
  rw [coveringNote]
  cases caps.dialect <;> decide

theorem colon_not_mem_conditionNote (caps : Capabilities) : ':' ∉ (conditionNote caps).toList := by
  rw [conditionNote]
  cases caps.dialect <;> decide

theorem coveringNote_ne_conditionNote (caps : Capabilities) :
    coveringNote caps ≠ conditionNote caps := by
  rw [coveringNote, conditionNote]
  cases caps.dialect <;> decide

/-- The covering note is due when there are columns to include and the dialect cannot. -/
theorem coveringNote_mem_limitNotes :
    coveringNote caps ∈ limitNotes caps c ↔ c.selectedOnly ≠ [] ∧ caps.covering = false := by
  have hne := coveringNote_ne_conditionNote caps
  have hlacks : lacksCovering caps c = true ↔ c.selectedOnly ≠ [] ∧ caps.covering = false := by
    simp [lacksCovering]
  rw [← hlacks, limitNotes]
  split <;> split <;> simp_all

/-- The filter note is due when there is a condition to keep and the dialect cannot. -/
theorem conditionNote_mem_limitNotes :
    conditionNote caps ∈ limitNotes caps c ↔ c.literals ≠ [] ∧ caps.filtered = false := by
  have hne := (coveringNote_ne_conditionNote caps).symm
  have hlacks : lacksCondition caps c = true ↔ c.literals ≠ [] ∧ caps.filtered = false := by
    simp [lacksCondition]
  rw [← hlacks, limitNotes]
  split <;> split <;> simp_all

/-- A note that names no table is about a first offer. -/
theorem mem_notes_iff_of_colon (target : Target) (records : List (Query × Clauses))
    (hm : ':' ∉ m.toList) :
    m ∈ (ofRecords target records).notes ↔ ∃ o ∈ firsts Offer.key (offers target records),
      m ∈ limitNotes target.capabilities o.candidate := by
  rw [mem_notes_ofRecords]
  refine or_iff_right ?_
  rintro ⟨record, -, hrecord⟩
  exact hm (colon_mem_of_mem_recordNotes hrecord)

end Limits

/-! ### Reasons -/

/-- Items written with separators: the first, then each other behind a separator. -/
theorem intercalate_cons_eq {α : Type} (sep first : List α) (items : List (List α)) :
    sep.intercalate (first :: items) = first ++ items.flatMap (sep ++ ·) := by
  induction items generalizing first with
  | nil => simp
  | cons next items ih =>
    rw [List.intercalate_cons_cons, ih, List.flatMap_cons, List.append_assoc, List.append_assoc]

/-- An item of a list that is written with separators stands behind a separator, unless it is the
first. -/
theorem infix_intercalate {sep first item : String} {items : List String} (h : item ∈ items) :
    (sep ++ item).toList <:+: (sep.intercalate (first :: items)).toList := by
  obtain ⟨front, back, rfl⟩ := List.append_of_mem h
  refine ⟨first.toList ++ (front.map String.toList).flatMap (sep.toList ++ ·),
    (back.map String.toList).flatMap (sep.toList ++ ·), ?_⟩
  rw [String.toList_intercalate, List.map_cons, intercalate_cons_eq]
  simp

/-- What a reason says about covering columns that are left out. -/
def coveringOmitted (caps : Capabilities) : String :=
  "INCLUDE omitted, not supported by " ++ caps.dialect.label

/-- What a reason says about conditions that are left out. -/
def conditionOmitted (caps : Capabilities) : String :=
  "partial predicate omitted, not supported by " ++ caps.dialect.label

section Reasons

variable {caps : Capabilities} {c : Candidate} (query : Query)

/-- What a reason says after the key columns. -/
def remarks (caps : Capabilities) (query : Query) (c : Candidate) : List String :=
  (if lacksCovering caps c then [coveringOmitted caps] else []) ++
    (if lacksCondition caps c then [conditionOmitted caps] else []) ++
    (query.origin.map fun o => "from " ++ o.phrase ++ " subquery").toList

/-- A reason has every remark behind a semicolon. -/
theorem infix_reason_of_mem_remarks {remark : String} (h : remark ∈ remarks caps query c) :
    ("; " ++ remark).toList <:+: (reason caps query c).toList :=
  infix_intercalate h

/-- The reason of an index says so when its included columns were left out. -/
theorem coveringOmitted_infix_reason (h : lacksCovering caps c = true) :
    ("; " ++ coveringOmitted caps).toList <:+: (reason caps query c).toList :=
  infix_reason_of_mem_remarks query (by simp [remarks, h])

/-- The reason of an index says so when its condition was left out. -/
theorem conditionOmitted_infix_reason (h : lacksCondition caps c = true) :
    ("; " ++ conditionOmitted caps).toList <:+: (reason caps query c).toList :=
  infix_reason_of_mem_remarks query (by simp [remarks, h])

end Reasons

end Advice

/-! ### Statements -/

/-- The statement for an index with these very parts: a part is written if it is there. -/
def Recommendation.writtenOut (guarded : Bool) (r : Recommendation) : String :=
  "CREATE INDEX " ++ (if guarded then "IF NOT EXISTS " else "") ++ r.name ++ " ON " ++ r.table ++
    " (" ++ ", ".intercalate r.columns ++ ")" ++
    (if r.covering = [] then "" else " INCLUDE (" ++ ", ".intercalate r.covering ++ ")") ++
    (match r.condition with
      | none => ""
      | some condition => " WHERE " ++ condition) ++ ";"

/-- The database accepts the recommendation: it has no part that the database does not have, and its
statement writes out all of its parts. -/
structure Recommendation.Accepted (target : Target) (r : Recommendation) : Prop where
  covering : r.covering ≠ [] → target.capabilities.covering = true
  condition : r.condition ≠ none → target.capabilities.filtered = true
  statement : r.statement = r.writtenOut (target.ifNotExists && target.capabilities.guarded)

section Statements

variable {target : Target} {o : Offer}

/-- A rendered condition on a column has characters. -/
theorem Predicate.render_ne_empty {p : Predicate} {column : String} (h : p.column = some column) :
    p.render ≠ "" := by
  have hspace : ' ' ∈ p.render.toList := by
    rw [Predicate.render, h]
    cases p.kind <;> simp [toString]
  intro hempty
  simp [hempty] at hspace

/-- The condition of a recommendation is not empty. -/
theorem Offer.condition_ne_empty (hliterals : ∀ p ∈ o.candidate.literals, p.column ≠ none)
    {condition : String} (h : (o.recommendation target).condition = some condition) :
    condition ≠ "" := by
  simp only [Offer.recommendation, Advice.recommend] at h
  split at h
  · rename_i hpartial
    cases hps : o.candidate.literals with
    | nil => simp [hps] at hpartial
    | cons p ps =>
      obtain ⟨column, hcolumn⟩ := Option.ne_none_iff_exists'.mp (hliterals p (by simp [hps]))
      have hfirst := Predicate.render_ne_empty hcolumn
      rw [← Option.some.inj h, hps]
      intro hempty
      have hnil := congrArg String.toList hempty
      rw [String.toList_intercalate] at hnil
      cases ps <;> simp_all
  · simp at h

/-- If the database has everything that a recommendation has, the statement for it writes out all
of its parts. -/
theorem Recommendation.createStatement_eq_writtenOut {caps : Capabilities} {r : Recommendation}
    (guarded : Bool) (hname : r.name ≠ "") (hcovering : r.covering ≠ [] → caps.covering = true)
    (hcondition : ∀ condition, r.condition = some condition →
      condition ≠ "" ∧ caps.filtered = true) :
    IndexSpec.createStatement caps
        ⟨r.table, r.columns, some r.name, r.covering, r.condition, guarded⟩ =
      r.writtenOut (guarded && caps.guarded) := by
  have hcovered : (if !r.covering.isEmpty && caps.covering then
        " INCLUDE (" ++ ", ".intercalate r.covering ++ ")" else "") =
      if r.covering = [] then "" else " INCLUDE (" ++ ", ".intercalate r.covering ++ ")" := by
    by_cases h : r.covering = []
    · rw [if_neg (by simp [h]), if_pos h]
    · rw [if_pos (by simp [h, hcovering h]), if_neg h]
  have hnamed : (if r.name.isEmpty then indexName r.table r.columns else r.name) = r.name :=
    if_neg (by simp [hname])
  unfold IndexSpec.createStatement IndexSpec.effectiveName writtenOut
  simp only [hcovered, hnamed]
  cases h : r.condition with
  | none => rfl
  | some condition =>
    obtain ⟨hne, hfiltered⟩ := hcondition condition h
    have hwritten : (!condition.isEmpty && caps.filtered) = true := by simp [hne, hfiltered]
    simp only [hwritten, if_true]

/-- A recommendation is accepted by the database that it is made for. -/
theorem Offer.accepted_recommendation
    (hliterals : ∀ p ∈ o.candidate.literals, p.column ≠ none) :
    (o.recommendation target).Accepted target := by
  have hcovering : (o.recommendation target).covering ≠ [] →
      target.capabilities.covering = true := by
    simp only [Offer.recommendation, Advice.recommend]
    split <;> simp_all
  have hcondition : (o.recommendation target).condition ≠ none →
      target.capabilities.filtered = true := by
    simp only [Offer.recommendation, Advice.recommend]
    split <;> simp_all
  have hstatement : (o.recommendation target).statement =
      IndexSpec.createStatement target.capabilities ⟨(o.recommendation target).table,
        (o.recommendation target).columns, some (o.recommendation target).name,
        (o.recommendation target).covering, (o.recommendation target).condition,
        target.ifNotExists⟩ := rfl
  refine ⟨hcovering, hcondition, hstatement.trans ?_⟩
  refine Recommendation.createStatement_eq_writtenOut target.ifNotExists ?_ hcovering ?_
  · intro hempty
    have hnil := congrArg String.toList hempty
    simp [Offer.recommendation, Advice.recommend, indexName] at hnil
  · intro condition h
    exact ⟨o.condition_ne_empty hliterals h, hcondition (by simp [h])⟩

end Statements

/-! ### Joins -/

/-- The clauses without the joins that the database cannot execute. -/
def Clauses.executable (caps : Capabilities) (clauses : Clauses) : Clauses :=
  { clauses with joins := clauses.joins.filter (caps.supportsJoin ·.kind) }

/-- Joins that the database cannot execute give no key column and no motive. -/
theorem ofClauses_executable (caps : Capabilities) (clauses : Clauses) :
    Candidate.ofClauses caps (clauses.executable caps) = Candidate.ofClauses caps clauses := by
  have hmentions (branch : List Predicate) :
      Candidate.mentions caps (clauses.executable caps) branch =
        Candidate.mentions caps clauses branch := by
    have hjoins : joinMentions caps (clauses.executable caps) = joinMentions caps clauses := by
      rw [joinMentions, Clauses.executable, List.filterMap_filter]
      refine List.filterMap_congr fun j _ => ?_
      split <;> rfl
    have hequal : Candidate.equalityMentions caps (clauses.executable caps) branch =
        Candidate.equalityMentions caps clauses branch :=
      congrArg (fun joins => sortBy Mention.le (branchMentions branch ++ joins)) hjoins
    rw [Candidate.mentions, Candidate.mentions, hequal]
    rfl
  have hbranch : Candidate.ofBranch caps (clauses.executable caps) =
      Candidate.ofBranch caps clauses := by
    funext branch
    rw [Candidate.ofBranch, Candidate.ofBranch, hmentions]
    rfl
  rw [Candidate.ofClauses, Candidate.ofClauses, hbranch]
  rfl

/-! ### All limits -/

namespace Advice

/-- What was left out of the recommendation for an offer is named in the reason and noted once. -/
def Told (target : Target) (advice : Advice) (o : Offer) (omitted message : String) : Prop :=
  ("; " ++ omitted).toList <:+: (o.recommendation target).reason.toList ∧
    advice.notes.count message = 1

/-- **Advice keeps within the limits of the target database.** Each recommendation has only parts
that the database accepts, and its statement is written out from just these. Where covering columns
or a condition had to be left out, the reason says so and there is one note about it, and there is
no such note otherwise. A join that the database cannot execute leaves a note and has no part in any
key. -/
theorem advice_within_limits (target : Target) (records : List (Query × Clauses)) :
    let caps := target.capabilities
    let advice := ofRecords target records
    let first := firsts Offer.key (offers target records)
    advice.recommendations = first.map (Offer.recommendation target) ∧
    (∀ o ∈ first, (o.recommendation target).Accepted target ∧
      (o.candidate.selectedOnly ≠ [] → caps.covering = false →
        Told target advice o (coveringOmitted caps) (coveringNote caps)) ∧
      (o.candidate.literals ≠ [] → caps.filtered = false →
        Told target advice o (conditionOmitted caps) (conditionNote caps))) ∧
    (coveringNote caps ∈ advice.notes →
      caps.covering = false ∧ ∃ o ∈ first, o.candidate.selectedOnly ≠ []) ∧
    (conditionNote caps ∈ advice.notes →
      caps.filtered = false ∧ ∃ o ∈ first, o.candidate.literals ≠ []) ∧
    ∀ record ∈ records, record.1.fields ≠ [] →
      Candidate.ofClauses caps record.2 = Candidate.ofClauses caps (record.2.executable caps) ∧
      ∀ j ∈ record.2.joins, ∀ column, j.localColumn = some column →
        caps.supportsJoin j.kind = false →
          joinNote caps (tableOf target records record) j.kind column ∈ advice.notes := by
  intro caps advice first
  refine ⟨(accounts_ofRecords target records).recommendations_eq, fun o ho => ⟨?_, ?_, ?_⟩, ?_, ?_,
    fun record hrecord hfields => ⟨(ofClauses_executable caps record.2).symm, ?_⟩⟩
  · obtain ⟨record, -, -, -, -, hcandidate, -⟩ := mem_offers.mp (mem_of_mem_firsts ho)
    refine o.accepted_recommendation fun p hp hnone => ?_
    obtain ⟨-, -, column, -, hcolumn⟩ := column_mem_of_mem_literals hcandidate hp
    simp [hnone] at hcolumn
  · intro hselected hcovering
    have hlacks : lacksCovering caps o.candidate = true := by simp [lacksCovering, *]
    refine ⟨coveringOmitted_infix_reason o.query hlacks, ?_⟩
    refine count_notes_ofRecords target records ?_
    rw [mem_notes_iff_of_colon target records (colon_not_mem_coveringNote caps)]
    exact ⟨o, ho, coveringNote_mem_limitNotes.mpr ⟨hselected, hcovering⟩⟩
  · intro hliterals hfiltered
    have hlacks : lacksCondition caps o.candidate = true := by simp [lacksCondition, *]
    refine ⟨conditionOmitted_infix_reason o.query hlacks, ?_⟩
    refine count_notes_ofRecords target records ?_
    rw [mem_notes_iff_of_colon target records (colon_not_mem_conditionNote caps)]
    exact ⟨o, ho, conditionNote_mem_limitNotes.mpr ⟨hliterals, hfiltered⟩⟩
  · intro hnote
    rw [mem_notes_iff_of_colon target records (colon_not_mem_coveringNote caps)] at hnote
    obtain ⟨o, ho, hlimit⟩ := hnote
    obtain ⟨hselected, hcovering⟩ := coveringNote_mem_limitNotes.mp hlimit
    exact ⟨hcovering, o, ho, hselected⟩
  · intro hnote
    rw [mem_notes_iff_of_colon target records (colon_not_mem_conditionNote caps)] at hnote
    obtain ⟨o, ho, hlimit⟩ := hnote
    obtain ⟨hliterals, hfiltered⟩ := conditionNote_mem_limitNotes.mp hlimit
    exact ⟨hfiltered, o, ho, hliterals⟩
  · intro j hj column hcolumn hkind
    refine (mem_notes_ofRecords target records).mpr (.inl ⟨record, hrecord, ?_⟩)
    rw [recordNotes, if_neg (by simpa using hfields)]
    refine List.mem_filterMap.mpr ⟨j, hj, ?_⟩
    rw [if_neg (Bool.eq_false_iff.mp hkind), hcolumn]
    rfl

/-- A search with a full join, a constant and a selected column. -/
def dueSearch : Query where
  table := "Task"
  fields := ["id", "due"]
  sql := "SELECT due FROM task FULL JOIN x ON x.a = due WHERE id = 1"

/-- An old MySQL has neither covering columns nor partial indexes nor full joins, and the advice on
a search with all three says so. -/
theorem dueSearch_told_limits :
    let target : Target := .of (.of .mysql (some 5)) {}
    let records := dueSearch.records [] true
    let advice := ofRecords target records
    (∃ o ∈ firsts Offer.key (offers target records),
      (o.recommendation target).statement = "CREATE INDEX idx_Task_id ON Task (id);" ∧
        o.candidate.selectedOnly = ["due"] ∧
        Told target advice o "INCLUDE omitted, not supported by MySQL"
          "MySQL does not support INCLUDE; covering columns left out" ∧
        Told target advice o "partial predicate omitted, not supported by MySQL"
          "MySQL does not support partial indexes; WHERE predicates left out") ∧
      "Task: FULL JOIN is not supported by MySQL; due not used as a key column" ∈ advice.notes := by
  intro target records advice
  obtain ⟨-, hfirst, -, -, hjoins⟩ := advice_within_limits target records
  have hoffers : ∃ o ∈ firsts Offer.key (offers target records),
      (o.recommendation target).statement = "CREATE INDEX idx_Task_id ON Task (id);" ∧
        o.candidate.selectedOnly = ["due"] ∧ o.candidate.literals ≠ [] := by decide +kernel
  obtain ⟨o, ho, hstatement, hselected, hliterals⟩ := hoffers
  obtain ⟨-, hcovering, hcondition⟩ := hfirst o ho
  refine ⟨⟨o, ho, hstatement, hselected, ?_, ?_⟩, ?_⟩
  · exact hcovering (by simp [hselected]) rfl
  · exact hcondition hliterals rfl
  · have hrecord : ∃ record ∈ records, record.1.fields ≠ [] ∧
        tableOf target records record = "Task" ∧
        ∃ j ∈ record.2.joins, j.localColumn = some "due" ∧ j.kind = .full := by decide +kernel
    obtain ⟨record, hrecord, hfields, htable, j, hj, hcolumn, hkind⟩ := hrecord
    have hnote := (hjoins record hrecord hfields).2 j hj "due" hcolumn (by rw [hkind]; rfl)
    rw [htable, hkind] at hnote
    exact hnote

end Advice

end IndexAdvice
