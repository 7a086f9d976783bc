import IndexAdvice.Proofs.Deduplication
import IndexAdvice.Proofs.Soundness

/-!
# What the dialect changes

The target database decides which joins count and how an index is written down. Where it decides
nothing about joins, because every join of an own column is of a kind that the database can execute,
the candidates of a query do not depend on it (`ofClauses_eq_of_supported`), and neither does which
of them are recommended and which are duplicates. So two analyses of the same sources for two
databases differ in the wording of their advice alone: `dialect_changes_syntax_only`.
-/

namespace IndexAdvice

/-! ### Candidates -/

/-- The database can execute every join that the clauses make on a column of the own table. -/
def Clauses.JoinsSupported (caps : Capabilities) (clauses : Clauses) : Prop :=
  ∀ j ∈ clauses.joins, j.localColumn ≠ none → caps.supportsJoin j.kind = true

instance (caps : Capabilities) (clauses : Clauses) : Decidable (clauses.JoinsSupported caps) :=
  inferInstanceAs (Decidable (∀ j ∈ clauses.joins, _))

section Candidates

variable {caps caps' : Capabilities} {clauses : Clauses}

/-- Where all joins are supported, each of them is mentioned. -/
theorem joinMentions_eq_of_supported (h : clauses.JoinsSupported caps) :
    joinMentions caps clauses = clauses.joins.filterMap fun j =>
      j.localColumn.map fun column => ⟨j.position, column, "JOIN " ++ j.remoteTable⟩ := by
  refine List.filterMap_congr fun j hj => ?_
  cases hcolumn : j.localColumn with
  | none => simp
  | some column => rw [if_pos (h j hj (by simp [hcolumn]))]

/-- The candidates of a query are the same for all databases that can execute its joins. -/
theorem ofClauses_eq_of_supported (h : clauses.JoinsSupported caps)
    (h' : clauses.JoinsSupported caps') :
    Candidate.ofClauses caps clauses = Candidate.ofClauses caps' clauses := by
  have hjoins : joinMentions caps clauses = joinMentions caps' clauses := by
    rw [joinMentions_eq_of_supported h, joinMentions_eq_of_supported h']
  have hmentions (branch : List Predicate) :
      Candidate.mentions caps clauses branch = Candidate.mentions caps' clauses branch := by
    have hequal : Candidate.equalityMentions caps clauses branch =
        Candidate.equalityMentions caps' clauses branch :=
      congrArg (fun joins => sortBy Mention.le (branchMentions branch ++ joins)) hjoins
    rw [Candidate.mentions, Candidate.mentions, hequal]
  have hbranch : Candidate.ofBranch caps clauses = Candidate.ofBranch caps' clauses := by
    funext branch
    rw [Candidate.ofBranch, Candidate.ofBranch, hmentions]
  rw [Candidate.ofClauses, Candidate.ofClauses, hbranch]

end Candidates

/-! ### Offers and their recommendations -/

/-- What a recommendation says whatever the target database is: all but the covering columns, the
condition, the reason, the dialect and the statement. -/
def Recommendation.essence (r : Recommendation) : Recommendation :=
  { r with covering := [], condition := none, reason := "", dialect := .postgres, statement := "" }

section Offers

variable {target target' : Target} {records : List (Query × Clauses)}

/-- The offers of an analysis are the same for all databases that can execute the joins. -/
theorem offers_eq_of_supported (hsnake : target.snakeCaseTables = target'.snakeCaseTables)
    (h : ∀ record ∈ records, record.2.JoinsSupported target.capabilities)
    (h' : ∀ record ∈ records, record.2.JoinsSupported target'.capabilities) :
    Advice.offers target records = Advice.offers target' records := by
  have htable : Advice.tableOf target records = Advice.tableOf target' records := by
    funext record
    simp only [Advice.tableOf, Advice.filedUnder, Advice.tableLabel, hsnake]
  have hoffers (table : String) (record : Query × Clauses) (hrecord : record ∈ records) :
      Offer.ofRecord target table record = Offer.ofRecord target' table record := by
    rw [Offer.ofRecord, Offer.ofRecord,
      ofClauses_eq_of_supported (h record hrecord) (h' record hrecord)]
  simp only [Advice.offers, Advice.tables, Advice.recordsAt, htable]
  refine List.flatMap_congr fun table _ => List.flatMap_congr fun record hrecord => ?_
  exact hoffers table record (List.mem_of_mem_filter hrecord)

/-- What is recommended for an offer depends on the target in its wording only. -/
theorem Offer.essence_recommendation (target target' : Target) (o : Offer) :
    (o.recommendation target).essence = (o.recommendation target').essence :=
  rfl

/-- Advice for two databases that can execute the joins has the same duplicates, and its
recommendations say the same one by one. -/
theorem advice_agrees_of_supported (hsnake : target.snakeCaseTables = target'.snakeCaseTables)
    (h : ∀ record ∈ records, record.2.JoinsSupported target.capabilities)
    (h' : ∀ record ∈ records, record.2.JoinsSupported target'.capabilities) :
    (Advice.ofRecords target records).duplicates = (Advice.ofRecords target' records).duplicates ∧
      (Advice.ofRecords target records).recommendations.map Recommendation.essence =
        (Advice.ofRecords target' records).recommendations.map Recommendation.essence := by
  have haccount := Advice.accounts_ofRecords target records
  have haccount' := Advice.accounts_ofRecords target' records
  rw [haccount.duplicates_eq, haccount'.duplicates_eq, haccount.recommendations_eq,
    haccount'.recommendations_eq, offers_eq_of_supported hsnake h h', List.map_map, List.map_map]
  exact ⟨rfl, List.map_congr_left fun o _ => o.essence_recommendation target target'⟩

end Offers

/-! ### Reports -/

/-- Settings without what names the target database. -/
def Settings.apartFromDialect (s : Settings) : Settings :=
  { s with dialect := "", mysqlVersion := 0 }

namespace Report

/-- The database can execute every join that a query of the report makes on an own column. -/
def JoinsSupported (caps : Capabilities) (catalog : Catalog) (splitOr : Bool) (report : Report) :
    Prop :=
  ∀ query ∈ report.queries, (query.parse catalog splitOr).clauses.JoinsSupported caps

instance (caps : Capabilities) (catalog : Catalog) (splitOr : Bool) (report : Report) :
    Decidable (report.JoinsSupported caps catalog splitOr) :=
  inferInstanceAs (Decidable (∀ query ∈ report.queries, _))

/-- Two reports give the same advice, except for how it is written for the target database. -/
structure SameAdvice (report report' : Report) : Prop where
  queries : report.queries = report'.queries
  duplicates : report.duplicates = report'.duplicates
  length : report.recommendations.length = report'.recommendations.length
  /-- Position by position, table, name, key columns, source, text and origin are the same. -/
  recommendations : report.recommendations.map Recommendation.essence =
    report'.recommendations.map Recommendation.essence

end Report

namespace Advisor

variable {a b : Advisor}

/-- Two advisors apart in their dialect only report the same, as long as both support the joins. -/
theorem sameAdvice_reportOn (hsettings : a.settings.apartFromDialect = b.settings.apartFromDialect)
    (catalog : Catalog) (n : Nat) (source : String) (queries : List Query)
    (ha : (a.reportOn catalog n source queries).JoinsSupported a.capabilities catalog
      a.settings.splitOrBranches)
    (hb : (a.reportOn catalog n source queries).JoinsSupported b.capabilities catalog
      a.settings.splitOrBranches) :
    (a.reportOn catalog n source queries).SameAdvice (b.reportOn catalog n source queries) := by
  have hsplit : a.settings.splitOrBranches = b.settings.splitOrBranches :=
    (congrArg Settings.splitOrBranches hsettings :)
  have hsnake : a.settings.snakeCaseTables = b.settings.snakeCaseTables :=
    (congrArg Settings.snakeCaseTables hsettings :)
  -- what is said of the queries of the report holds of its records
  have hrecords {caps : Capabilities} (h : (a.reportOn catalog n source queries).JoinsSupported caps
      catalog a.settings.splitOrBranches) :
      ∀ record ∈ queries.flatMap (Query.records catalog a.settings.splitOrBranches),
        record.2.JoinsSupported caps := by
    intro record hrecord
    obtain ⟨query, -, hmem⟩ := List.mem_flatMap.mp hrecord
    rw [Query.clauses_eq_of_mem_records hmem]
    exact h record.1 (List.mem_map_of_mem hrecord)
  have htarget : (Target.of a.capabilities a.settings).snakeCaseTables =
      (Target.of b.capabilities b.settings).snakeCaseTables := hsnake
  obtain ⟨hduplicates, hessences⟩ :=
    advice_agrees_of_supported htarget (hrecords ha) (hrecords hb)
  simp only [reportOn, hsplit] at hduplicates hessences ⊢
  exact ⟨rfl, hduplicates, by simpa using congrArg List.length hessences, hessences⟩

/-- **The dialect changes only the syntax.** Two advisors whose settings differ in the target
database at most give the same advice on the same sources, and on the same single query, provided
that both databases can execute every join of an own column that the queries make: the queries and
the duplicates are equal, and so are the recommendations, one by one, up to covering columns,
condition, reason, dialect and statement. -/
theorem dialect_changes_syntax_only
    (hsettings : a.settings.apartFromDialect = b.settings.apartFromDialect) :
    (∀ source texts,
      let report := a.analyzeSources source texts
      let catalog := catalogOf (declarationsOf texts).flatten
      report.JoinsSupported a.capabilities catalog a.settings.splitOrBranches →
      report.JoinsSupported b.capabilities catalog a.settings.splitOrBranches →
        report.SameAdvice (b.analyzeSources source texts)) ∧
    ∀ sql table fields,
      let report := a.analyzeQuery sql table fields
      let catalog := [(table, (fields.map Text.strip).filter (!·.isEmpty))]
      report.JoinsSupported a.capabilities catalog a.settings.splitOrBranches →
      report.JoinsSupported b.capabilities catalog a.settings.splitOrBranches →
        report.SameAdvice (b.analyzeQuery sql table fields) := by
  constructor
  · intro source texts report catalog ha hb
    have hmethods : a.settings.queryMethods = b.settings.queryMethods :=
      (congrArg Settings.queryMethods hsettings :)
    have hcross : a.settings.crossFileDeclarations = b.settings.crossFileDeclarations :=
      (congrArg Settings.crossFileDeclarations hsettings :)
    have hsame := sameAdvice_reportOn hsettings _ _ _ _ ha hb
    simp only [report, analyzeSources, hmethods, hcross] at hsame ⊢
    exact hsame
  · intro sql table fields report catalog ha hb
    exact sameAdvice_reportOn hsettings _ _ _ _ ha hb

/-- A search with an inner join, a constant and a selected column. -/
def dueTasks : String :=
  "SELECT due FROM task JOIN x ON x.a = id WHERE id = 1"

/-- The advice on a search with an inner join is the same for PostgreSQL and for an old MySQL,
though only the first gets a covering column. -/
theorem dueTasks_same_advice :
    let a := ofCapabilities (.of .postgres none)
    let b : Advisor := ⟨{ dialect := "mysql", mysqlVersion := 5 }, .of .mysql (some 5)⟩
    (a.analyzeQuery dueTasks "Task" ["id", "due"]).recommendations.map (·.covering) = [["due"]] ∧
      (b.analyzeQuery dueTasks "Task" ["id", "due"]).recommendations.map (·.covering) = [[]] ∧
      (a.analyzeQuery dueTasks "Task" ["id", "due"]).SameAdvice
        (b.analyzeQuery dueTasks "Task" ["id", "due"]) := by
  intro a b
  refine ⟨by decide +kernel, by decide +kernel, ?_⟩
  exact (dialect_changes_syntax_only (a := a) (b := b) rfl).2 dueTasks "Task" ["id", "due"]
    (by decide +kernel) (by decide +kernel)

end Advisor

end IndexAdvice
