import Mathlib.Data.List.Nodup
import IndexAdvice.Advisor
import IndexAdvice.Proofs.Deduplication
import IndexAdvice.Proofs.IndexNames
import IndexAdvice.Report.Script

/-!
# Running the scripts of a report

What the statements in the two scripts of a report do to a database. A script is joined by line
breaks from **parts**: the remarks, the statements, and what stands around them. A **schema** is the
list of the index names in a database; a part creates an index, drops one, or leaves the schema
alone. `runScript` gives the schema after all parts together with the changes that were made, unless
a statement fails: `CREATE` on a name in use, `DROP` on a name that is not. With `IF NOT EXISTS` and
`IF EXISTS` such a statement changes nothing.

A part is a line as long as it has no line break of its own. What a script executes as a text, where
a remark may have one, is the subject of `ScriptTokens`.

The scripts are inverse to each other whenever the names of the report differ
(`run_creates`, `run_drops`), and names differ exactly if no two recommended indexes have the same
words. This is the condition in `scripts_inverse_iff`. An underscore inside a column name can break
it, as `clashing_search` shows.
-/

namespace IndexAdvice

open Text

/-! ### Statements and schemas -/

/-- What a part of a script asks for; `guarded` stands for `IF NOT EXISTS` and `IF EXISTS`. -/
inductive IndexCommand where
  | create (name : String) (guarded : Bool)
  | drop (name : String) (guarded : Bool)
deriving DecidableEq, Repr

/-- What was done to a schema. -/
inductive SchemaChange where
  | created (name : String)
  | dropped (name : String)
deriving DecidableEq, Repr

namespace IndexCommand

/-- The text after a guard, and whether there is one. -/
def afterGuard (guard text : List Char) : Bool × List Char :=
  match guard.isPrefixOf? text with
  | some rest => (true, rest)
  | none => (false, text)

/-- The name at the front of a text. -/
def nameAt (text : List Char) : String :=
  String.ofList (text.takeWhile isWordChar)

/-- The command that a part of a script is, if it is one. -/
def ofLine? (part : String) : Option IndexCommand :=
  match "CREATE INDEX ".toList.isPrefixOf? part.toList with
  | some rest =>
    let (guarded, rest) := afterGuard "IF NOT EXISTS ".toList rest
    some (.create (nameAt rest) guarded)
  | none =>
    match "DROP INDEX ".toList.isPrefixOf? part.toList with
    | some rest =>
      let (guarded, rest) := afterGuard "IF EXISTS ".toList rest
      some (.drop (nameAt rest) guarded)
    | none => none

/-- The schema after a command and the changes it made; `none` if it fails. -/
def exec? (schema : List String) : IndexCommand → Option (List String × List SchemaChange)
  | .create name guarded =>
    if schema.contains name then if guarded then some (schema, []) else none
    else some (schema ++ [name], [.created name])
  | .drop name guarded =>
    if schema.contains name then some (schema.erase name, [.dropped name])
    else if guarded then some (schema, []) else none

/-- The schema after several commands and the changes they made. -/
def run? (schema : List String) : List IndexCommand → Option (List String × List SchemaChange)
  | [] => some (schema, [])
  | command :: commands => do
    let (schema, changes) ← command.exec? schema
    let (schema, later) ← run? schema commands
    pure (schema, changes ++ later)

end IndexCommand

/-- The schema after the parts of a script and the changes they made. -/
def runScript (schema : List String) (parts : List String) :
    Option (List String × List SchemaChange) :=
  IndexCommand.run? schema (parts.filterMap IndexCommand.ofLine?)

/-! ### Creating and dropping -/

namespace IndexCommand

variable {schema names : List String}

/-- A run is the first command and the run of the others from where it leaves the schema. -/
theorem run_cons {next last : List String} {changes later : List SchemaChange}
    {command : IndexCommand} {commands : List IndexCommand}
    (hexec : exec? schema command = some (next, changes))
    (hrun : run? next commands = some (last, later)) :
    run? schema (command :: commands) = some (last, changes ++ later) := by
  simp only [run?, hexec, hrun, Option.bind_eq_bind, Option.bind_some, Option.pure_def]

/-- New names are all created, in order. -/
theorem run_creates (hnames : names.Nodup) (hfresh : ∀ name ∈ names, name ∉ schema)
    (guarded : Bool) :
    run? schema (names.map (.create · guarded)) =
      some (schema ++ names, names.map .created) := by
  induction names generalizing schema with
  | nil => simp [run?]
  | cons name names ih =>
    obtain ⟨hname, hnames⟩ := List.nodup_cons.mp hnames
    have hexec : exec? schema (.create name guarded) =
        some (schema ++ [name], [.created name]) := by
      rw [exec?, if_neg (by simpa using hfresh name List.mem_cons_self)]
    have hrest : ∀ other ∈ names, other ∉ schema ++ [name] := by
      intro other hother hmem
      rcases List.mem_append.mp hmem with hmem | hmem
      · exact hfresh other (List.mem_cons_of_mem name hother) hmem
      · exact hname (List.mem_singleton.mp hmem ▸ hother)
    rw [List.map_cons, run_cons hexec (ih hnames hrest), List.append_assoc]
    rfl

/-- Names that come last in a schema are all dropped, the last one first. -/
theorem run_drops (hnames : names.Nodup) (hfresh : ∀ name ∈ names, name ∉ schema)
    (guarded : Bool) :
    run? (schema ++ names) (names.reverse.map (.drop · guarded)) =
      some (schema, names.reverse.map .dropped) := by
  induction names using List.reverseRecOn with
  | nil => simp [run?]
  | append_singleton names name ih =>
    have hsplit := List.nodup_append.mp hnames
    have hname : name ∉ schema ++ names := by
      intro hmem
      rcases List.mem_append.mp hmem with hmem | hmem
      · exact hfresh name (List.mem_append_right names (List.mem_singleton.mpr rfl)) hmem
      · exact hsplit.2.2 name hmem name (List.mem_singleton.mpr rfl) rfl
    have hexec : exec? (schema ++ (names ++ [name])) (.drop name guarded) =
        some (schema ++ names, [.dropped name]) := by
      rw [exec?, if_pos (by simp), ← List.append_assoc, List.erase_append_right _ hname]
      simp
    have hrest := ih hsplit.1 fun other h => hfresh other (List.mem_append_left _ h)
    rw [List.reverse_append, List.reverse_singleton, List.singleton_append, List.map_cons,
      run_cons hexec hrest]
    rfl

end IndexCommand

/-! ### Reading statements -/

namespace IndexCommand

private theorem isPrefixOf?_append (mark rest : List Char) :
    mark.isPrefixOf? (mark ++ rest) = some rest :=
  List.isPrefixOf?_eq_some_iff_append_eq.mpr rfl

/-- A name ends where the first other character stands. -/
theorem nameAt_append {name : String} (hname : ∀ c ∈ name.toList, isWordChar c = true) {c : Char}
    (hc : isWordChar c = false) (rest : List Char) : nameAt (name.toList ++ c :: rest) = name := by
  rw [nameAt, List.takeWhile_append_of_pos hname, List.takeWhile_cons_of_neg (by simp [hc]),
    List.append_nil, String.ofList_toList]

/-- A part that starts like a comment is no command. -/
theorem ofLine?_eq_none {part : String} (hpart : ∃ rest, part.toList = '-' :: rest) :
    ofLine? part = none := by
  obtain ⟨rest, hrest⟩ := hpart
  rw [ofLine?, hrest]
  rfl

/-- An index name starts no guard. -/
private theorem isPrefixOf?_indexName {guard : List Char} (hguard : guard.head? = some 'I')
    (table : String) (columns : List String) (rest : List Char) :
    guard.isPrefixOf? ((indexName table columns).toList ++ rest) = none := by
  cases guard with
  | nil => simp at hguard
  | cons c guard =>
    obtain rfl : c = 'I' := Option.some.inj hguard
    rw [toList_indexName]
    rfl

/-- A guard that may be left out is read as such before an index name. -/
private theorem afterGuard_indexName (guard : List Char) (hguard : guard.head? = some 'I')
    (guarded : Bool) (table : String) (columns : List String) (rest : List Char) :
    afterGuard guard
        ((if guarded then guard else []) ++ ((indexName table columns).toList ++ rest)) =
      (guarded, (indexName table columns).toList ++ rest) := by
  cases guarded with
  | true =>
    rw [if_pos rfl, afterGuard, isPrefixOf?_append]
  | false =>
    rw [if_neg Bool.false_ne_true, List.nil_append, afterGuard, isPrefixOf?_indexName hguard]

/-- The text of a statement that creates an index. -/
private theorem toList_createStatement (caps : Capabilities) (ix : IndexSpec) :
    ∃ rest, (ix.createStatement caps).toList = "CREATE INDEX ".toList ++
      ((if ix.guarded && caps.guarded then "IF NOT EXISTS ".toList else []) ++
        (ix.effectiveName.toList ++ ' ' :: rest)) := by
  unfold IndexSpec.createStatement
  cases ix.guarded && caps.guarded with
  | true =>
    simp only [if_true, String.toList_append, List.append_assoc]
    exact ⟨_, rfl⟩
  | false =>
    simp only [Bool.false_eq_true, if_false, String.toList_append, List.append_assoc]
    exact ⟨_, rfl⟩

/-- The text of a statement that drops an index. -/
private theorem toList_dropStatement (dialect : Dialect) (table name : String) :
    ∃ c rest, isWordChar c = false ∧ (dropStatement dialect table name true).toList =
      "DROP INDEX ".toList ++ ((if dialect != .mysql then "IF EXISTS ".toList else []) ++
        (name.toList ++ c :: rest)) := by
  unfold dropStatement
  cases dialect with
  | mysql =>
    simp only [String.toList_append, List.append_assoc]
    exact ⟨' ', _, by decide, rfl⟩
  | postgres | sqlite =>
    simp only [if_true, String.toList_append, List.append_assoc]
    exact ⟨';', [], by decide, rfl⟩

/-- The statement of a recommendation creates its index. -/
theorem ofLine?_statement (target : Target) (o : Offer) :
    ofLine? (o.recommendation target).statement =
      some (.create (o.recommendation target).name
        (target.ifNotExists && target.capabilities.guarded)) := by
  have hname : ∀ ix : IndexSpec, ix.name = some (indexName ix.table ix.columns) →
      ix.effectiveName = indexName ix.table ix.columns := by
    intro ix hix
    rw [IndexSpec.effectiveName, hix]
    exact ite_self _
  simp only [Offer.recommendation, Advice.recommend]
  obtain ⟨rest, hrest⟩ := toList_createStatement target.capabilities _
  rw [ofLine?, hrest, isPrefixOf?_append]
  simp only [hname, afterGuard_indexName "IF NOT EXISTS ".toList rfl]
  rw [nameAt_append (fun c hc => isWordChar_of_mem_indexName hc) (by decide)]

/-- The statement that drops an index is read as such. -/
theorem ofLine?_dropStatement (dialect : Dialect) (table named : String) (columns : List String) :
    ofLine? (dropStatement dialect named (indexName table columns) true) =
      some (.drop (indexName table columns) (dialect != .mysql)) := by
  obtain ⟨c, rest, hc, hrest⟩ := toList_dropStatement dialect named (indexName table columns)
  have hcreate : ∀ text, "CREATE INDEX ".toList.isPrefixOf? ("DROP INDEX ".toList ++ text) = none :=
    fun _ => rfl
  rw [ofLine?, hrest, hcreate, isPrefixOf?_append]
  simp only [afterGuard_indexName "IF EXISTS ".toList rfl]
  rw [nameAt_append (fun c hc => isWordChar_of_mem_indexName hc) hc]

end IndexCommand

/-! ### The scripts of a report -/

namespace Report

variable (r : Report)

/-- The parts that the script that creates all recommended indexes is joined from. -/
def createScriptLines : List String :=
  r.scriptHeader "index recommendations" ++
    r.scriptBody ([""].intercalate (r.recommendations.map createLines))

/-- The parts that the script that drops all recommended indexes is joined from. -/
def rollbackScriptLines : List String :=
  r.scriptHeader "rollback" ++ r.scriptBody
    (r.recommendations.reverse.map fun rec => dropStatement r.dialect rec.table rec.name true)

/-- The script is its parts, with line breaks between them. -/
theorem createScript_eq : r.createScript = scriptText r.createScriptLines :=
  rfl

/-- So is the rollback script. -/
theorem rollbackScript_eq : r.rollbackScript = scriptText r.rollbackScriptLines :=
  rfl

open IndexCommand

/-- The parts around the statements of a script are no commands. -/
private theorem filterMap_script (title : String) (parts : List String) :
    (r.scriptHeader title ++ r.scriptBody parts).filterMap ofLine? = parts.filterMap ofLine? := by
  have hheader : (r.scriptHeader title).filterMap ofLine? = [] := by
    rw [List.filterMap_eq_nil_iff]
    intro part hpart
    simp only [scriptHeader, List.mem_cons, List.not_mem_nil, or_false] at hpart
    rcases hpart with rfl | rfl | rfl | rfl
    · exact ofLine?_eq_none ⟨_, by simp only [String.toList_append]; rfl⟩
    · exact ofLine?_eq_none ⟨_, by simp only [String.toList_append]; rfl⟩
    · exact ofLine?_eq_none ⟨_, by simp only [String.toList_append]; rfl⟩
    · rfl
  have hbody : (r.scriptBody parts).filterMap ofLine? = parts.filterMap ofLine? := by
    rw [scriptBody]
    split
    · rename_i hempty
      rw [List.isEmpty_iff.mp hempty]
      rfl
    · split
      · rw [List.filterMap_append, List.filterMap_append]
        exact List.append_nil _
      · rfl
  rw [List.filterMap_append, hheader, hbody, List.nil_append]

/-- Of the parts of a recommendation only the statement is a command. -/
private theorem filterMap_createLines (rec : Recommendation) :
    (createLines rec).filterMap ofLine? = (ofLine? rec.statement).toList := by
  have hcomment : ∀ lead s : String, lead.toList.head? = some '-' → ofLine? (lead ++ s) = none := by
    intro lead s hlead
    obtain ⟨rest, hrest⟩ := List.head?_eq_some_iff.mp hlead
    exact ofLine?_eq_none ⟨rest ++ s.toList, by rw [String.toList_append, hrest, List.cons_append]⟩
  have hsource : (if rec.source.isEmpty then [] else ["-- source: " ++ rec.source]).filterMap
      ofLine? = [] := by
    split
    · rfl
    · rw [List.filterMap_cons_none (hcomment "-- source: " _ rfl), List.filterMap_nil]
  have hreason : ofLine? ("-- " ++ rec.table ++ ": " ++ rec.reason) = none := by
    rw [String.append_assoc, String.append_assoc]
    exact hcomment "-- " _ rfl
  rw [createLines, List.filterMap_append, List.filterMap_append, hsource,
    List.filterMap_cons_none hreason, List.filterMap_cons_none (hcomment "-- query: " _ rfl),
    List.filterMap_nil, List.nil_append, List.nil_append]
  cases h : ofLine? rec.statement <;> simp [h]

/-- The empty parts between blocks execute nothing. -/
private theorem filterMap_intercalate (ls : List (List String)) :
    ([""].intercalate ls).filterMap ofLine? = ls.flatMap (·.filterMap ofLine?) := by
  have hblank : [""].filterMap ofLine? = [] := rfl
  induction ls with
  | nil => rfl
  | cons l ls ih =>
    cases ls with
    | nil => simp [List.intercalate]
    | cons l' ls =>
      rw [List.intercalate_cons_cons, List.filterMap_append, List.filterMap_append, ih, hblank,
        List.append_nil]
      rfl

variable {r} {target : Target} {offers : List Offer}

/-- The script of a report creates the recommended indexes in order. -/
theorem commands_createScriptLines
    (hr : r.recommendations = offers.map (Offer.recommendation target)) :
    r.createScriptLines.filterMap ofLine? = (r.recommendations.map (·.name)).map
      (.create · (target.ifNotExists && target.capabilities.guarded)) := by
  rw [createScriptLines, filterMap_script, filterMap_intercalate, List.flatMap_map, hr,
    List.flatMap_map, List.map_map, List.map_map, List.map_eq_flatMap]
  refine List.flatMap_congr fun o _ => ?_
  rw [filterMap_createLines, IndexCommand.ofLine?_statement]
  rfl

/-- The rollback script of a report drops the recommended indexes in reverse order. -/
theorem commands_rollbackScriptLines
    (hr : r.recommendations = offers.map (Offer.recommendation target)) :
    r.rollbackScriptLines.filterMap ofLine? =
      (r.recommendations.map (·.name)).reverse.map (.drop · (r.dialect != .mysql)) := by
  have hread : (ofLine? ∘ fun rec => dropStatement r.dialect rec.table rec.name true) ∘
        Offer.recommendation target =
      some ∘ fun o => .drop (o.recommendation target).name (r.dialect != .mysql) :=
    funext fun o => ofLine?_dropStatement r.dialect o.table o.table o.candidate.columns
  rw [rollbackScriptLines, filterMap_script, List.filterMap_map, hr, ← List.map_reverse,
    List.filterMap_map, hread, List.filterMap_eq_map, ← List.map_reverse, ← List.map_reverse,
    List.map_map, List.map_map]
  rfl

end Report

/-! ### Scripts that are inverse to each other -/

/-- The names of recommended indexes differ exactly if no two recommendations of different keys have
the same words. -/
theorem nodup_names_iff (target : Target) (records : List (Query × Clauses)) :
    let recommended := (Advice.ofRecords target records).recommendations
    (recommended.map (·.name)).Nodup ↔ ∀ a ∈ recommended, ∀ b ∈ recommended,
      indexWords a.table a.columns = indexWords b.table b.columns → a.key = b.key := by
  intro recommended
  have hname : ∀ a ∈ recommended, a.name = indexName a.table a.columns := by
    intro a ha
    simp only [recommended, (Advice.accounts_ofRecords target records).recommendations_eq] at ha
    obtain ⟨o, -, rfl⟩ := List.mem_map.mp ha
    rfl
  have hkeys : (recommended.map Recommendation.key).Nodup := by
    rw [Advice.map_key_recommendations]
    exact nodup_eraseDups _
  constructor
  · intro hnames a ha b hb hwords
    have heq : a.name = b.name := by
      rw [hname a ha, hname b hb, indexName_eq_iff.mpr hwords]
    rw [List.inj_on_of_nodup_map hnames ha hb heq]
  · intro hwords
    refine List.Nodup.map_on (fun a ha b hb heq => ?_) hkeys.of_map
    rw [hname a ha, hname b hb] at heq
    exact List.inj_on_of_nodup_map hkeys ha hb (hwords a ha b hb (indexName_eq_iff.mp heq))

/-- **The scripts of a report are inverse to each other exactly if its indexes differ in words.**
Both analyses of the advisor make such a report. If no two of its recommendations for different keys
have the same words, and only then, their names differ. On a schema without these names the parts
of the script then create every index once, in order, and those of the rollback script drop every
one of them once, in reverse order, and restore the schema. -/
theorem scripts_inverse_iff (advisor : Advisor) (catalog : Catalog) (filesScanned : Nat)
    (source : String) (queries : List Query) :
    let r := advisor.reportOn catalog filesScanned source queries
    let names := r.recommendations.map (·.name)
    (∀ a ∈ r.recommendations, ∀ b ∈ r.recommendations,
      indexWords a.table a.columns = indexWords b.table b.columns → a.key = b.key) ↔
      names.Nodup ∧ ∀ schema : List String, (∀ name ∈ names, name ∉ schema) →
        runScript schema r.createScriptLines = some (schema ++ names, names.map .created) ∧
        runScript (schema ++ names) r.rollbackScriptLines =
          some (schema, names.reverse.map .dropped) := by
  intro r names
  have hnodup := nodup_names_iff (.of advisor.capabilities advisor.settings)
    (queries.flatMap (Query.records catalog advisor.settings.splitOrBranches))
  have haccount := Advice.accounts_ofRecords (.of advisor.capabilities advisor.settings)
    (queries.flatMap (Query.records catalog advisor.settings.splitOrBranches))
  refine ⟨fun hwords => ?_, fun h => hnodup.mp h.1⟩
  have hnames : names.Nodup := hnodup.mpr hwords
  refine ⟨hnames, fun schema hfresh => ⟨?_, ?_⟩⟩
  · rw [runScript, Report.commands_createScriptLines haccount.recommendations_eq]
    exact IndexCommand.run_creates hnames hfresh _
  · rw [runScript, Report.commands_rollbackScriptLines haccount.recommendations_eq]
    exact IndexCommand.run_drops hnames hfresh _

/-- The report on a search in a table `T`, for the usual settings. -/
def searchReport (sql : String) (fields : List String) : Report :=
  (⟨{}, .of .postgres none⟩ : Advisor).analyzeQuery sql "T" fields

/-- Two indexes whose columns have underscores, but not at the same places. -/
theorem search_scripts_inverse :
    let r := searchReport "b_c = $1 OR b = $2 AND d = $3" ["b_c", "b", "d"]
    let names := r.recommendations.map (·.name)
    names = ["idx_T_b_c", "idx_T_b_d"] ∧
      runScript ["idx_T_id"] r.createScriptLines =
        some ("idx_T_id" :: names, names.map .created) ∧
      runScript ("idx_T_id" :: names) r.rollbackScriptLines =
        some (["idx_T_id"], names.reverse.map .dropped) := by
  intro r names
  obtain ⟨hnames, hwords⟩ : names = ["idx_T_b_c", "idx_T_b_d"] ∧
      ∀ a ∈ r.recommendations, ∀ b ∈ r.recommendations,
        indexWords a.table a.columns = indexWords b.table b.columns → a.key = b.key := by
    decide +kernel
  have hfresh : ∀ name ∈ names, name ∉ ["idx_T_id"] := by
    rw [hnames]
    decide
  exact ⟨hnames, ((scripts_inverse_iff _ _ _ _ _).mp hwords).2 ["idx_T_id"] hfresh⟩

/-- **An underscore inside a column name may make two names one.** The index on the column `b_c` and
that on `b` and `c` have the same name, so the script fails. -/
theorem clashing_search :
    let r := searchReport "b_c = $1 OR b = $2 AND c = $3" ["b_c", "b", "c"]
    r.recommendations.map (fun rec => (rec.name, rec.columns)) =
        [("idx_T_b_c", ["b_c"]), ("idx_T_b_c", ["b", "c"])] ∧
      ¬(r.recommendations.map (·.name)).Nodup ∧ runScript [] r.createScriptLines = none := by
  decide +kernel

end IndexAdvice
