import IndexAdvice.JoinGraph
import IndexAdvice.Proofs.CheckedNames
import IndexAdvice.Proofs.KeyOrder

/-!
# Checked advice

A candidate is drafted as a list of key columns and a map from columns to motives, which are looked
up again when it becomes a recommendation. The draft of a branch has an entry for each of its key
columns (`Checked.candidate_ofBranch`). The edges of the join graph are looked up in the same way,
after one has been added where there was none.
-/

namespace IndexAdvice

namespace Checked

/-! ### Drafts -/

/-- A candidate with its motives apart. -/
structure Draft where
  /-- The key columns, in order. -/
  columns : List String := []
  /-- Columns with the motives that brought them in. -/
  reasons : List (String × List String) := []
  literals : List Predicate := []
  selectedOnly : List String := []

namespace Draft

/-- A draft after a column is mentioned once more. -/
def add (draft : Draft) (column motive : String) : Draft :=
  { draft with
    columns := addNew draft.columns column
    reasons := (addAbsent draft.reasons column []).map fun (c, motives) =>
      (c, if c == column then addNew motives motive else motives) }

/-- The draft of a branch. -/
def ofBranch (caps : Capabilities) (clauses : Clauses) (branch : List Predicate) : Draft :=
  let draft := (Candidate.mentions caps clauses branch).foldl (fun d m => add d m.1 m.2) {}
  { draft with
    literals := branch.filter fun p => p.isLiteral && (Candidate.equalityColumn? p).isSome
    selectedOnly := clauses.selected.filter fun column => !draft.columns.contains column }

/-- The candidate, its motives looked up for each key column. -/
def candidate (draft : Draft) : Checked Candidate := do
  let key ← draft.columns.mapM fun column => do
    let motives ← entry draft.reasons column
    return KeyColumn.mk column motives
  return ⟨key, draft.literals, draft.selectedOnly⟩

/-- The draft that has the columns of a key with their motives. -/
def ofKey (key : List KeyColumn) : Draft where
  columns := key.map (·.column)
  reasons := key.map fun k => (k.column, k.motives)

/-- Mentioning a column does to a draft what it does to a key. -/
theorem add_ofKey (key : List KeyColumn) (column motive : String) :
    (ofKey key).add column motive = ofKey (addMention key column motive) := by
  have hcolumns : (key.map (·.column)).contains column = key.any (·.column == column) := by
    rw [Bool.eq_iff_iff]
    simp
  have hreasons : ((ofKey key).reasons.lookup column).isSome = key.any (·.column == column) := by
    rw [Bool.eq_iff_iff, List.lookup_isSome_iff, List.any_eq_true]
    simp only [ofKey, List.mem_map, exists_exists_and_eq_and, BEq.comm (a := column)]
  rw [add, addAbsent, hreasons, addMention]
  dsimp only [ofKey]
  rw [addNew, hcolumns]
  cases hany : key.any (·.column == column) with
  | true =>
    -- the column keeps its place, and its entry may get the motive
    rw [if_pos rfl, if_pos rfl, if_pos rfl, List.map_map, List.map_map, List.map_map]
    congr 1
    all_goals refine List.map_congr_left fun k _ => ?_
    · dsimp only [Function.comp_apply]
      split <;> rfl
    · dsimp only [Function.comp_apply]
      rw [addNew]
      cases k.column == column <;> cases k.motives.contains motive <;> rfl
  | false =>
    -- the column and its entry go to the end, and the other entries stay
    rw [if_neg Bool.false_ne_true, if_neg Bool.false_ne_true, if_neg Bool.false_ne_true,
      List.map_append, List.map_append, List.map_append, List.map_map]
    congr 2
    · refine List.map_congr_left fun k hk => ?_
      have hne := Bool.eq_false_iff.mpr (List.any_eq_false.mp hany k hk)
      dsimp only [Function.comp_apply]
      rw [hne, if_neg Bool.false_ne_true]
    · simp [addNew]

/-- A draft with its roles and a key side by side takes in mentions as the key alone does. -/
theorem foldl_add_ofKey (ms : List (String × String)) (key : List KeyColumn) :
    ms.foldl (fun d m => add d m.1 m.2) (ofKey key) =
      ofKey (ms.foldl (fun key m => addMention key m.1 m.2) key) := by
  induction ms generalizing key with
  | nil => rfl
  | cons m ms ih => rw [List.foldl_cons, List.foldl_cons, add_ofKey, ih]

/-- The draft of a branch is the candidate of that branch with its roles written beside it. -/
theorem ofBranch_eq (caps : Capabilities) (clauses : Clauses) (branch : List Predicate) :
    ofBranch caps clauses branch =
      { ofKey (Candidate.ofBranch caps clauses branch).key with
        literals := (Candidate.ofBranch caps clauses branch).literals
        selectedOnly := (Candidate.ofBranch caps clauses branch).selectedOnly } := by
  have hkey := foldl_add_ofKey (Candidate.mentions caps clauses branch) []
  rw [show ofKey [] = {} from rfl] at hkey
  rw [ofBranch, hkey, Candidate.ofBranch]
  simp only [ofKey, List.contains_map, BEq.comm]

/-- The entry of a key column has its motives. -/
theorem lookup_ofKey {key : List KeyColumn} (h : (key.map (·.column)).Nodup) {k : KeyColumn}
    (hk : k ∈ key) : (ofKey key).reasons.lookup k.column = some k.motives := by
  induction key with
  | nil => cases hk
  | cons first key ih =>
    rw [List.map_cons, List.nodup_cons] at h
    dsimp only [ofKey] at ih ⊢
    rw [List.map_cons, List.lookup_cons]
    rcases List.mem_cons.mp hk with rfl | hk
    · rw [beq_self_eq_true]
    · have hne : k.column ≠ first.column := fun heq =>
        h.1 (heq ▸ List.mem_map_of_mem hk)
      rw [beq_false_of_ne hne]
      exact ih h.2 hk

/-- **Every key column** of a draft has an entry among the reasons. -/
theorem candidate_ofBranch (caps : Capabilities) (clauses : Clauses) (branch : List Predicate) :
    (ofBranch caps clauses branch).candidate = .ok (Candidate.ofBranch caps clauses branch) := by
  have hnodup : ((Candidate.ofBranch caps clauses branch).key.map (·.column)).Nodup := by
    rw [key_ofBranch, columns_keyOf]
    exact nodup_eraseDups _
  have hentries : ((Candidate.ofBranch caps clauses branch).key.map (·.column)).mapM
      (fun column => do
        let motives ← entry (ofKey (Candidate.ofBranch caps clauses branch).key).reasons column
        return KeyColumn.mk column motives) =
      .ok (Candidate.ofBranch caps clauses branch).key := by
    rw [List.mapM_map]
    exact (mapM_eq (g := id) fun k hk => by
      rw [Function.comp_apply, entry_eq (lookup_ofKey hnodup hk)]
      rfl).trans (congrArg Except.ok (List.map_id _))
  rw [ofBranch_eq, candidate]
  exact hentries ▸ rfl

end Draft

/-! ### Advice -/

/-- The drafts of a query, one for each branch; a query without branches has one. -/
def drafts (caps : Capabilities) (clauses : Clauses) : List Draft :=
  (if clauses.branches.isEmpty then [[]] else clauses.branches).map (Draft.ofBranch caps clauses)

/-- The advice after a draft of a query. -/
def addDraft (target : Target) (table : String) (query : Query) (advice : Advice) (draft : Draft) :
    Checked Advice :=
  if draft.columns.isEmpty then return advice
  else match advice.find? table draft.columns with
    | some first =>
      return { advice with duplicates := advice.duplicates ++
        [⟨table, draft.columns, first.name, query.location, query.sql⟩] }
    | none => do
      let c ← draft.candidate
      let noted := advice.noteAll (Advice.limitNotes target.capabilities c)
      return { noted with
        recommendations := noted.recommendations ++ [Advice.recommend target table query c] }

/-- The advice after a query on `table`. -/
def addQuery (target : Target) (table : String) (advice : Advice) (record : Query × Clauses) :
    Checked Advice :=
  let (query, clauses) := record
  if query.fields.isEmpty then return advice.note (Advice.fieldsNote table query)
  else (drafts target.capabilities clauses).foldlM (addDraft target table query)
    (advice.noteAll (Advice.joinNotes target.capabilities table clauses))

/-- The subjects of the queries that are not nested, under all their variants. -/
def subjects (records : List (Query × Clauses)) : Checked (List (String × String)) :=
  subjectTable ((records.filter (!·.1.isNested)).map (·.1.table))

/-- The advice on queries that have been read. -/
def advice (target : Target) (records : List (Query × Clauses)) : Checked Advice := do
  let known ← subjects records
  let tables := groupByFirst (records.map fun r => (Advice.filedUnder target known r.1, r))
  tables.foldlM (fun advice table => table.2.foldlM (addQuery target table.1) advice) {}

/-- Every column of a draft has a role, so the look-up cannot fail and the draft counts as its
candidate does. -/
theorem addDraft_ofBranch (target : Target) (table : String) (query : Query) (advice : Advice)
    (clauses : Clauses) (branch : List Predicate) :
    addDraft target table query advice (Draft.ofBranch target.capabilities clauses branch) =
      .ok (advice.addCandidate target table query
        (Candidate.ofBranch target.capabilities clauses branch)) := by
  have hcolumns : (Draft.ofBranch target.capabilities clauses branch).columns =
      (Candidate.ofBranch target.capabilities clauses branch).columns := by
    rw [Draft.ofBranch_eq]
    rfl
  rw [addDraft, hcolumns, Draft.candidate_ofBranch, ok_bind, Advice.addCandidate,
    Candidate.columns, List.isEmpty_map]
  split
  · rfl
  · cases advice.find? table _ <;> rfl

theorem addQuery_eq (target : Target) (table : String) (advice : Advice)
    (record : Query × Clauses) :
    addQuery target table advice record = .ok (advice.addQuery target table record) := by
  obtain ⟨query, clauses⟩ := record
  rw [addQuery, Advice.addQuery]
  split
  · rfl
  · rw [drafts, Candidate.ofClauses, List.foldlM_map, List.foldl_map]
    exact foldlM_eq (fun advice branch _ =>
      addDraft_ofBranch target table query advice clauses branch) _

/-- **The advice is given**: no step of the engine faults. -/
theorem advice_eq (target : Target) (records : List (Query × Clauses)) :
    advice target records = .ok (Advice.ofRecords target records) := by
  rw [advice, subjects, subjectTable_eq, ok_bind]
  exact foldlM_eq (fun advice table _ => foldlM_eq
    (fun advice record _ => addQuery_eq target table.1 advice record) advice) {}

/-! ### The join graph -/

/-- The edges after the one between two tables is changed; there has to be one. -/
def changeEdge (edges : List JoinEdge) (source target : String) (change : JoinEdge → JoinEdge) :
    Checked (List JoinEdge) :=
  let between (e : JoinEdge) := e.source == source && e.target == target
  if edges.any between then return edges.map fun e => if between e then change e else e
  else .error .missingEntry

/-- The graph after a join between two tables. -/
def addEdge (g : JoinGraph) (source target : String) (j : Join) : Checked JoinGraph := do
  let joined := g.edges.any fun e => e.source == source && e.target == target
  let grown := if joined then g else
    { nodes := addNew (addNew g.nodes source) target
      edges := g.edges ++ [{ source, target }] }
  let edges ← changeEdge grown.edges source target (·.add j)
  return { grown with edges }

/-- The graph after a join of a query on `source`; `subjects` maps variants to node names. -/
def addJoin (subjects : List (String × String)) (source : String) (g : JoinGraph) (j : Join) :
    Checked JoinGraph :=
  let target := (subjects.lookup (Text.lower j.remoteTable)).getD j.remoteTable
  if j.remoteTable.isEmpty || target == source then return g else addEdge g source target j

/-- The graph of the joins of queries. -/
def joinGraph (snakeCaseTables : Bool) (records : List (Query × Clauses)) :
    Checked JoinGraph := do
  let known ← subjects records
  let nodes := known.map fun (v, name) => (v, if snakeCaseTables then snakeCase name else name)
  records.foldlM (fun g (query, clauses) =>
    clauses.joins.foldlM (addJoin nodes (JoinGraph.sourceNode snakeCaseTables nodes query)) g) {}

theorem addEdge_eq (g : JoinGraph) (source target : String) (j : Join) :
    addEdge g source target j = .ok (g.addEdge source target j) := by
  rw [addEdge, JoinGraph.addEdge]
  dsimp only
  cases hjoined : g.edges.any fun e => e.source == source && e.target == target with
  | true =>
    rw [if_pos rfl, if_pos rfl, changeEdge, hjoined]
    rfl
  | false =>
    -- none of the edges that were there is changed
    have hothers (e : JoinEdge) (he : e ∈ g.edges) :
        (e.source == source && e.target == target) = false := by
      simpa using List.any_eq_false.mp hjoined e he
    have hedges : (g.edges.map fun e =>
        if e.source == source && e.target == target then e.add j else e) = g.edges := by
      conv_rhs => rw [← List.map_id g.edges]
      refine List.map_congr_left fun e he => ?_
      rw [hothers e he]
      rfl
    rw [if_neg Bool.false_ne_true, if_neg Bool.false_ne_true, changeEdge]
    dsimp only
    rw [if_pos (by simp), List.map_append, hedges]
    simp

theorem addJoin_eq (subjects : List (String × String)) (source : String) (g : JoinGraph)
    (j : Join) : addJoin subjects source g j = .ok (g.addJoin subjects source j) := by
  rw [addJoin, JoinGraph.addJoin, addEdge_eq]
  simp only [apply_ite Except.ok, pure_eq_ok]

/-- The join graph is built: an edge is changed only once it is there. -/
theorem joinGraph_eq (snakeCaseTables : Bool) (records : List (Query × Clauses)) :
    joinGraph snakeCaseTables records = .ok (JoinGraph.ofRecords snakeCaseTables records) := by
  rw [joinGraph, subjects, subjectTable_eq, ok_bind]
  exact foldlM_eq (fun g record _ => foldlM_eq (fun g j _ => addJoin_eq _ _ g j) g) {}

end Checked

end IndexAdvice
