import IndexAdvice.Proofs.GraphEdges
import IndexAdvice.Proofs.SubjectFolding

/-!
# The nodes of one table

A table is met as the table of a query and as the one that a join is with. Both are folded onto the
subject that claims the name, and then they are one node. A name that no subject claims is a nested
query's: as its table the name is written in snake case where that is asked for, and in a join it
stays as it is. `one_node_iff` says when this makes no difference, and in `unclaimed_table_split` it
makes two nodes of one table.
-/

namespace IndexAdvice.JoinGraph

open Advice

variable {snakeCaseTables : Bool} {records : List (Query × Clauses)}

/-- A table is looked up under the query that claimed it. -/
theorem lookup_subjects (records : List (Query × Clauses)) (table : String) :
    (subjects records).lookup (Text.lower table) = claimant? records table :=
  lookup_subjectTable _ _

/-- The table of a query that is not nested has a claimant, itself at last. -/
theorem claimant?_ne_none {record : Query × Clauses} (hrecord : record ∈ records)
    (htop : record.1.isNested = false) (hname : record.1.table ≠ "") :
    claimant? records record.1.table ≠ none := by
  intro hnone
  have hdeclared : record.1.table ∈ declaredSubjects records :=
    List.mem_map.mpr ⟨record, List.mem_filter.mpr ⟨hrecord, by simp [htop]⟩, rfl⟩
  have hvariant : Text.lower record.1.table ∈ variants record.1.table := by simp [variants, hname]
  exact List.find?_eq_none.mp hnone _ hdeclared (List.contains_iff_mem.mpr hvariant)

/-- The nodes are those of the tables of queries and of their joins, where these are drawn. -/
theorem mem_nodes_ofRecords {node : String} :
    node ∈ (ofRecords snakeCaseTables records).nodes ↔
      ∃ record ∈ records, ∃ j ∈ record.2.joins, j.remoteTable ≠ "" ∧
        sourceNode snakeCaseTables (subjectNodes snakeCaseTables records) record.1 ≠
          targetNode (subjectNodes snakeCaseTables records) j ∧
        (sourceNode snakeCaseTables (subjectNodes snakeCaseTables records) record.1 = node ∨
          targetNode (subjectNodes snakeCaseTables records) j = node) := by
  have hmem : node ∈ (ofRecords snakeCaseTables records).nodes ↔
      ∃ a ∈ drawnArcs snakeCaseTables records, a.source = node ∨ a.target = node := by
    rw [ofRecords_eq, ofArcs]
    simp only [List.mem_eraseDups, List.mem_flatMap, List.mem_cons, List.not_mem_nil, or_false,
      eq_comm (a := node)]
  rw [hmem]
  constructor
  · rintro ⟨⟨source, target, j⟩, ha, hnode⟩
    obtain ⟨record, hrecord, j, hj, hname, hne, -, hsource, htarget⟩ := mem_drawnArcs.mp ha
    subst hsource htarget
    exact ⟨record, hrecord, j, hj, hname, hne, hnode⟩
  · rintro ⟨record, hrecord, j, hj, hname, hne, hnode⟩
    refine ⟨⟨_, _, j⟩, mem_drawnArcs.mpr ?_, hnode⟩
    exact ⟨record, hrecord, j, hj, hname, hne, rfl, rfl, rfl⟩

/-- **One table, one node.** The nodes of the graph are those of the queries with joins and of the
tables that these are with. A name that is the table of a query and is joined somewhere has one and
the same node in both places just if names are written as they are, a subject claims the name, or
it is in snake case already. For a query that is not nested a subject always claims it. -/
theorem one_node_iff (snakeCaseTables : Bool) (records : List (Query × Clauses)) :
    let subjects := subjectNodes snakeCaseTables records
    let source (record : Query × Clauses) := sourceNode snakeCaseTables subjects record.1
    let target (j : Join) := targetNode subjects j
    (∀ node, node ∈ (ofRecords snakeCaseTables records).nodes ↔
      ∃ record ∈ records, ∃ j ∈ record.2.joins, j.remoteTable ≠ "" ∧ source record ≠ target j ∧
        (source record = node ∨ target j = node)) ∧
    ∀ record ∈ records, ∀ other ∈ records, ∀ j ∈ other.2.joins,
      j.remoteTable ≠ "" → j.remoteTable = record.1.table →
        (source record = target j ↔ snakeCaseTables = false ∨
          claimant? records record.1.table ≠ none ∨ snakeCase record.1.table = record.1.table) ∧
        (record.1.isNested = false → source record = target j) := by
  intro subjects source target
  refine ⟨fun node => mem_nodes_ofRecords, fun record hrecord other _ j _ hname htable => ?_⟩
  have hsource : source record =
      nodeName snakeCaseTables ((claimant? records record.1.table).getD record.1.table) := by
    rw [← lookup_subjects]
    exact sourceNode_eq snakeCaseTables records record.1
  have htarget : target j = ((claimant? records record.1.table).map
      (nodeName snakeCaseTables)).getD record.1.table := by
    rw [← lookup_subjects, ← htable]
    exact targetNode_eq snakeCaseTables records j
  have hiff : source record = target j ↔ snakeCaseTables = false ∨
      claimant? records record.1.table ≠ none ∨ snakeCase record.1.table = record.1.table := by
    rw [hsource, htarget]
    -- a claimant is written alike in both places; without one only the query's table is rendered
    cases claimant? records record.1.table with
    | some subject => simp
    | none => cases snakeCaseTables <;> simp [nodeName]
  refine ⟨hiff, fun htop => hiff.mpr (.inr (.inl (claimant?_ne_none hrecord htop ?_)))⟩
  rwa [← htable]

/-! ### A table in a nested query -/

/-- Users are joined with a table, and searched by what that table has been joined with. -/
def buyerJoins (table : String) (subjects : List String) : List (Query × Clauses) :=
  let buyers : Query :=
    { table := "User", fields := ["id"]
      sql := "SELECT * FROM users u JOIN " ++ table ++ " o ON o.user_id = u.id WHERE u.id IN " ++
        "(SELECT i.user_id FROM " ++ table ++ " i JOIN products p ON p.id = i.product_id)" }
  let searches : List Query :=
    subjects.map fun s => { table := s, fields := ["id"], sql := "id = $1" }
  (buyers :: searches).flatMap (Query.records [] true)

/-- The subject `OrderItem` claims the name, and the table has one node. -/
theorem claimed_table_one_node :
    let records := buyerJoins "ORDER_ITEMS" ["OrderItem"]
    let subjects := subjectNodes true records
    (∃ record ∈ records, record.1.table = "ORDER_ITEMS" ∧
      ∃ other ∈ records, ∃ j ∈ other.2.joins, j.remoteTable = "ORDER_ITEMS" ∧
        sourceNode true subjects record.1 = targetNode subjects j) ∧
    (ofRecords true records).nodes = ["user", "order_item", "products"] := by
  intro records subjects
  -- the occurrences and the claimant are computed, and the theorem compares their nodes
  obtain ⟨⟨record, hrecord, htable, other, hother, j, hj, hremote⟩, hclaimed, hnodes⟩ :
      (∃ record ∈ records, record.1.table = "ORDER_ITEMS" ∧
        ∃ other ∈ records, ∃ j ∈ other.2.joins, j.remoteTable = "ORDER_ITEMS") ∧
      claimant? records "ORDER_ITEMS" ≠ none ∧
      (ofRecords true records).nodes = ["user", "order_item", "products"] := by
    decide +kernel
  obtain ⟨-, hone⟩ := one_node_iff true records
  obtain ⟨hiff, -⟩ := hone record hrecord other hother j hj (by simp [hremote])
    (hremote.trans htable.symm)
  refine ⟨⟨record, hrecord, htable, other, hother, j, hj, hremote, hiff.mpr ?_⟩, hnodes⟩
  rw [htable]
  exact .inr (.inl hclaimed)

/-- **A table split in two.** No subject claims the name of a query's table that is also joined. The
name is in snake case in the one place only, and the table has two nodes. -/
theorem unclaimed_table_split :
    let records := buyerJoins "OrderItems" []
    let subjects := subjectNodes true records
    (∃ record ∈ records, record.1.table = "OrderItems" ∧ record.2.joins ≠ [] ∧
      ∃ other ∈ records, ∃ j ∈ other.2.joins, j.remoteTable = "OrderItems" ∧
        sourceNode true subjects record.1 = "order_items" ∧
        targetNode subjects j = "OrderItems") ∧
    (ofRecords true records).nodes = ["user", "OrderItems", "order_items", "products"] := by
  decide +kernel

end IndexAdvice.JoinGraph
