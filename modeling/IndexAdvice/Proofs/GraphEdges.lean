import Mathlib.Data.List.Nodup
import Mathlib.Data.String.Basic
import IndexAdvice.JoinGraph
import IndexAdvice.Parse
import IndexAdvice.Proofs.KeyOrder

/-!
# The edges of the join graph

A graph of joins is built by adding one join after the other. `addEdge_ofArcs` is the step: what has
been built is `ofArcs` of the joins so far, a closed form without any folding. It has an edge for
each two tables that a join leads from and to, and everything on the edge is read off the joins
between them.

An analyzer that reads its queries once more adds the same joins again. The closed form of a list of
joins `k` times over differs from that of the list in the counts only (`ofArcs_flatten_replicate`),
so `rebuilt_graph_faithful` describes the graph after any number of analyses.
-/

namespace IndexAdvice

open Text (lower)

/-! ### Lists several times over -/

section Repeats

variable {α : Type} [BEq α] [LawfulBEq α] {xs ys : List α} {x : α} {k : ℕ}

theorem eraseDups_append_of_subset (h : ys ⊆ xs) : (xs ++ ys).eraseDups = xs.eraseDups := by
  have hnone : ys.removeAll xs = [] := by
    refine List.filter_eq_nil_iff.mpr fun y hy => ?_
    simpa using h hy
  rw [List.eraseDups_append, hnone, List.eraseDups_nil, List.append_nil]

/-- What is listed several times shows as often as if it were listed once. -/
theorem eraseDups_flatten_replicate (hk : 1 ≤ k) (xs : List α) :
    (List.replicate k xs).flatten.eraseDups = xs.eraseDups := by
  obtain ⟨n, rfl⟩ := Nat.exists_eq_add_of_le' hk
  rw [List.replicate_succ, List.flatten_cons]
  refine eraseDups_append_of_subset fun x hx => ?_
  obtain ⟨ys, hys, hx⟩ := List.mem_flatten.mp hx
  rwa [List.eq_of_mem_replicate hys] at hx

/-- Adding what is new keeps a list that of the first arrivals. -/
theorem addNew_eraseDups (xs : List α) (x : α) : addNew xs.eraseDups x = (xs ++ [x]).eraseDups := by
  have hknown : xs.eraseDups.contains x = xs.contains x := by
    rw [Bool.eq_iff_iff, List.contains_iff_mem, List.contains_iff_mem, List.mem_eraseDups]
  rw [addNew, eraseDups_concat, hknown]

end Repeats

/-- Items that are listed place by place, each at its own, are all listed once. -/
theorem flatMap_filter_perm {α : Type} {places : List String} {items : List α}
    {place : α → String} (hplaces : places.Nodup) (hitems : items.Nodup)
    (h : ∀ x ∈ items, place x ∈ places) :
    (places.flatMap fun p => items.filter (place · == p)).Perm items := by
  have hlisted : (places.flatMap fun p => items.filter (place · == p)).Nodup := by
    refine List.nodup_flatMap.mpr ⟨fun p _ => hitems.filter _, ?_⟩
    refine hplaces.imp fun {p q} hne x hp hq => hne ?_
    exact (eq_of_beq (List.mem_filter.mp hp).2).symm.trans (eq_of_beq (List.mem_filter.mp hq).2)
  refine (List.perm_ext_iff_of_nodup hlisted hitems).mpr fun x => ?_
  rw [List.mem_flatMap]
  constructor
  · rintro ⟨p, -, hx⟩
    exact (List.mem_filter.mp hx).1
  · intro hx
    exact ⟨place x, h x hx, List.mem_filter.mpr ⟨hx, beq_self_eq_true _⟩⟩

/-- Texts that are all different are in strict order when they are sorted. -/
theorem pairwise_lt_sortTexts {texts : List String} (h : texts.Nodup) :
    (sortTexts texts).Pairwise (· < ·) := by
  have hsorted : (sortTexts texts).Pairwise fun a b => decide (a ≤ b) = true :=
    pairwise_sortBy (fun a b => by simpa using le_total a b)
      (fun a b c hab hbc => by simpa using le_trans (by simpa using hab) (by simpa using hbc)) texts
  have hnodup : (sortTexts texts).Nodup := (perm_sortBy _ texts).nodup_iff.mpr h
  exact hsorted.imp₂ (fun a b hle hne => lt_of_le_of_ne (by simpa using hle) hne) hnodup

theorem JoinKind.keyword_injective : Function.Injective JoinKind.keyword := by
  intro a b h
  cases a <;> cases b <;> first | rfl | exact absurd h (by decide)

namespace JoinGraph

/-! ### The closed form -/

/-- A join with the nodes of the table that it is in and of the table that it is with. -/
structure Arc where
  source : String
  target : String
  join : Join

/-- The nodes that a join leads from and to. -/
def Arc.ends (a : Arc) : String × String :=
  (a.source, a.target)

/-- The two nodes of an edge. -/
def ends (e : JoinEdge) : String × String :=
  (e.source, e.target)

/-- The joins from one node to another. -/
def joinsFrom (arcs : List Arc) (p : String × String) : List Join :=
  (arcs.filter (·.ends == p)).map (·.join)

/-- The edge for the joins from one node to another. -/
def edgeOf (arcs : List Arc) (p : String × String) : JoinEdge where
  source := p.1
  target := p.2
  columns := ((joinsFrom arcs p).filterMap Join.equation?).eraseDups
  kinds := ((joinsFrom arcs p).map (·.kind)).eraseDups
  count := (joinsFrom arcs p).length

/-- The graph of some joins. -/
def ofArcs (arcs : List Arc) : JoinGraph where
  nodes := (arcs.flatMap fun a => [a.source, a.target]).eraseDups
  edges := (arcs.map Arc.ends).eraseDups.map (edgeOf arcs)

section ClosedForm

variable {arcs past : List Arc} {a : Arc} {p : String × String}

/-- A further arc adds its join to those between its ends. -/
theorem joinsFrom_concat (arcs : List Arc) (a : Arc) (p : String × String) :
    joinsFrom (arcs ++ [a]) p =
      if a.ends == p then joinsFrom arcs p ++ [a.join] else joinsFrom arcs p := by
  rw [joinsFrom, List.filter_append, List.map_append, List.filter_singleton]
  cases a.ends == p with
  | true => rfl
  | false => exact List.append_nil _

/-- A further arc is counted on the edge between its ends, and on no other. -/
theorem edgeOf_concat (arcs : List Arc) (a : Arc) (p : String × String) :
    edgeOf (arcs ++ [a]) p = if a.ends == p then (edgeOf arcs p).add a.join else edgeOf arcs p := by
  rw [edgeOf, joinsFrom_concat]
  split
  · have hcolumns : ((joinsFrom arcs p ++ [a.join]).filterMap Join.equation?).eraseDups =
        ((edgeOf arcs p).add a.join).columns := by
      rw [List.filterMap_append, JoinEdge.add]
      cases h : a.join.equation? with
      | none => simp [h, edgeOf]
      | some equation => simp [h, edgeOf, addNew_eraseDups]
    have hkinds : ((joinsFrom arcs p ++ [a.join]).map (·.kind)).eraseDups =
        ((edgeOf arcs p).add a.join).kinds := by
      rw [List.map_append, List.map_singleton, ← addNew_eraseDups]
      rfl
    rw [hcolumns, hkinds, List.length_append]
    rfl
  · rfl

theorem edgeOf_eq_of_notMem (h : p ∉ arcs.map Arc.ends) :
    edgeOf arcs p = { source := p.1, target := p.2 } := by
  have hnone : joinsFrom arcs p = [] := by
    rw [joinsFrom, List.map_eq_nil_iff, List.filter_eq_nil_iff]
    exact fun a ha heq => h (List.mem_map.mpr ⟨a, ha, eq_of_beq heq⟩)
  rw [edgeOf, hnone]
  rfl

theorem between_iff {e : JoinEdge} :
    (e.source == a.source && e.target == a.target) = (a.ends == ends e) := by
  rw [Bool.eq_iff_iff, Bool.and_eq_true, beq_iff_eq, beq_iff_eq, beq_iff_eq, Arc.ends, ends,
    Prod.mk.injEq, eq_comm, @eq_comm _ e.target]

/-- **One more join.** The graph of some joins becomes the graph of these and the next. -/
theorem addEdge_ofArcs (arcs : List Arc) (a : Arc) :
    (ofArcs arcs).addEdge a.source a.target a.join = ofArcs (arcs ++ [a]) := by
  have hknown : (ofArcs arcs).edges.any (fun e => e.source == a.source && e.target == a.target) =
      (arcs.map Arc.ends).contains a.ends := by
    rw [ofArcs, List.any_map, Bool.eq_iff_iff, List.any_eq_true, List.contains_iff_mem]
    simp only [Function.comp_apply, between_iff, beq_iff_eq, List.mem_eraseDups]
    exact ⟨fun ⟨p, hp, heq⟩ => heq ▸ hp, fun hmem => ⟨a.ends, hmem, rfl⟩⟩
  have hnodes : (ofArcs (arcs ++ [a])).nodes =
      ((arcs.flatMap fun a => [a.source, a.target]) ++ [a.source, a.target]).eraseDups := by
    rw [ofArcs, List.flatMap_append, List.flatMap_singleton]
  rw [addEdge, hknown]
  split_ifs with hmem
  · -- both tables are nodes already, and no edge but the one between them changes
    have hsubset : [a.source, a.target] ⊆ arcs.flatMap fun a => [a.source, a.target] := by
      obtain ⟨b, hb, heq⟩ := List.mem_map.mp (List.contains_iff_mem.mp hmem)
      obtain ⟨hsource, htarget⟩ := Prod.mk.inj heq
      rw [← hsource, ← htarget]
      exact fun node hnode => List.mem_flatMap.mpr ⟨b, hb, hnode⟩
    have hedges : (ofArcs arcs).edges.map (fun e =>
        if e.source == a.source && e.target == a.target then e.add a.join else e) =
          (ofArcs (arcs ++ [a])).edges := by
      rw [ofArcs, ofArcs, List.map_append, List.map_singleton, eraseDups_concat, if_pos hmem,
        List.map_map]
      refine List.map_congr_left fun p _ => ?_
      rw [Function.comp_apply, between_iff, edgeOf_concat]
      rfl
    rw [eraseDups_append_of_subset hsubset] at hnodes
    exact congrArg₂ JoinGraph.mk hnodes.symm hedges
  · -- none of the joins so far is between the two tables, so the new edge has this one only
    have hnotMem : a.ends ∉ arcs.map Arc.ends := fun h => hmem (List.contains_iff_mem.mpr h)
    have hlast : edgeOf (arcs ++ [a]) a.ends =
        JoinEdge.add { source := a.source, target := a.target } a.join := by
      rw [edgeOf_concat, if_pos (beq_self_eq_true _), edgeOf_eq_of_notMem hnotMem]
      rfl
    have hedges : (ofArcs arcs).edges ++
        [JoinEdge.add { source := a.source, target := a.target } a.join] =
          (ofArcs (arcs ++ [a])).edges := by
      rw [ofArcs, ofArcs, List.map_append, List.map_singleton, eraseDups_concat, if_neg hmem,
        List.map_append, List.map_singleton, hlast]
      refine congrArg (· ++ _) (List.map_congr_left fun p hp => ?_)
      have hne : ¬ (a.ends == p) = true := fun heq =>
        hnotMem (eq_of_beq heq ▸ List.mem_eraseDups.mp hp)
      rw [edgeOf_concat, if_neg hne]
    refine congrArg₂ JoinGraph.mk (Eq.trans ?_ hnodes.symm) hedges
    rw [ofArcs, addNew_eraseDups, addNew_eraseDups, List.append_assoc]
    rfl

/-- **All joins.** Adding joins to the graph of earlier ones gives the graph of all of them. -/
theorem foldl_addEdge_ofArcs (past arcs : List Arc) :
    arcs.foldl (fun g a => g.addEdge a.source a.target a.join) (ofArcs past) =
      ofArcs (past ++ arcs) := by
  induction arcs generalizing past with
  | nil => rw [List.foldl_nil, List.append_nil]
  | cons a arcs ih =>
    rw [List.foldl_cons, addEdge_ofArcs, ih, List.append_assoc, List.singleton_append]

end ClosedForm

/-! ### The joins of queries -/

/-- The node of the table that a join is with. -/
def targetNode (subjects : List (String × String)) (j : Join) : String :=
  (subjects.lookup (lower j.remoteTable)).getD j.remoteTable

/-- A name as it is written in the graph. -/
def nodeName (snakeCaseTables : Bool) (name : String) : String :=
  if snakeCaseTables then snakeCase name else name

/-- Nodes are looked up by the variants of their subjects. -/
theorem lookup_subjectNodes (snakeCaseTables : Bool) (records : List (Query × Clauses))
    (variant : String) :
    (subjectNodes snakeCaseTables records).lookup variant =
      ((Advice.subjects records).lookup variant).map (nodeName snakeCaseTables) := by
  rw [subjectNodes]
  induction Advice.subjects records with
  | nil => rfl
  | cons entry table ih =>
    obtain ⟨v, name⟩ := entry
    rw [List.map_cons, List.lookup_cons, List.lookup_cons, ih]
    cases variant == v <;> rfl

/-- A query is in the graph under the name of the subject that its table is folded onto. -/
theorem sourceNode_eq (snakeCaseTables : Bool) (records : List (Query × Clauses)) (query : Query) :
    sourceNode snakeCaseTables (subjectNodes snakeCaseTables records) query =
      nodeName snakeCaseTables
        (((Advice.subjects records).lookup (lower query.table)).getD query.table) := by
  rw [sourceNode, lookup_subjectNodes]
  exact Option.getD_map (nodeName snakeCaseTables) query.table _

/-- A join is with the node of the subject that its table is folded onto, or else with a node that
is called what the table is called in the query. -/
theorem targetNode_eq (snakeCaseTables : Bool) (records : List (Query × Clauses)) (j : Join) :
    targetNode (subjectNodes snakeCaseTables records) j =
      (((Advice.subjects records).lookup (lower j.remoteTable)).map
        (nodeName snakeCaseTables)).getD j.remoteTable := by
  rw [targetNode, lookup_subjectNodes]

/-- Whether a join is drawn: its table has a name, and it is with another table. -/
def Arc.isDrawn (a : Arc) : Bool :=
  !(a.join.remoteTable.isEmpty || a.target == a.source)

section Records

variable (snakeCaseTables : Bool) (records : List (Query × Clauses))

/-- The joins of a query. -/
def recordArcs (subjects : List (String × String)) (record : Query × Clauses) : List Arc :=
  record.2.joins.map fun j =>
    ⟨sourceNode snakeCaseTables subjects record.1, targetNode subjects j, j⟩

/-- The joins of queries that are drawn, in order. -/
def drawnArcs : List Arc :=
  (records.flatMap (recordArcs snakeCaseTables (subjectNodes snakeCaseTables records))).filter
    Arc.isDrawn

/-- The joins of queries on one table with another, in order. -/
def joinsBetween (source target : String) : List Join :=
  let subjects := subjectNodes snakeCaseTables records
  records.flatMap fun record => record.2.joins.filter fun j =>
    sourceNode snakeCaseTables subjects record.1 == source && !j.remoteTable.isEmpty &&
      targetNode subjects j == target

/-- The graph after an analyzer has read its queries `k` times. -/
def analyzed (k : ℕ) : JoinGraph :=
  (addRecords snakeCaseTables records)^[k] {}

variable {snakeCaseTables records}

/-- The joins of a record are added as the arcs that can be drawn. -/
theorem foldl_addJoin (subjects : List (String × String)) (record : Query × Clauses)
    (g : JoinGraph) :
    record.2.joins.foldl (addJoin subjects (sourceNode snakeCaseTables subjects record.1)) g =
      ((recordArcs snakeCaseTables subjects record).filter Arc.isDrawn).foldl
        (fun g a => g.addEdge a.source a.target a.join) g := by
  rw [recordArcs, List.foldl_filter, List.foldl_map]
  refine congrArg (fun step => List.foldl step g record.2.joins) (funext₂ fun g j => ?_)
  rw [addJoin, Arc.isDrawn, targetNode]
  cases j.remoteTable.isEmpty || _ == sourceNode snakeCaseTables subjects record.1 <;> rfl

/-- Reading queries adds the joins that are drawn. -/
theorem addRecords_eq (g : JoinGraph) :
    addRecords snakeCaseTables records g =
      (drawnArcs snakeCaseTables records).foldl
        (fun g a => g.addEdge a.source a.target a.join) g := by
  simp only [addRecords, foldl_addJoin, drawnArcs, List.filter_flatMap, List.foldl_flatMap]

/-- The graph after `k` readings is that of the joins `k` times over. -/
theorem analyzed_eq (k : ℕ) :
    analyzed snakeCaseTables records k =
      ofArcs (List.replicate k (drawnArcs snakeCaseTables records)).flatten := by
  induction k with
  | zero => rfl
  | succ k ih =>
    rw [analyzed, Function.iterate_succ_apply', ← analyzed, ih, addRecords_eq,
      foldl_addEdge_ofArcs, List.replicate_succ', List.flatten_append, List.flatten_singleton]

theorem analyzed_one : analyzed snakeCaseTables records 1 = ofRecords snakeCaseTables records :=
  rfl

/-- **The graph of records** is that of the arcs drawn from them. -/
theorem ofRecords_eq :
    ofRecords snakeCaseTables records = ofArcs (drawnArcs snakeCaseTables records) := by
  rw [← analyzed_one, analyzed_eq, List.replicate_one, List.flatten_singleton]

/-- An arc is drawn for every join that names a table, if the table is not the joining one itself.
-/
theorem mem_drawnArcs {a : Arc} :
    a ∈ drawnArcs snakeCaseTables records ↔ ∃ record ∈ records, ∃ j ∈ record.2.joins,
      j.remoteTable ≠ "" ∧ a.source ≠ a.target ∧ a.join = j ∧
      sourceNode snakeCaseTables (subjectNodes snakeCaseTables records) record.1 = a.source ∧
      targetNode (subjectNodes snakeCaseTables records) j = a.target := by
  obtain ⟨source, target, join⟩ := a
  rw [drawnArcs, List.mem_filter, List.mem_flatMap]
  simp only [recordArcs, List.mem_map, Arc.isDrawn, Arc.mk.injEq, Bool.not_eq_true',
    Bool.or_eq_false_iff, String.isEmpty_eq_false_iff, beq_eq_false_iff_ne]
  constructor
  · rintro ⟨⟨record, hrecord, j, hj, hsource, htarget, rfl⟩, hname, hne⟩
    exact ⟨record, hrecord, j, hj, hname, hne.symm, rfl, hsource, htarget⟩
  · rintro ⟨record, hrecord, j, hj, hname, hne, rfl, hsource, htarget⟩
    exact ⟨⟨record, hrecord, _, hj, hsource, htarget, rfl⟩, hname, hne.symm⟩

/-- The joins on an edge are those the queries have between its ends. -/
theorem joinsFrom_drawnArcs {source target : String} (hne : source ≠ target) :
    joinsFrom (drawnArcs snakeCaseTables records) (source, target) =
      joinsBetween snakeCaseTables records source target := by
  rw [joinsFrom, drawnArcs, joinsBetween, List.filter_flatMap, List.filter_flatMap,
    List.map_flatMap]
  refine List.flatMap_congr fun record _ => ?_
  rw [recordArcs, List.filter_filter, List.filter_map, List.map_map]
  refine (List.map_id _).trans (List.filter_congr fun j _ => ?_)
  rw [Bool.eq_iff_iff]
  simp only [Function.comp_apply, Arc.isDrawn, Arc.ends, Bool.and_eq_true, beq_iff_eq,
    Prod.mk.injEq, Bool.not_eq_true', Bool.or_eq_false_iff, beq_eq_false_iff_ne]
  constructor
  · rintro ⟨⟨hsource, htarget⟩, hname, -⟩
    exact ⟨⟨hsource, hname⟩, htarget⟩
  · rintro ⟨⟨hsource, hname⟩, htarget⟩
    exact ⟨⟨hsource, htarget⟩, hname, by rw [hsource, htarget]; exact hne.symm⟩

end Records

/-! ### Counts -/

/-- An edge that counts every join `k` times. -/
def recount (k : ℕ) (e : JoinEdge) : JoinEdge :=
  { e with count := k * e.count }

/-- The graph with every join counted `k` times. -/
def recounted (g : JoinGraph) (k : ℕ) : JoinGraph :=
  { g with edges := g.edges.map (recount k) }

section Counts

variable {k : ℕ} {arcs : List Arc} {g : JoinGraph} {node : String}

/-- Analysing the same records again repeats their joins. -/
theorem joinsFrom_flatten_replicate (k : ℕ) (arcs : List Arc) (p : String × String) :
    joinsFrom (List.replicate k arcs).flatten p =
      (List.replicate k (joinsFrom arcs p)).flatten := by
  rw [joinsFrom, List.filter_flatten, List.map_flatten, List.map_replicate, List.map_replicate]
  rfl

/-- Analysing the same records again multiplies the counts and adds no types or columns. -/
theorem edgeOf_flatten_replicate (hk : 1 ≤ k) (arcs : List Arc) (p : String × String) :
    edgeOf (List.replicate k arcs).flatten p = recount k (edgeOf arcs p) := by
  rw [edgeOf, joinsFrom_flatten_replicate, List.filterMap_flatten, List.map_flatten,
    List.map_replicate, List.map_replicate, eraseDups_flatten_replicate hk,
    eraseDups_flatten_replicate hk, List.length_flatten, List.map_replicate, List.sum_replicate_nat]
  rfl

/-- **The same joins again** count and do nothing else. -/
theorem ofArcs_flatten_replicate (hk : 1 ≤ k) (arcs : List Arc) :
    ofArcs (List.replicate k arcs).flatten = (ofArcs arcs).recounted k := by
  refine congrArg₂ JoinGraph.mk ?_ ?_
  · rw [← List.flatMap_id, List.flatMap_assoc, List.flatMap_def, List.map_replicate]
    exact eraseDups_flatten_replicate hk _
  · rw [List.map_flatten, List.map_replicate, eraseDups_flatten_replicate hk, ofArcs, List.map_map]
    exact List.map_congr_left fun p _ => edgeOf_flatten_replicate hk arcs p

theorem inDegree_recounted : (g.recounted k).inDegree node = g.inDegree node :=
  List.countP_map

theorem outDegree_recounted : (g.recounted k).outDegree node = g.outDegree node :=
  List.countP_map

theorem edgesBySource_recounted :
    (g.recounted k).edgesBySource = g.edgesBySource.map (recount k) := by
  rw [edgesBySource, edgesBySource, List.map_flatMap]
  exact List.flatMap_congr fun node _ => List.filter_map ..

/-- Clusters do not depend on the counts. -/
theorem clusters_recounted : (g.recounted k).clusters = g.clusters := by
  rw [clusters, clusters, recounted, List.foldl_map]
  rfl

/-- Nor do hotspots. -/
theorem hotspots_recounted : (g.recounted k).hotspots = g.hotspots := by
  simp only [hotspots, inDegree_recounted, outDegree_recounted]
  rfl

end Counts

/-! ### What holds of every graph -/

/-- The shape of a graph of joins: no two edges have the same ends, no edge leads back to where it
starts, and the nodes are the ends of edges, each once. -/
structure IsSimple (g : JoinGraph) : Prop where
  nodup_nodes : g.nodes.Nodup
  nodup_ends : (g.edges.map ends).Nodup
  source_ne_target : ∀ e ∈ g.edges, e.source ≠ e.target
  mem_nodes : ∀ node, node ∈ g.nodes ↔ ∃ e ∈ g.edges, e.source = node ∨ e.target = node

section Shape

variable {arcs : List Arc} {g : JoinGraph} {e : JoinEdge}

/-- The edges of a graph are the pairs of its arcs, each one once. -/
theorem map_ends_ofArcs (arcs : List Arc) :
    (ofArcs arcs).edges.map ends = (arcs.map Arc.ends).eraseDups := by
  rw [ofArcs, List.map_map]
  exact List.map_id _

/-- Every edge is that of an arc. -/
theorem mem_edges_ofArcs : e ∈ (ofArcs arcs).edges ↔ ∃ a ∈ arcs, edgeOf arcs a.ends = e := by
  simp only [ofArcs, List.mem_map, List.mem_eraseDups, exists_exists_and_eq_and]

/-- A graph of arcs has no node twice, no edge twice and no loop. -/
theorem isSimple_ofArcs (harcs : ∀ a ∈ arcs, a.source ≠ a.target) : (ofArcs arcs).IsSimple where
  nodup_nodes := nodup_eraseDups _
  nodup_ends := by
    rw [map_ends_ofArcs]
    exact nodup_eraseDups _
  source_ne_target e he := by
    obtain ⟨a, ha, rfl⟩ := mem_edges_ofArcs.mp he
    exact harcs a ha
  mem_nodes node := by
    simp only [ofArcs, List.mem_eraseDups, List.mem_flatMap, List.mem_map,
      exists_exists_and_eq_and, List.mem_cons, List.not_mem_nil, or_false, eq_comm (a := node)]
    rfl

theorem isSimple_analyzed (snakeCaseTables : Bool) (records : List (Query × Clauses)) (k : ℕ) :
    (analyzed snakeCaseTables records k).IsSimple := by
  rw [analyzed_eq]
  refine isSimple_ofArcs fun a ha => ?_
  obtain ⟨arcs, harcs, ha⟩ := List.mem_flatten.mp ha
  rw [List.eq_of_mem_replicate harcs] at ha
  obtain ⟨-, -, -, -, -, hne, -⟩ := mem_drawnArcs.mp ha
  exact hne

theorem IsSimple.source_mem (h : g.IsSimple) (he : e ∈ g.edges) : e.source ∈ g.nodes :=
  (h.mem_nodes _).mpr ⟨e, he, .inl rfl⟩

theorem IsSimple.target_mem (h : g.IsSimple) (he : e ∈ g.edges) : e.target ∈ g.nodes :=
  (h.mem_nodes _).mpr ⟨e, he, .inr rfl⟩

/-- Listing the edges by their sources leaves none out. -/
theorem IsSimple.edgesBySource_perm (h : g.IsSimple) : g.edgesBySource.Perm g.edges :=
  flatMap_filter_perm h.nodup_nodes (h.nodup_ends.of_map ends) fun _ he => h.source_mem he

end Shape

/-! ### The graph of queries -/

/-- What an edge says of the joins between its tables when they have been read `k` times. -/
structure SumsUp (k : ℕ) (joins : List Join) (e : JoinEdge) : Prop where
  count_eq : e.count = k * joins.length
  columns_eq : e.columns = (joins.filterMap Join.equation?).eraseDups
  keywords_sorted : e.keywords.Pairwise (· < ·)
  mem_keywords : ∀ word, word ∈ e.keywords ↔ ∃ j ∈ joins, j.kind.keyword = word

/-- An edge sums up the joins it stands for. -/
theorem sumsUp_edgeOf (k : ℕ) (arcs : List Arc) (p : String × String) :
    SumsUp k (joinsFrom arcs p) (recount k (edgeOf arcs p)) where
  count_eq := rfl
  columns_eq := rfl
  keywords_sorted :=
    pairwise_lt_sortTexts ((nodup_eraseDups _).map JoinKind.keyword_injective)
  mem_keywords word := by
    simp only [JoinEdge.keywords, recount, edgeOf, mem_sortTexts, List.mem_map,
      List.mem_eraseDups, exists_exists_and_eq_and]

section Analyses

variable {snakeCaseTables : Bool} {records : List (Query × Clauses)} {k : ℕ}
  {source target : String} {e : JoinEdge}

/-- Analyses after the first one count and do nothing else. -/
theorem analyzed_eq_recounted (hk : 1 ≤ k) :
    analyzed snakeCaseTables records k = (ofRecords snakeCaseTables records).recounted k := by
  rw [analyzed_eq, ofArcs_flatten_replicate hk, ofRecords_eq]

theorem map_ends_recounted (g : JoinGraph) (k : ℕ) :
    (g.recounted k).edges.map ends = g.edges.map ends := by
  rw [recounted, List.map_map]
  rfl

/-- An edge leads from one table to another just if a query on the first joins the second. -/
theorem mem_ends_analyzed (hk : 1 ≤ k) :
    (source, target) ∈ (analyzed snakeCaseTables records k).edges.map ends ↔ source ≠ target ∧
      ∃ record ∈ records,
        sourceNode snakeCaseTables (subjectNodes snakeCaseTables records) record.1 = source ∧
          ∃ j ∈ record.2.joins, j.remoteTable ≠ "" ∧
            targetNode (subjectNodes snakeCaseTables records) j = target := by
  rw [analyzed_eq_recounted hk, map_ends_recounted, ofRecords_eq, map_ends_ofArcs,
    List.mem_eraseDups, List.mem_map]
  constructor
  · rintro ⟨a, ha, heq⟩
    obtain ⟨rfl, rfl⟩ := Prod.mk.inj heq
    obtain ⟨record, hrecord, j, hj, hname, hne, -, hsource, htarget⟩ := mem_drawnArcs.mp ha
    exact ⟨hne, record, hrecord, hsource, j, hj, hname, htarget⟩
  · rintro ⟨hne, record, hrecord, hsource, j, hj, hname, htarget⟩
    refine ⟨⟨source, target, j⟩, mem_drawnArcs.mpr ?_, rfl⟩
    exact ⟨record, hrecord, j, hj, hname, hne, rfl, hsource, htarget⟩

theorem sumsUp_of_mem_edges (hk : 1 ≤ k) (he : e ∈ (analyzed snakeCaseTables records k).edges) :
    SumsUp k (joinsBetween snakeCaseTables records e.source e.target) e := by
  have hne := (isSimple_analyzed snakeCaseTables records k).source_ne_target e he
  rw [analyzed_eq_recounted hk, ofRecords_eq] at he
  obtain ⟨e, hfirst, rfl⟩ := List.mem_map.mp he
  obtain ⟨a, -, rfl⟩ := mem_edges_ofArcs.mp hfirst
  rw [← joinsFrom_drawnArcs hne]
  exact sumsUp_edgeOf k _ a.ends

end Analyses

/-- **The graph adds up the joins.** After `k` analyses by one analyzer there is one edge for each
two tables of which a query on the first joins the second, whatever both are called in the queries.
It counts the joins between them `k` times and has their kinds, in order, and their equations, in
the order in which they come first. The graph is otherwise the one of a single analysis. A query's
node is the name that advice on the query is filed under. -/
theorem rebuilt_graph_faithful (snakeCaseTables : Bool) (records : List (Query × Clauses)) (k : ℕ)
    (hk : 1 ≤ k) :
    let subjects := subjectNodes snakeCaseTables records
    let first := ofRecords snakeCaseTables records
    let g := analyzed snakeCaseTables records k
    (g.edgesBySource.map ends).Nodup ∧
    (∀ source target, (source, target) ∈ g.edgesBySource.map ends ↔ source ≠ target ∧
      ∃ record ∈ records, sourceNode snakeCaseTables subjects record.1 = source ∧
        ∃ j ∈ record.2.joins, j.remoteTable ≠ "" ∧ targetNode subjects j = target) ∧
    (∀ e ∈ g.edgesBySource, SumsUp k (joinsBetween snakeCaseTables records e.source e.target) e) ∧
    (g.edgesBySource = first.edgesBySource.map (fun e => { e with count := k * e.count }) ∧
      g.nodes = first.nodes ∧
      (∀ node, g.inDegree node = first.inDegree node ∧ g.outDegree node = first.outDegree node) ∧
      g.clusters = first.clusters ∧ g.hotspots = first.hotspots) ∧
    ∀ target : Target, target.snakeCaseTables = snakeCaseTables → ∀ record ∈ records,
      sourceNode snakeCaseTables subjects record.1 =
        Advice.filedUnder target (Advice.subjects records) record.1 := by
  intro subjects first g
  have hg : g = first.recounted k := analyzed_eq_recounted hk
  have hsimple : g.IsSimple := isSimple_analyzed snakeCaseTables records k
  -- the edges are listed by their sources, and what is said of them holds in whatever order
  have hperm : g.edgesBySource.Perm g.edges := hsimple.edgesBySource_perm
  refine ⟨(hperm.map ends).nodup_iff.mpr hsimple.nodup_ends, fun source target => ?_,
    fun e he => sumsUp_of_mem_edges hk (hperm.mem_iff.mp he), ?_, ?_⟩
  · exact (hperm.map ends).mem_iff.trans (mem_ends_analyzed hk)
  · rw [hg]
    exact ⟨edgesBySource_recounted, rfl, fun _ => ⟨inDegree_recounted, outDegree_recounted⟩,
      clusters_recounted, hotspots_recounted⟩
  · rintro target rfl record -
    exact sourceNode_eq target.snakeCaseTables records record.1

/-- Orders are joined with users in two ways. -/
def orderJoins : List (Query × Clauses) :=
  let order (join : String) : Query :=
    { table := "Order", fields := ["id", "user_id"],
      sql := "SELECT * FROM orders o " ++ join ++ " users u ON u.id = o.user_id" }
  let user : Query := { table := "User", fields := ["id"], sql := "id = $1" }
  [order "LEFT JOIN", user, order "JOIN"].flatMap (Query.records [] true)

/-- After three analyses there is still one edge, for the two joins three times over. -/
theorem orderJoins_counted_thrice :
    1 ≤ 3 ∧ (analyzed false orderJoins 3).edgesBySource.map
        (fun e => (e.source, e.target, e.columns, e.keywords, e.count)) =
      [("Order", "User", ["user_id = id"], ["INNER", "LEFT"], 6)] := by
  obtain ⟨-, -, -, ⟨hedges, -⟩, -⟩ := rebuilt_graph_faithful false orderJoins 3 (by decide)
  refine ⟨by decide, ?_⟩
  rw [hedges]
  decide +kernel

end JoinGraph

end IndexAdvice
