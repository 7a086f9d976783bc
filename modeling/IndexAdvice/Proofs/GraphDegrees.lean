import Mathlib.Algebra.GroupWithZero.Nat
import IndexAdvice.Proofs.GraphClusters

/-!
# Degrees and hotspots

Every edge is counted once among the edges out of its source and once among those into its target,
so both add up to the number of edges, and, since no edge leads back to its source, the two degrees
of a table are the edges that touch it. The hotspots are the first tables in a strict order of all:
`hotspots_spec` says that none is left out for one behind it.

`clusters_hotspots_describe_graph` puts together what the graph of queries and its summaries say.
-/

namespace IndexAdvice.JoinGraph

variable {g : JoinGraph} {node : String}

/-! ### Degrees -/

/-- The number of edges that start or end at a table. -/
def touching (g : JoinGraph) (node : String) : ℕ :=
  g.edges.countP fun e => e.source == node || e.target == node

theorem countP_or_of_disjoint {α : Type} {p q : α → Bool} {xs : List α}
    (h : ∀ x ∈ xs, p x = true → q x = false) :
    xs.countP (fun x => p x || q x) = xs.countP p + xs.countP q := by
  induction xs with
  | nil => rfl
  | cons x xs ih =>
    rw [List.countP_cons, List.countP_cons, List.countP_cons,
      ih fun y hy => h y (List.mem_cons_of_mem x hy)]
    cases hp : p x with
    | true =>
      rw [h x List.mem_cons_self hp]
      simp only [Bool.true_or, if_true, Bool.false_eq_true, if_false]
      omega
    | false =>
      simp only [Bool.false_or, Bool.false_eq_true, if_false]
      omega

/-- The edges at a table are those out of it and those into it. -/
theorem IsSimple.touching_eq (h : g.IsSimple) (node : String) :
    g.touching node = g.outDegree node + g.inDegree node := by
  refine countP_or_of_disjoint fun e he hsource => beq_false_of_ne fun htarget => ?_
  exact h.source_ne_target e he ((eq_of_beq hsource).trans htarget.symm)

/-- A node has an edge. -/
theorem IsSimple.touching_pos (h : g.IsSimple) (hnode : node ∈ g.nodes) : 0 < g.touching node := by
  obtain ⟨e, he, hends⟩ := (h.mem_nodes node).mp hnode
  refine List.countP_pos_iff.mpr ⟨e, he, ?_⟩
  simpa using hends

/-- Items are as many as there are at all places together. -/
theorem sum_countP_eq_length {α : Type} {places : List String} {items : List α}
    {place : α → String} (hplaces : places.Nodup) (hitems : items.Nodup)
    (h : ∀ x ∈ items, place x ∈ places) :
    (places.map fun p => items.countP (place · == p)).sum = items.length := by
  rw [← (flatMap_filter_perm hplaces hitems h).length_eq, List.length_flatMap]
  exact congrArg List.sum (List.map_congr_left fun p _ => List.countP_eq_length_filter)

/-- Every edge leaves one node. -/
theorem IsSimple.sum_outDegree (h : g.IsSimple) :
    (g.nodes.map g.outDegree).sum = g.edges.length :=
  sum_countP_eq_length h.nodup_nodes (h.nodup_ends.of_map ends) fun _ he => h.source_mem he

/-- Every edge reaches one node. -/
theorem IsSimple.sum_inDegree (h : g.IsSimple) :
    (g.nodes.map g.inDegree).sum = g.edges.length :=
  sum_countP_eq_length h.nodup_nodes (h.nodup_ends.of_map ends) fun _ he => h.target_mem he

/-! ### Hotspots -/

/-- Whether a table has more edges than another, or as many and a smaller name. -/
def Hotspot.Before (a b : Hotspot) : Prop :=
  b.degree < a.degree ∨ a.degree = b.degree ∧ a.table < b.table

/-- A node with the number of its edges. -/
def hotspotAt (g : JoinGraph) (node : String) : Hotspot :=
  ⟨node, g.inDegree node, g.outDegree node⟩

namespace Hotspot

variable {a b c : Hotspot}

/-- Hotspots are ordered by falling degree, then by name. -/
theorem le_iff : a.le b = true ↔ b.degree < a.degree ∨ a.degree = b.degree ∧ a.table ≤ b.table := by
  simp [le]

theorem le_total (a b : Hotspot) : a.le b = true ∨ b.le a = true := by
  rw [le_iff, le_iff]
  rcases lt_trichotomy a.degree b.degree with hlt | heq | hgt
  · exact .inr (.inl hlt)
  · exact (String.le_total a.table b.table).imp (fun h => .inr ⟨heq, h⟩) fun h => .inr ⟨heq.symm, h⟩
  · exact .inl (.inl hgt)

theorem le_trans (hab : a.le b = true) (hbc : b.le c = true) : a.le c = true := by
  rw [le_iff] at hab hbc ⊢
  rcases hab with hab | ⟨hab, habt⟩
  · exact .inl (hbc.elim (fun hbc => hbc.trans hab) fun hbc => hbc.1 ▸ hab)
  · rcases hbc with hbc | ⟨hbc, hbct⟩
    · exact .inl (hab ▸ hbc)
    · exact .inr ⟨hab.trans hbc, habt.trans hbct⟩

/-- Hotspots of different tables are never tied. -/
theorem before_of_le (h : a.le b = true) (hne : a.table ≠ b.table) : a.Before b :=
  (le_iff.mp h).imp_right (And.imp_right fun hle => lt_of_le_of_ne hle hne)

end Hotspot

/-- The nodes of a graph in the order of hotspots. -/
theorem IsSimple.exists_ranking (h : g.IsSimple) :
    ∃ ranking : List Hotspot, ranking.Perm (g.nodes.map g.hotspotAt) ∧
      ranking.Pairwise Hotspot.Before ∧ g.hotspots = ranking.take 10 := by
  refine ⟨sortBy Hotspot.le (g.nodes.map g.hotspotAt), perm_sortBy _ _, ?_, rfl⟩
  have hsorted := pairwise_sortBy Hotspot.le_total (fun a b c => Hotspot.le_trans)
    (g.nodes.map g.hotspotAt)
  have htables : (g.nodes.map g.hotspotAt).Pairwise fun a b => a.table ≠ b.table :=
    List.pairwise_map.mpr h.nodup_nodes
  exact hsorted.imp₂ (fun a b => Hotspot.before_of_le)
    ((perm_sortBy _ _).symm.pairwise htables Ne.symm)

/-- A node that is no hotspot comes behind every hotspot. -/
theorem IsSimple.before_of_omitted (h : g.IsSimple) (hnode : node ∈ g.nodes)
    (homitted : g.hotspotAt node ∉ g.hotspots) : ∀ s ∈ g.hotspots, s.Before (g.hotspotAt node) := by
  obtain ⟨ranking, hperm, hranked, hhotspots⟩ := h.exists_ranking
  intro s hs
  rw [hhotspots] at hs homitted
  rw [← List.take_append_drop 10 ranking, List.pairwise_append] at hranked
  refine hranked.2.2 s hs _ ?_
  have hmem : g.hotspotAt node ∈ ranking.take 10 ++ ranking.drop 10 := by
    rw [List.take_append_drop, hperm.mem_iff]
    exact List.mem_map_of_mem hnode
  exact (List.mem_append.mp hmem).resolve_left homitted

theorem IsSimple.exists_node_of_mem_hotspots (h : g.IsSimple) {s : Hotspot} (hs : s ∈ g.hotspots) :
    ∃ node ∈ g.nodes, g.hotspotAt node = s := by
  obtain ⟨ranking, hperm, -, hhotspots⟩ := h.exists_ranking
  rw [hhotspots] at hs
  exact List.mem_map.mp (hperm.mem_iff.mp (List.mem_of_mem_take hs))

/-- **Clusters and hotspots describe the graph.** For all queries, and after any number of analyses
by one analyzer: no table has an edge to itself, and none has no edge. The clusters partition the
tables into sorted groups of two or more, in order, which two tables share just if a path of edges
links them. The edges into tables, the edges out of tables and the edges are equally many. A hotspot
tells the edges at its table, and the hotspots are the first ten tables when those with more edges
come first and equally busy ones are in alphabetical order, so every other table comes behind. -/
theorem clusters_hotspots_describe_graph (snakeCaseTables : Bool)
    (records : List (Query × Clauses)) (k : ℕ) :
    let g := analyzed snakeCaseTables records k
    (g.nodes.Nodup ∧ g.edgesBySource.Perm g.edges ∧ (∀ e ∈ g.edges, e.source ≠ e.target) ∧
      ∀ node ∈ g.nodes, 0 < g.inDegree node + g.outDegree node) ∧
    (g.clusters.flatten.Perm g.nodes ∧ (∀ c ∈ g.clusters, 2 ≤ c.length) ∧
      (∀ a ∈ g.nodes, ∀ b ∈ g.nodes,
        (∃ c ∈ g.clusters, a ∈ c ∧ b ∈ c) ↔ Relation.ReflTransGen (Adjacent g.edges) a b) ∧
      (∀ c ∈ g.clusters, c.Pairwise (· < ·)) ∧ g.clusters.Pairwise (· < ·)) ∧
    ((g.nodes.map g.inDegree).sum = g.edges.length ∧
      (g.nodes.map g.outDegree).sum = g.edges.length) ∧
    (∀ s ∈ g.hotspots, s.table ∈ g.nodes ∧ s.joinedBy = g.inDegree s.table ∧
      s.joins = g.outDegree s.table ∧ s.degree = s.joinedBy + s.joins ∧
      s.degree = g.touching s.table) ∧
    (∃ ranking : List Hotspot, ranking.Perm (g.nodes.map g.hotspotAt) ∧
      ranking.Pairwise Hotspot.Before ∧ g.hotspots = ranking.take 10) ∧
    ∀ node ∈ g.nodes, g.hotspotAt node ∉ g.hotspots →
      ∀ s ∈ g.hotspots, s.Before (g.hotspotAt node) := by
  intro g
  have hg : g.IsSimple := isSimple_analyzed snakeCaseTables records k
  have hclusters := isPartition_clusters g
  obtain ⟨hamong, hinside⟩ := clusters_sorted g
  refine ⟨⟨hg.nodup_nodes, hg.edgesBySource_perm, hg.source_ne_target, fun node hnode => ?_⟩,
    ⟨hclusters.flatten_perm hg, fun c hc => hclusters.two_le_length hg hc, fun a ha b _ => ?_,
      hinside, hamong⟩, ⟨hg.sum_inDegree, hg.sum_outDegree⟩, fun s hs => ?_, hg.exists_ranking,
    fun node hnode => hg.before_of_omitted hnode⟩
  · rw [add_comm, ← hg.touching_eq]
    exact hg.touching_pos hnode
  · exact hclusters.share_iff ((hg.mem_nodes a).mp ha)
  · obtain ⟨node, hnode, rfl⟩ := hg.exists_node_of_mem_hotspots hs
    refine ⟨hnode, rfl, rfl, rfl, ?_⟩
    rw [hg.touching_eq, add_comm]
    rfl

end IndexAdvice.JoinGraph
