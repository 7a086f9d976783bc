import Mathlib.Data.List.Lattice
import Mathlib.Data.List.Lex
import Mathlib.Data.List.Perm.Subperm
import Mathlib.Logic.Relation
import IndexAdvice.Proofs.GraphEdges

/-!
# Clusters of the join graph

Clusters are found by going through the edges and merging, at each of them, the clusters that hold
one of its ends. What has been found after some edges is a partition of their ends into the classes
of linked tables (`IsPartition`), where tables are linked by a path of edges in whatever direction.
An edge more links what its two ends were linked with (`linked_concat`), and this is what merging
does (`IsPartition.connect`).
-/

namespace IndexAdvice.JoinGraph

variable {edges : List JoinEdge} {e : JoinEdge} {a b x y : String} {g : JoinGraph}

/-! ### Linked tables -/

/-- Whether an edge joins the two tables, in whichever direction. -/
def Adjacent (edges : List JoinEdge) (a b : String) : Prop :=
  ∃ e ∈ edges, e.source = a ∧ e.target = b ∨ e.source = b ∧ e.target = a

/-- Whether a path of edges leads from one table to the other. -/
def Linked (edges : List JoinEdge) : String → String → Prop :=
  Relation.ReflTransGen (Adjacent edges)

/-- Whether an edge starts or ends at the table. -/
def IsEnd (edges : List JoinEdge) (a : String) : Prop :=
  ∃ e ∈ edges, e.source = a ∨ e.target = a

theorem Adjacent.symm (h : Adjacent edges a b) : Adjacent edges b a := by
  obtain ⟨e, he, hends⟩ := h
  exact ⟨e, he, hends.symm⟩

theorem Adjacent.isEnd (h : Adjacent edges a b) : IsEnd edges a := by
  obtain ⟨e, he, hends⟩ := h
  exact ⟨e, he, hends.imp And.left And.right⟩

theorem adjacent_of_mem (h : e ∈ edges) : Adjacent edges e.source e.target :=
  ⟨e, h, .inl ⟨rfl, rfl⟩⟩

theorem Linked.refl (a : String) : Linked edges a a :=
  Relation.ReflTransGen.refl

theorem Linked.trans (h : Linked edges a x) (h' : Linked edges x b) : Linked edges a b :=
  Relation.ReflTransGen.trans h h'

theorem Linked.symm (h : Linked edges a b) : Linked edges b a := by
  induction h with
  | refl => exact .refl _
  | tail _ hstep ih => exact Relation.ReflTransGen.head hstep.symm ih

/-- A table without edges is linked with itself only. -/
theorem Linked.eq_of_not_isEnd (h : Linked edges a b) (ha : ¬ IsEnd edges a) : a = b := by
  obtain rfl | ⟨c, hstep, -⟩ := Relation.ReflTransGen.cases_head h
  · rfl
  · exact absurd hstep.isEnd ha

theorem Linked.concat (h : Linked edges a b) (e : JoinEdge) : Linked (edges ++ [e]) a b :=
  Relation.ReflTransGen.mono
    (fun _ _ ⟨e', he', hends⟩ => ⟨e', List.mem_append_left _ he', hends⟩) _ _ h

theorem isEnd_concat : IsEnd (edges ++ [e]) x ↔ IsEnd edges x ∨ e.source = x ∨ e.target = x := by
  simp only [IsEnd, List.mem_append, List.mem_singleton, or_and_right, exists_or, exists_eq_left]

/-- **An edge more** links what its ends are linked with. -/
theorem linked_concat :
    Linked (edges ++ [e]) x y ↔ Linked edges x y ∨
      (Linked edges x e.source ∧ Linked edges e.target y) ∨
      (Linked edges x e.target ∧ Linked edges e.source y) := by
  constructor
  · intro h
    induction h with
    | refl => exact .inl (.refl x)
    | @tail y z _ hstep ih =>
      obtain ⟨e', he', hends⟩ := hstep
      rcases List.mem_append.mp he' with hold | hnew
      · -- the last step is an old one and prolongs the second part of the path
        have hyz : Linked edges y z := .single ⟨e', hold, hends⟩
        exact ih.imp (·.trans hyz) (.imp (.imp_right (·.trans hyz)) (.imp_right (·.trans hyz)))
      · obtain rfl := List.mem_singleton.mp hnew
        -- the path ends at one end of the new edge and is taken up to where it first gets there
        rcases hends with ⟨rfl, rfl⟩ | ⟨rfl, rfl⟩
        · rcases ih with h | ⟨h, -⟩ | ⟨h, -⟩
          · exact .inr (.inl ⟨h, .refl _⟩)
          · exact .inr (.inl ⟨h, .refl _⟩)
          · exact .inl h
        · rcases ih with h | ⟨h, -⟩ | ⟨h, -⟩
          · exact .inr (.inr ⟨h, .refl _⟩)
          · exact .inl h
          · exact .inr (.inr ⟨h, .refl _⟩)
  · have hedge : Linked (edges ++ [e]) e.source e.target :=
      .single (adjacent_of_mem (List.mem_append_right _ (List.mem_singleton_self e)))
    rintro (h | ⟨h, h'⟩ | ⟨h, h'⟩)
    · exact h.concat e
    · exact (h.concat e).trans (hedge.trans (h'.concat e))
    · exact (h.concat e).trans (hedge.symm.trans (h'.concat e))

/-! ### Merging -/

variable {clusters : List (List String)} {c : List String}

/-- The clusters are the classes of linked tables, each once and without repetition. -/
structure IsPartition (edges : List JoinEdge) (clusters : List (List String)) : Prop where
  nodup : ∀ c ∈ clusters, c.Nodup
  ne_nil : ∀ c ∈ clusters, c ≠ []
  disjoint : clusters.Pairwise List.Disjoint
  mem_iff : ∀ c ∈ clusters, ∀ x ∈ c, ∀ y, y ∈ c ↔ Linked edges x y
  covers : ∀ x, (∃ c ∈ clusters, x ∈ c) ↔ IsEnd edges x

/-- The cluster that two tables and all clusters with one of them are merged into. -/
def merged (clusters : List (List String)) (a b : String) : List String :=
  ([a, b] ++ (clusters.filter fun c => c.contains a || c.contains b).flatten).eraseDups

/-- Connecting two tables merges the clusters they are in and keeps the others. -/
theorem connect_eq (clusters : List (List String)) (a b : String) :
    connect clusters a b =
      clusters.filter (fun c => !(c.contains a || c.contains b)) ++ [merged clusters a b] :=
  rfl

theorem mem_kept :
    c ∈ clusters.filter (fun c => !(c.contains a || c.contains b)) ↔
      c ∈ clusters ∧ a ∉ c ∧ b ∉ c := by
  simp [List.mem_filter]

/-- A cluster is either one that has nothing to do with the edge or the merged one. -/
theorem mem_connect :
    c ∈ connect clusters a b ↔ (c ∈ clusters ∧ a ∉ c ∧ b ∉ c) ∨ c = merged clusters a b := by
  rw [connect_eq, List.mem_append, mem_kept, List.mem_singleton]

/-- The merged cluster has what is linked with one of the two tables. -/
theorem IsPartition.mem_merged (h : IsPartition edges clusters) :
    x ∈ merged clusters a b ↔ Linked edges a x ∨ Linked edges b x := by
  simp only [merged, List.mem_eraseDups, List.mem_append, List.mem_cons, List.not_mem_nil,
    or_false, List.mem_flatten, List.mem_filter, Bool.or_eq_true, List.contains_iff_mem]
  constructor
  · rintro ((rfl | rfl) | ⟨c, ⟨hc, ha | hb⟩, hx⟩)
    · exact .inl (.refl x)
    · exact .inr (.refl x)
    · exact .inl ((h.mem_iff c hc a ha x).mp hx)
    · exact .inr ((h.mem_iff c hc b hb x).mp hx)
  · -- a linked table is in the cluster of the one it is linked with, if this has any edges
    have hfound {u : String} (hu : Linked edges u x) : u = x ∨ ∃ c ∈ clusters, u ∈ c ∧ x ∈ c := by
      by_cases hend : IsEnd edges u
      · obtain ⟨c, hc, huc⟩ := (h.covers u).mpr hend
        exact .inr ⟨c, hc, huc, (h.mem_iff c hc u huc x).mpr hu⟩
      · exact .inl (hu.eq_of_not_isEnd hend)
    rintro (ha | hb)
    · rcases hfound ha with rfl | ⟨c, hc, hac, hx⟩
      · exact .inl (.inl rfl)
      · exact .inr ⟨c, ⟨hc, .inl hac⟩, hx⟩
    · rcases hfound hb with rfl | ⟨c, hc, hbc, hx⟩
      · exact .inl (.inr rfl)
      · exact .inr ⟨c, ⟨hc, .inr hbc⟩, hx⟩

/-- A merged table is one of the two or has an edge. -/
theorem IsPartition.isEnd_of_mem_merged (h : IsPartition edges clusters)
    (hx : x ∈ merged clusters a b) : IsEnd edges x ∨ a = x ∨ b = x := by
  by_cases hend : IsEnd edges x
  · exact .inl hend
  · refine .inr ((h.mem_merged.mp hx).imp (fun hlinked => ?_) fun hlinked => ?_)
    · exact (hlinked.symm.eq_of_not_isEnd hend).symm
    · exact (hlinked.symm.eq_of_not_isEnd hend).symm

/-- **One edge.** Merging at an edge more keeps the clusters the classes of linked tables. -/
theorem IsPartition.connect (h : IsPartition edges clusters) (e : JoinEdge) :
    IsPartition (edges ++ [e]) (connect clusters e.source e.target) where
  nodup c hc := by
    rcases mem_connect.mp hc with ⟨hc, -⟩ | rfl
    · exact h.nodup c hc
    · exact nodup_eraseDups _
  ne_nil c hc := by
    rcases mem_connect.mp hc with ⟨hc, -⟩ | rfl
    · exact h.ne_nil c hc
    · exact List.ne_nil_of_mem (h.mem_merged.mpr (.inl (.refl e.source)))
  disjoint := by
    rw [connect_eq, List.pairwise_append]
    refine ⟨h.disjoint.filter _, List.pairwise_singleton _ _, fun c hc c' hc' x hx hx' => ?_⟩
    obtain rfl := List.mem_singleton.mp hc'
    obtain ⟨hc, hsource, htarget⟩ := mem_kept.mp hc
    rcases h.mem_merged.mp hx' with hlinked | hlinked
    · exact hsource ((h.mem_iff c hc x hx _).mpr hlinked.symm)
    · exact htarget ((h.mem_iff c hc x hx _).mpr hlinked.symm)
  mem_iff c hc x hx y := by
    rw [linked_concat]
    rcases mem_connect.mp hc with ⟨hc, hsource, htarget⟩ | rfl
    · -- a cluster without the ends of the edge gains no path through it
      rw [h.mem_iff c hc x hx] at hsource htarget ⊢
      exact ⟨.inl, fun hxy => hxy.resolve_right fun hnew =>
        hnew.elim (fun hnew => hsource hnew.1) (fun hnew => htarget hnew.1)⟩
    · rw [h.mem_merged] at hx ⊢
      constructor
      · rintro (hy | hy)
        · rcases hx with hx | hx
          · exact .inl (hx.symm.trans hy)
          · exact .inr (.inr ⟨hx.symm, hy⟩)
        · rcases hx with hx | hx
          · exact .inr (.inl ⟨hx.symm, hy⟩)
          · exact .inl (hx.symm.trans hy)
      · rintro (hxy | ⟨-, hy⟩ | ⟨-, hy⟩)
        · exact hx.imp (·.trans hxy) (·.trans hxy)
        · exact .inr hy
        · exact .inl hy
  covers x := by
    rw [isEnd_concat, ← h.covers x]
    constructor
    · rintro ⟨c, hc, hx⟩
      rcases mem_connect.mp hc with ⟨hc, -⟩ | rfl
      · exact .inl ⟨c, hc, hx⟩
      · rw [h.covers]
        exact h.isEnd_of_mem_merged hx
    · intro hx
      by_cases hmerged : x ∈ merged clusters e.source e.target
      · exact ⟨_, mem_connect.mpr (.inr rfl), hmerged⟩
      · rcases hx with ⟨c, hc, hx⟩ | rfl | rfl
        · -- the cluster is kept: with one end of the edge it would have been merged
          refine ⟨c, mem_connect.mpr (.inl ⟨hc, fun hmem => ?_, fun hmem => ?_⟩), hx⟩
          · exact hmerged (h.mem_merged.mpr (.inl ((h.mem_iff c hc _ hmem x).mp hx)))
          · exact hmerged (h.mem_merged.mpr (.inr ((h.mem_iff c hc _ hmem x).mp hx)))
        · exact absurd (h.mem_merged.mpr (.inl (.refl _))) hmerged
        · exact absurd (h.mem_merged.mpr (.inr (.refl _))) hmerged

/-- **All edges.** Merging at every edge gives the classes of linked tables. -/
theorem isPartition_foldl (edges : List JoinEdge) :
    IsPartition edges (edges.foldl (fun clusters e => connect clusters e.source e.target) []) := by
  induction edges using List.reverseRecOn with
  | nil =>
    exact ⟨by simp, by simp, .nil, by simp, by simp [IsEnd]⟩
  | append_singleton edges e ih =>
    rw [List.foldl_append, List.foldl_cons, List.foldl_nil]
    exact ih.connect e

/-! ### Clusters in order -/

/-- The order of clusters does not matter. -/
theorem IsPartition.of_perm {clusters' : List (List String)} (h : IsPartition edges clusters)
    (hperm : clusters'.Perm clusters) : IsPartition edges clusters' where
  nodup c hc := h.nodup c (hperm.mem_iff.mp hc)
  ne_nil c hc := h.ne_nil c (hperm.mem_iff.mp hc)
  disjoint := hperm.symm.pairwise h.disjoint List.disjoint_symm
  mem_iff c hc := h.mem_iff c (hperm.mem_iff.mp hc)
  covers x := (exists_congr fun _ => and_congr_left fun _ => hperm.mem_iff).trans (h.covers x)

/-- Nor does the order within a cluster. -/
theorem IsPartition.map_sortTexts (h : IsPartition edges clusters) :
    IsPartition edges (clusters.map sortTexts) where
  nodup := List.forall_mem_map.mpr fun c hc => (perm_sortBy _ c).nodup_iff.mpr (h.nodup c hc)
  ne_nil := List.forall_mem_map.mpr fun c hc hnil =>
    h.ne_nil c hc (List.perm_nil.mp (hnil ▸ (perm_sortBy _ c).symm))
  disjoint := List.pairwise_map.mpr (h.disjoint.imp fun hdisjoint x hx hx' =>
    hdisjoint (mem_sortTexts.mp hx) (mem_sortTexts.mp hx'))
  mem_iff := List.forall_mem_map.mpr fun c hc x hx y => by
    rw [mem_sortTexts, h.mem_iff c hc x (mem_sortTexts.mp hx)]
  covers x := by simp only [List.mem_map, exists_exists_and_eq_and, mem_sortTexts, h.covers]

/-- The clusters of a graph are the classes of linked tables. -/
theorem isPartition_clusters (g : JoinGraph) : IsPartition g.edges g.clusters :=
  (isPartition_foldl g.edges).map_sortTexts.of_perm (perm_sortBy _ _)

/-- A cluster has two tables at least, since an edge of one of them ends in it. -/
theorem IsPartition.two_le_length (h : IsPartition g.edges clusters) (hg : g.IsSimple)
    (hc : c ∈ clusters) : 2 ≤ c.length := by
  obtain ⟨x, hx⟩ := List.exists_mem_of_ne_nil c (h.ne_nil c hc)
  obtain ⟨e, he, hends⟩ := (h.covers x).mp ⟨c, hc, hx⟩
  have hedge : Linked g.edges e.source e.target := .single (adjacent_of_mem he)
  have hboth : e.source ∈ c ∧ e.target ∈ c := by
    rcases hends with rfl | rfl
    · exact ⟨hx, (h.mem_iff c hc _ hx _).mpr hedge⟩
    · exact ⟨(h.mem_iff c hc _ hx _).mpr hedge.symm, hx⟩
  have htwo : [e.source, e.target].Nodup := by simpa using hg.source_ne_target e he
  exact (htwo.subperm (by simpa using hboth)).length_le

/-- The clusters hold every node once. -/
theorem IsPartition.flatten_perm (h : IsPartition g.edges clusters) (hg : g.IsSimple) :
    clusters.flatten.Perm g.nodes := by
  have hnodup : clusters.flatten.Nodup := List.nodup_flatten.mpr ⟨h.nodup, h.disjoint⟩
  refine (List.perm_ext_iff_of_nodup hnodup hg.nodup_nodes).mpr fun x => ?_
  rw [List.mem_flatten, h.covers, hg.mem_nodes, IsEnd]

/-- Two tables share a cluster just if they are linked. -/
theorem IsPartition.share_iff (h : IsPartition edges clusters) (ha : IsEnd edges a) :
    (∃ c ∈ clusters, a ∈ c ∧ b ∈ c) ↔ Linked edges a b := by
  constructor
  · rintro ⟨c, hc, hac, hbc⟩
    exact (h.mem_iff c hc a hac b).mp hbc
  · intro hlinked
    obtain ⟨c, hc, hac⟩ := (h.covers a).mpr ha
    exact ⟨c, hc, hac, (h.mem_iff c hc a hac b).mpr hlinked⟩

/-- No cluster is there twice, since clusters are disjoint and not empty. -/
theorem IsPartition.nodup_clusters (h : IsPartition edges clusters) : clusters.Nodup := by
  refine h.disjoint.imp_of_mem fun {c c'} hc _ hdisjoint heq => ?_
  obtain ⟨x, hx⟩ := List.exists_mem_of_ne_nil c (h.ne_nil c hc)
  exact hdisjoint hx (heq ▸ hx)

theorem listLe_iff {as bs : List String} : listLe as bs = true ↔ as ≤ bs := by
  rw [← not_lt]
  induction as generalizing bs with
  | nil => exact iff_of_true (by cases bs <;> rfl) (List.not_lt_nil bs)
  | cons a as ih =>
    cases bs with
    | nil => exact iff_of_false (by simp [listLe]) (not_not_intro (List.nil_lt_cons a as))
    | cons b bs =>
      have hcons : b :: bs < a :: as ↔ b < a ∨ b = a ∧ bs < as := List.cons_lt_cons_iff
      rw [listLe, hcons]
      by_cases hab : a = b
      · simp [hab, ih]
      · rw [if_neg (by simpa using hab), decide_eq_true_eq, ← not_lt]
        simp only [Ne.symm hab, false_and, or_false]

/-- Clusters stand in order among each other, and so do the tables in each of them. -/
theorem clusters_sorted (g : JoinGraph) :
    g.clusters.Pairwise (· < ·) ∧ ∀ c ∈ g.clusters, c.Pairwise (· < ·) := by
  have hfound := isPartition_foldl g.edges
  have hsorted : g.clusters.Pairwise fun as bs => listLe as bs = true :=
    pairwise_sortBy (fun as bs => by simpa only [listLe_iff] using le_total as bs)
      (fun as bs cs => by simpa only [listLe_iff] using le_trans) _
  have hnodup : g.clusters.Nodup := (isPartition_clusters g).nodup_clusters
  refine ⟨hsorted.imp₂ (fun as bs hle hne => lt_of_le_of_ne (listLe_iff.mp hle) hne) hnodup, ?_⟩
  intro c hc
  rw [clusters, mem_sortBy, List.mem_map] at hc
  obtain ⟨d, hd, rfl⟩ := hc
  exact pairwise_lt_sortTexts (hfound.nodup d hd)

end IndexAdvice.JoinGraph
