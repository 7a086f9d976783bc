import IndexAdvice.Index.Candidate
import IndexAdvice.Proofs.AlikeClauses

/-!
# Keys of alike queries

The key of a candidate depends on where things stand in the text through their order alone: mentions
are sorted by position, then by column and motive. So queries that say the same, at places in the
same order, have candidates with the same keys (`Candidate.map_key_ofClauses`).
-/

namespace IndexAdvice

/-- Places that are related in order. -/
def Ordered (R : Nat → Nat → Prop) : Prop :=
  ∀ a a' b b', R a a' → R b b' → (a < b ↔ a' < b')

variable {R : Nat → Nat → Prop} {c c' : Clauses} {branch branch' : List Predicate}

/-! ### Sorting -/

section Sorting

variable {α β : Type} {S : α → β → Prop} {le : α → α → Bool} {le' : β → β → Bool}

/-- Insertion takes matching elements to the same place when the orders agree on them. -/
theorem forall₂_insertBy (hle : ∀ x x' y y', S x x' → S y y' → le x y = le' x' y') {x : α} {x' : β}
    (hx : S x x') {xs : List α} {xs' : List β} (h : List.Forall₂ S xs xs') :
    List.Forall₂ S (insertBy le x xs) (insertBy le' x' xs') := by
  induction h with
  | nil => exact .cons hx .nil
  | cons hy hys ih =>
    rw [insertBy, insertBy, hle _ _ _ _ hx hy]
    split
    · exact .cons hx (.cons hy hys)
    · exact .cons hy ih

/-- Items that compare alike are sorted alike. -/
theorem forall₂_sortBy (hle : ∀ x x' y y', S x x' → S y y' → le x y = le' x' y') {xs : List α}
    {xs' : List β} (h : List.Forall₂ S xs xs') :
    List.Forall₂ S (sortBy le xs) (sortBy le' xs') := by
  induction h with
  | nil => exact .nil
  | cons hx _ ih => exact forall₂_insertBy hle hx ih

end Sorting

/-! ### Mentions -/

/-- Mentions of one column for one motive, at places that `R` relates. -/
structure Mention.Matches (R : Nat → Nat → Prop) (m m' : Mention) : Prop where
  position : ∃ a a' : Nat, R a a' ∧ m.position = a ∧ m'.position = a'
  column : m.column = m'.column
  motive : m.motive = m'.motive

/-- Matching mentions are ordered alike, since their tokens are. -/
theorem Mention.le_of_matches (hR : Ordered R) (m m' n n' : Mention) (hm : Matches R m m')
    (hn : Matches R n n') : Mention.le m n = Mention.le m' n' := by
  obtain ⟨a, a', ha, hposition, hposition'⟩ := hm.position
  obtain ⟨b, b', hb, hposition₂, hposition₂'⟩ := hn.position
  have hlt := hR a a' b b' ha hb
  have hgt := hR b b' a a' hb ha
  have hlt' : (a : Int) < b ↔ (a' : Int) < b' := by omega
  have heq : ((a : Int) == b) = ((a' : Int) == b') := by
    rw [Bool.eq_iff_iff, beq_iff_eq, beq_iff_eq]
    omega
  simp only [Mention.le, hposition, hposition', hposition₂, hposition₂', hm.column, hn.column,
    hm.motive, hn.motive, decide_eq_decide.mpr hlt', heq]

namespace Candidate

/-- The equality columns of matching branches are mentioned in the same order. -/
theorem equalityMentions_of_matches (hR : Ordered R) (hc : Clauses.Matches R c c')
    (hbranch : List.Forall₂ (Predicate.Matches R) branch branch') (caps : Capabilities) :
    List.Forall₂ (Mention.Matches R) (equalityMentions caps c branch)
      (equalityMentions caps c' branch') := by
  refine forall₂_sortBy (Mention.le_of_matches hR) (List.rel_append ?_ ?_)
  · refine List.rel_filterMap (fun p p' hp => ?_) hbranch
    have hcolumn : equalityColumn? p = equalityColumn? p' := by
      simp only [equalityColumn?, hp.kind, hp.column]
    rw [hcolumn]
    cases equalityColumn? p' with
    | none => exact .none
    | some column => exact .some ⟨hp.position, rfl, by simp only [hp.operator]⟩
  · refine List.rel_filterMap (fun j j' hj => ?_) hc.joins
    rw [hj.kind, hj.localColumn, hj.remoteTable]
    split
    · cases j'.localColumn with
      | none => exact .none
      | some column => exact .some ⟨hj.position, rfl, rfl⟩
    · exact .none

/-- All mentions together come out equal, since only their order depends on places. -/
theorem mentions_of_matches (hR : Ordered R) (hc : Clauses.Matches R c c')
    (hbranch : List.Forall₂ (Predicate.Matches R) branch branch') (caps : Capabilities) :
    mentions caps c branch = mentions caps c' branch' := by
  have hequalities : (equalityMentions caps c branch).map (fun m => (m.column, m.motive)) =
      (equalityMentions caps c' branch').map fun m => (m.column, m.motive) :=
    map_eq_of_forall₂ (equalityMentions_of_matches hR hc hbranch caps) fun _ _ hm =>
      congrArg₂ Prod.mk hm.column hm.motive
  have hranges : branch.filterMap (fun p => (rangeColumn? p).map fun column =>
        (column, "WHERE " ++ p.operator)) =
      branch'.filterMap fun p => (rangeColumn? p).map fun column =>
        (column, "WHERE " ++ p.operator) :=
    filterMap_eq_of_forall₂ hbranch fun p p' hp => by
      simp only [rangeColumn?, hp.kind, hp.column, hp.operator]
  rw [mentions, mentions, hequalities, hranges, hc.groupBy, hc.orderBy]

/-- **Keys.** Queries that say the same at places in the same order have candidates with the same
keys, for every kind of index. -/
theorem map_key_ofClauses (hR : Ordered R) (hc : Clauses.Matches R c c') (caps : Capabilities) :
    (ofClauses caps c).map key = (ofClauses caps c').map key := by
  have hkeys : List.Forall₂ (fun branch branch' =>
      (ofBranch caps c branch).key = (ofBranch caps c' branch').key)
      (if c.branches.isEmpty then [[]] else c.branches)
      (if c'.branches.isEmpty then [[]] else c'.branches) := by
    have hstep (branch branch' : List Predicate)
        (hbranch : List.Forall₂ (Predicate.Matches R) branch branch') :
        (ofBranch caps c branch).key = (ofBranch caps c' branch').key := by
      simp only [ofBranch, mentions_of_matches hR hc hbranch caps]
    have hbranches := hc.branches
    revert hbranches
    generalize c.branches = branches, c'.branches = branches'
    rintro (_ | ⟨hbranch, hrest⟩)
    · exact .cons (hstep _ _ .nil) .nil
    · exact .cons (hstep _ _ hbranch) (hrest.imp hstep)
  rw [ofClauses, ofClauses, List.map_map, List.map_map]
  exact map_eq_of_forall₂ hkeys fun _ _ h => h

end Candidate

/-! ### What the clauses say -/

/-- A predicate without its texts and its place: its column, kind and operator, and whether it
compares with constants. -/
def Predicate.essence (p : Predicate) : Predicate :=
  { p with value := "", text := "", position := 0 }

/-- Two queries say the same, except for the texts of conditions and for the places of anything. -/
structure Clauses.Agree (c c' : Clauses) : Prop where
  /-- The key columns of their candidates are the same for every target database. -/
  columns : ∀ caps, (Candidate.ofClauses caps c).map Candidate.columns =
    (Candidate.ofClauses caps c').map Candidate.columns
  branches : c.branches.map (List.map Predicate.essence) =
    c'.branches.map (List.map Predicate.essence)
  having : c.having.map Predicate.essence = c'.having.map Predicate.essence
  groupBy : c.groupBy = c'.groupBy
  orderBy : c.orderBy = c'.orderBy
  selected : c.selected = c'.selected
  tables : c.tables = c'.tables
  hasOr : c.hasOr = c'.hasOr

theorem Predicate.essence_of_matches (p p' : Predicate) (h : Matches R p p') :
    p.essence = p'.essence := by
  simp only [essence, h.column, h.kind, h.isLiteral, h.operator]

/-- **Matching clauses agree** in everything that the advice is made from. -/
theorem Clauses.agree_of_matches (hR : Ordered R) (h : Matches R c c') : Agree c c' where
  columns caps := by
    have := congrArg (List.map (List.map KeyColumn.column)) (Candidate.map_key_ofClauses hR h caps)
    rwa [List.map_map, List.map_map] at this
  branches := by
    refine map_eq_of_forall₂ h.branches fun branch branch' hbranch => ?_
    exact map_eq_of_forall₂ hbranch Predicate.essence_of_matches
  having := map_eq_of_forall₂ h.having Predicate.essence_of_matches
  groupBy := h.groupBy
  orderBy := h.orderBy
  selected := h.selected
  tables := h.tables
  hasOr := h.hasOr

end IndexAdvice
