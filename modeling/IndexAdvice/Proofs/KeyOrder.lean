import Mathlib.Data.List.Induction
import Mathlib.Data.List.Nodup
import IndexAdvice.Index.Advice

/-!
# The order of key columns

`addMention` is folded over all mentions of a branch, so a column keeps the place of its first
mention and collects the motives of all of them: `key_ofBranch` says that the key is `keyOf` the
mentions, a closed form without any folding.

The mentions come role by role. `Role` names the four ways in which a column can serve an index and
`Serves` says, without regard to the code, what each of them takes. The main result
`candidates_ordered_by_role` describes the keys of a query completely: one for each branch, the
first occurrences of the mentioned columns in order of role, equalities and joins **merged by
position**, and every column with at least one motive.
-/

namespace IndexAdvice

/-! ### First occurrences -/

section FirstOccurrences

variable {α : Type} [BEq α] [LawfulBEq α]

/-- One more item shows only if it is new. -/
theorem eraseDups_concat (xs : List α) (x : α) :
    (xs ++ [x]).eraseDups = if xs.contains x then xs.eraseDups else xs.eraseDups ++ [x] := by
  rw [List.eraseDups_append]
  by_cases h : x ∈ xs <;> simp [List.removeAll, List.eraseDups_cons, h]

/-- First occurrences are listed once. -/
theorem nodup_eraseDups (xs : List α) : xs.eraseDups.Nodup := by
  induction xs using List.reverseRecOn with
  | nil => exact List.nodup_nil
  | append_singleton xs x ih =>
    rw [eraseDups_concat]
    split
    · exact ih
    · rename_i h
      rw [List.nodup_append]
      refine ⟨ih, List.nodup_singleton x, ?_⟩
      rintro a ha b hb rfl
      rw [List.mem_singleton.mp hb, List.mem_eraseDups] at ha
      exact h (by simpa using ha)

/-- What occurs once is listed as it is. -/
theorem eraseDups_eq_self {xs : List α} (h : xs.Nodup) : xs.eraseDups = xs := by
  induction xs using List.reverseRecOn with
  | nil => rfl
  | append_singleton xs x ih =>
    have hnew : x ∉ xs := fun hx => List.disjoint_of_nodup_append h hx (List.mem_singleton_self x)
    rw [eraseDups_concat, if_neg (by simpa using hnew), ih (List.nodup_append.mp h).1]

/-- What occurs in a first part of a list is listed before what occurs only later. -/
theorem idxOf_eraseDups_lt {xs ys : List α} {a b : α} (ha : a ∈ xs) (hb : b ∉ xs) :
    (xs ++ ys).eraseDups.idxOf a < (xs ++ ys).eraseDups.idxOf b := by
  have ha' : a ∈ xs.eraseDups := List.mem_eraseDups.mpr ha
  have hb' : b ∉ xs.eraseDups := fun h => hb (List.mem_eraseDups.mp h)
  rw [List.eraseDups_append, List.idxOf_append_of_mem ha', List.idxOf_append_of_notMem hb']
  have := List.idxOf_lt_length_of_mem ha'
  omega

end FirstOccurrences

/-! ### The key in closed form -/

/-- The motives of a column among mentions, each once. -/
def motivesOf (ms : List (String × String)) (column : String) : List String :=
  ((ms.filter (·.1 == column)).map (·.2)).eraseDups

/-- The key of a list of mentions: every column once, with all its motives. -/
def keyOf (ms : List (String × String)) : List KeyColumn :=
  (ms.map (·.1)).eraseDups.map fun column => ⟨column, motivesOf ms column⟩

/-- Key columns come in the order of their first mention. -/
theorem columns_keyOf (ms : List (String × String)) :
    (keyOf ms).map (·.column) = (ms.map (·.1)).eraseDups := by
  simp [keyOf, Function.comp_def]

private theorem any_keyOf (ms : List (String × String)) (column : String) :
    (keyOf ms).any (·.column == column) = (ms.map (·.1)).contains column := by
  rw [Bool.eq_iff_iff]
  simp [keyOf, List.mem_eraseDups]

/-- A mention of one column adds nothing to the motives of another. -/
private theorem motivesOf_concat_of_ne {ms : List (String × String)}
    {column column' motive : String} (h : column' ≠ column) :
    motivesOf (ms ++ [(column, motive)]) column' = motivesOf ms column' := by
  have : (column == column') = false := by simpa using h.symm
  simp [motivesOf, List.filter_append, this]

/-- A motive is noted once for each column. -/
private theorem motivesOf_concat_self (ms : List (String × String)) (column motive : String) :
    motivesOf (ms ++ [(column, motive)]) column =
      if (motivesOf ms column).contains motive then motivesOf ms column
      else motivesOf ms column ++ [motive] := by
  have hmem : (motivesOf ms column).contains motive =
      ((ms.filter (·.1 == column)).map (·.2)).contains motive := by
    rw [Bool.eq_iff_iff, List.contains_iff_mem, List.contains_iff_mem, motivesOf,
      List.mem_eraseDups]
  rw [hmem, motivesOf, List.filter_append, List.map_append]
  have hlast : ([(column, motive)].filter (·.1 == column)).map (·.2) = [motive] := by simp
  rw [hlast, eraseDups_concat]
  rfl

/-- One more mention of a column extends the list of mentions by one. -/
theorem addMention_keyOf (ms : List (String × String)) (column motive : String) :
    addMention (keyOf ms) column motive = keyOf (ms ++ [(column, motive)]) := by
  have hcolumns : ((ms ++ [(column, motive)]).map (·.1)).eraseDups =
      if (ms.map (·.1)).contains column then (ms.map (·.1)).eraseDups
      else (ms.map (·.1)).eraseDups ++ [column] := by
    rw [List.map_append, List.map_singleton, eraseDups_concat]
  rw [addMention, any_keyOf]
  split
  · -- a column that is in the key keeps its place and may get the motive
    rename_i h
    rw [keyOf, keyOf, hcolumns, if_pos h, List.map_map]
    refine List.map_congr_left fun column' _ => ?_
    by_cases hc : column' = column
    · subst hc
      rw [motivesOf_concat_self]
      by_cases hm : motive ∈ motivesOf ms column' <;> simp [hm]
    · rw [motivesOf_concat_of_ne hc]
      simp [hc]
  · -- a new column goes to the end, and the motives of the others stay
    rename_i h
    have hnew : column ∉ ms.map (·.1) := by simpa using h
    have hnone : motivesOf ms column = [] := by
      have : ms.filter (·.1 == column) = [] :=
        List.filter_eq_nil_iff.mpr fun m hm => by
          rintro heq
          exact hnew (List.mem_map.mpr ⟨m, hm, by simpa using heq⟩)
      simp [motivesOf, this]
    rw [keyOf, keyOf, hcolumns, if_neg h, List.map_append, List.map_singleton,
      motivesOf_concat_self, hnone]
    refine congrArg (· ++ _) (List.map_congr_left fun column' hc => ?_)
    have hne : column' ≠ column := fun heq => hnew (heq ▸ List.mem_eraseDups.mp hc)
    rw [motivesOf_concat_of_ne hne]

/-- Mentions that are added one after the other make the key of all of them. -/
theorem foldl_addMention_keyOf (done ms : List (String × String)) :
    ms.foldl (fun key m => addMention key m.1 m.2) (keyOf done) = keyOf (done ++ ms) := by
  induction ms generalizing done with
  | nil => rw [List.append_nil, List.foldl_nil]
  | cons m ms ih => rw [List.foldl_cons, addMention_keyOf, ih, List.append_assoc]; rfl

/-- **The key of a branch** is the key of its mentions. -/
theorem key_ofBranch (caps : Capabilities) (clauses : Clauses) (branch : List Predicate) :
    (Candidate.ofBranch caps clauses branch).key =
      keyOf (Candidate.mentions caps clauses branch) :=
  foldl_addMention_keyOf [] _

/-- A column of a key has a motive. -/
theorem motivesOf_ne_nil {ms : List (String × String)} {column : String}
    (h : column ∈ (keyOf ms).map (·.column)) : motivesOf ms column ≠ [] := by
  rw [columns_keyOf, List.mem_eraseDups, List.mem_map] at h
  obtain ⟨m, hm, rfl⟩ := h
  refine List.ne_nil_of_mem (a := m.2) (List.mem_eraseDups.mpr (List.mem_map.mpr ⟨m, ?_, rfl⟩))
  exact List.mem_filter.mpr ⟨hm, by simp⟩

/-! ### The order of mentions -/

namespace Mention

/-- `a` may stand before `b`: by position, then by column, then by motive. -/
def Precedes (a b : Mention) : Prop :=
  a.position < b.position ∨ a.position = b.position ∧
    (a.column < b.column ∨ a.column = b.column ∧ a.motive ≤ b.motive)

theorem le_iff {a b : Mention} : Mention.le a b = true ↔ a.Precedes b := by
  simp [Mention.le, Precedes]

theorem le_total (a b : Mention) : Mention.le a b = true ∨ Mention.le b a = true := by
  rw [le_iff, le_iff, Precedes, Precedes]
  have := String.le_total a.motive b.motive
  grind

theorem le_trans (a b c : Mention) (hab : Mention.le a b = true) (hbc : Mention.le b c = true) :
    Mention.le a c = true := by
  rw [le_iff, Precedes] at *
  grind

end Mention

/-! ### Roles -/

/-- What a column can do for an index, from the strongest to the weakest. -/
inductive Role where
  | equality | range | group | sort
deriving DecidableEq, Repr

namespace Role

/-- The place of a role; stronger roles come first. -/
def rank : Role → Nat
  | .equality => 0
  | .range => 1
  | .group => 2
  | .sort => 3

/-- All roles, the strongest first. -/
def all : List Role :=
  [.equality, .range, .group, .sort]

/-- The roles are listed by rank, so those up to a rank come before those above it. -/
private theorem all_split (r : Role) :
    all = all.filter (·.rank ≤ r.rank) ++ all.filter (r.rank < ·.rank) := by
  cases r <;> rfl

private theorem mem_all (r : Role) : r ∈ all := by
  cases r <;> decide

end Role

section Roles

variable (caps : Capabilities) (clauses : Clauses) (branch : List Predicate)

/-- The ways in which a column serves a branch. A comparison on a column with an empty name serves
nothing, and neither does a join that the database cannot execute. -/
inductive Serves : Role → String → Prop
  | equality {p : Predicate} {column : String} (hp : p ∈ branch) (hkind : p.kind = .equality)
      (hcolumn : p.column = some column) (hne : column ≠ "") : Serves .equality column
  | join {j : Join} {column : String} (hj : j ∈ clauses.joins)
      (hkind : caps.supportsJoin j.kind = true) (hcolumn : j.localColumn = some column) :
      Serves .equality column
  | range {p : Predicate} {column : String} (hp : p ∈ branch) (hkind : p.kind = .range)
      (hcolumn : p.column = some column) (hne : column ≠ "") : Serves .range column
  | group {column : String} (h : column ∈ clauses.groupBy) : Serves .group column
  | sort {s : SortColumn} (h : s ∈ clauses.orderBy) : Serves .sort s.column

/-- The strongest role that a column has. -/
def BestRole (role : Role) (column : String) : Prop :=
  Serves caps clauses branch role column ∧
    ∀ other, Serves caps clauses branch other column → role.rank ≤ other.rank

/-- The mentions that a branch makes by comparing columns for equality. -/
def branchMentions : List Mention :=
  branch.filterMap fun p => (Candidate.equalityColumn? p).map fun column =>
    ⟨p.position, column, if p.operator == "IN" then "WHERE IN" else "WHERE ="⟩

/-- The mentions that the executable joins make. -/
def joinMentions : List Mention :=
  clauses.joins.filterMap fun j =>
    if caps.supportsJoin j.kind then j.localColumn.map fun column =>
      ⟨j.position, column, "JOIN " ++ j.remoteTable⟩
    else none

/-- The columns that are mentioned in a role, in the order of their mentions. -/
def roleColumns : Role → List String
  | .equality => (Candidate.equalityMentions caps clauses branch).map (·.column)
  | .range => branch.filterMap Candidate.rangeColumn?
  | .group => clauses.groupBy
  | .sort => clauses.orderBy.map (·.column)

variable {caps clauses branch}

/-- An equality serves the column it names, if it names one. -/
theorem equalityColumn?_eq_some {p : Predicate} {column : String} :
    Candidate.equalityColumn? p = some column ↔
      p.kind = .equality ∧ p.column = some column ∧ column ≠ "" := by
  simp [Candidate.equalityColumn?, Option.filter_eq_some_iff]

theorem rangeColumn?_eq_some {p : Predicate} {column : String} :
    Candidate.rangeColumn? p = some column ↔
      p.kind = .range ∧ p.column = some column ∧ column ≠ "" := by
  simp [Candidate.rangeColumn?, Option.filter_eq_some_iff]

/-- The equality columns are those that serve as such, be it by a predicate or by a join. -/
private theorem mem_equalityMentions {column : String} :
    column ∈ (Candidate.equalityMentions caps clauses branch).map (·.column) ↔
      Serves caps clauses branch .equality column := by
  have hmem : ∀ m, m ∈ Candidate.equalityMentions caps clauses branch ↔
      m ∈ branchMentions branch ∨ m ∈ joinMentions caps clauses := fun m => by
    show m ∈ sortBy Mention.le (branchMentions branch ++ joinMentions caps clauses) ↔ _
    rw [mem_sortBy, List.mem_append]
  rw [List.mem_map]
  constructor
  · rintro ⟨m, hm, rfl⟩
    rcases (hmem m).mp hm with hm | hm
    · obtain ⟨p, hp, h⟩ := List.mem_filterMap.mp hm
      obtain ⟨column, hcolumn, rfl⟩ := Option.map_eq_some_iff.mp h
      obtain ⟨hkind, hsome, hne⟩ := equalityColumn?_eq_some.mp hcolumn
      exact .equality hp hkind hsome hne
    · obtain ⟨j, hj, h⟩ := List.mem_filterMap.mp hm
      split at h
      · rename_i hkind
        obtain ⟨column, hcolumn, rfl⟩ := Option.map_eq_some_iff.mp h
        exact .join hj hkind hcolumn
      · simp at h
  · intro h
    cases h with
    | @equality p _ hp hkind hsome hne =>
      refine ⟨⟨p.position, column, if p.operator == "IN" then "WHERE IN" else "WHERE ="⟩,
        (hmem _).mpr (.inl (List.mem_filterMap.mpr ⟨p, hp, ?_⟩)), rfl⟩
      rw [equalityColumn?_eq_some.mpr ⟨hkind, hsome, hne⟩]
      rfl
    | @join j _ hj hkind hsome =>
      refine ⟨⟨j.position, column, "JOIN " ++ j.remoteTable⟩,
        (hmem _).mpr (.inr (List.mem_filterMap.mpr ⟨j, hj, ?_⟩)), rfl⟩
      rw [if_pos hkind, hsome]
      rfl

/-- The columns mentioned in a role are those that serve the branch in it. -/
theorem mem_roleColumns {role : Role} {column : String} :
    column ∈ roleColumns caps clauses branch role ↔ Serves caps clauses branch role column := by
  cases role with
  | equality => exact mem_equalityMentions
  | range =>
    rw [roleColumns, List.mem_filterMap]
    constructor
    · rintro ⟨p, hp, h⟩
      obtain ⟨hkind, hsome, hne⟩ := rangeColumn?_eq_some.mp h
      exact .range hp hkind hsome hne
    · intro h
      cases h with
      | range hp hkind hsome hne => exact ⟨_, hp, rangeColumn?_eq_some.mpr ⟨hkind, hsome, hne⟩⟩
  | group => exact ⟨.group, fun h => by cases h; assumption⟩
  | sort =>
    rw [roleColumns, List.mem_map]
    constructor
    · rintro ⟨s, hs, rfl⟩
      exact .sort hs
    · intro h
      cases h with
      | sort hs => exact ⟨_, hs, rfl⟩

variable (caps clauses branch)

/-- The mentioned columns, role by role. -/
theorem map_mentions :
    (Candidate.mentions caps clauses branch).map (·.1) =
      Role.all.flatMap (roleColumns caps clauses branch) := by
  simp [Candidate.mentions, Role.all, roleColumns, Function.comp_def, List.map_filterMap]

/-- The key columns of a branch are the first occurrences of the mentioned columns. -/
theorem columns_ofBranch :
    (Candidate.ofBranch caps clauses branch).columns =
      (Role.all.flatMap (roleColumns caps clauses branch)).eraseDups := by
  rw [Candidate.columns, key_ofBranch, columns_keyOf, map_mentions]

variable {caps clauses branch}

/-- The columns of a candidate are those that serve in some role. -/
theorem mem_columns_ofBranch {column : String} :
    column ∈ (Candidate.ofBranch caps clauses branch).columns ↔
      ∃ role, Serves caps clauses branch role column := by
  rw [columns_ofBranch, List.mem_eraseDups, List.mem_flatMap]
  exact exists_congr fun role =>
    ⟨fun ⟨_, h⟩ => mem_roleColumns.mp h, fun h => ⟨role.mem_all, mem_roleColumns.mpr h⟩⟩

/-- **Stronger roles come first.** -/
theorem idxOf_lt_of_bestRole {a b : String} {ra rb : Role}
    (ha : BestRole caps clauses branch ra a) (hb : BestRole caps clauses branch rb b)
    (hlt : ra.rank < rb.rank) :
    (Candidate.ofBranch caps clauses branch).columns.idxOf a <
      (Candidate.ofBranch caps clauses branch).columns.idxOf b := by
  -- `a` is mentioned in the roles up to its own, and `b` only after them
  rw [columns_ofBranch, Role.all_split ra, List.flatMap_append]
  refine idxOf_eraseDups_lt ?_ ?_
  · refine List.mem_flatMap.mpr ⟨ra, ?_, mem_roleColumns.mpr ha.1⟩
    exact List.mem_filter.mpr ⟨ra.mem_all, by simp⟩
  · intro h
    obtain ⟨r, hr, hmem⟩ := List.mem_flatMap.mp h
    have hle : r.rank ≤ ra.rank := by simpa using (List.mem_filter.mp hr).2
    have := hb.2 r (mem_roleColumns.mp hmem)
    omega

/-- A column with a role has a strongest one. -/
theorem exists_bestRole {role : Role} {column : String}
    (h : Serves caps clauses branch role column) : ∃ r, BestRole caps clauses branch r column := by
  -- any role that is not the strongest leads to one of a smaller rank
  induction hk : role.rank using Nat.strongRecOn generalizing role with
  | _ k ih =>
    by_cases hbest : ∀ other, Serves caps clauses branch other column → role.rank ≤ other.rank
    · exact ⟨role, h, hbest⟩
    · push Not at hbest
      obtain ⟨other, hother, hlt⟩ := hbest
      exact ih other.rank (by omega) hother rfl

end Roles

/-! ### Predicates that never contribute -/

/-- Whether a predicate is of a kind that an index can serve. -/
def Predicate.isIndexable (p : Predicate) : Bool :=
  p.kind == .equality || p.kind == .range

/-- Predicates that no index supports may be left out before the columns are taken. -/
private theorem filterMap_filter_isIndexable {β : Type} {f : Predicate → Option β}
    (hf : ∀ p, p.isIndexable = false → f p = none) (branch : List Predicate) :
    (branch.filter (·.isIndexable)).filterMap f = branch.filterMap f := by
  rw [List.filterMap_filter]
  refine List.filterMap_congr fun p _ => ?_
  by_cases h : p.isIndexable = true
  · rw [if_pos h]
  · rw [if_neg h, hf p (by simpa using h)]

private theorem equalityColumn?_of_not_isIndexable {p : Predicate} (h : p.isIndexable = false) :
    Candidate.equalityColumn? p = none := by
  rw [Predicate.isIndexable, Bool.or_eq_false_iff] at h
  simp [Candidate.equalityColumn?, h.1]

private theorem rangeColumn?_of_not_isIndexable {p : Predicate} (h : p.isIndexable = false) :
    Candidate.rangeColumn? p = none := by
  rw [Predicate.isIndexable, Bool.or_eq_false_iff] at h
  simp [Candidate.rangeColumn?, h.2]

/-- A candidate depends on the indexable predicates of its branch only. -/
theorem ofBranch_filter_isIndexable (caps : Capabilities) (clauses : Clauses)
    (branch : List Predicate) :
    Candidate.ofBranch caps clauses (branch.filter (·.isIndexable)) =
      Candidate.ofBranch caps clauses branch := by
  have hmentions : Candidate.mentions caps clauses (branch.filter (·.isIndexable)) =
      Candidate.mentions caps clauses branch := by
    simp only [Candidate.mentions, Candidate.equalityMentions]
    rw [filterMap_filter_isIndexable fun p hp => by rw [equalityColumn?_of_not_isIndexable hp]; rfl,
      filterMap_filter_isIndexable fun p hp => by rw [rangeColumn?_of_not_isIndexable hp]; rfl]
  have hliterals : (branch.filter (·.isIndexable)).filter
        (fun p => p.isLiteral && (Candidate.equalityColumn? p).isSome) =
      branch.filter fun p => p.isLiteral && (Candidate.equalityColumn? p).isSome := by
    rw [List.filter_filter]
    refine List.filter_congr fun p _ => ?_
    by_cases h : p.isIndexable = true
    · rw [h, Bool.and_true]
    · rw [equalityColumn?_of_not_isIndexable (by simpa using h)]
      simp
  simp only [Candidate.ofBranch, hmentions, hliterals]

/-! ### The candidates of a query -/

/-- The branches that a query is searched by: those of its `WHERE` clause, or a single empty one if
there are none. -/
def Clauses.searchBranches (clauses : Clauses) : List (List Predicate) :=
  if clauses.branches.isEmpty then [[]] else clauses.branches

/-- The reason lists the key columns with their motives, in key order, before anything else. -/
theorem reason_ofBranch (caps : Capabilities) (clauses : Clauses) (branch : List Predicate)
    (query : Query) :
    ∃ extras, Advice.reason caps query (Candidate.ofBranch caps clauses branch) =
      "; ".intercalate (", ".intercalate
        ((Candidate.ofBranch caps clauses branch).columns.map fun column => column ++ " (" ++
          ", ".intercalate (motivesOf (Candidate.mentions caps clauses branch) column) ++ ")") ::
        extras) := by
  simp only [Advice.reason, Candidate.columns, key_ofBranch, columns_keyOf]
  rw [keyOf, List.map_map]
  exact ⟨_, rfl⟩

/-- **Key columns are ordered by role.** A query has one candidate for each of its branches. The key
columns of a branch are the first occurrences of: the columns of its equalities and of the
executable joins merged by position, its range columns, the columns grouped by and the columns
sorted by. So of two columns the one with the stronger best role comes first, predicates of other
kinds have no say, and the reason gives at least one motive for each key column, in key order. -/
theorem candidates_ordered_by_role (caps : Capabilities) (clauses : Clauses) :
    Candidate.ofClauses caps clauses =
        clauses.searchBranches.map (Candidate.ofBranch caps clauses) ∧
    ∀ branch,
      let columns := (Candidate.ofBranch caps clauses branch).columns
      (∃ merged : List Mention,
        merged.Perm (branchMentions branch ++ joinMentions caps clauses) ∧
        merged.Pairwise Mention.Precedes ∧
        columns = (merged.map (·.column) ++ branch.filterMap Candidate.rangeColumn? ++
          clauses.groupBy ++ clauses.orderBy.map (·.column)).eraseDups) ∧
      (∀ column, column ∈ columns ↔ ∃ role, BestRole caps clauses branch role column) ∧
      (∀ a b ra rb, BestRole caps clauses branch ra a → BestRole caps clauses branch rb b →
        ra.rank < rb.rank → columns.idxOf a < columns.idxOf b) ∧
      Candidate.ofBranch caps clauses (branch.filter (·.isIndexable)) =
        Candidate.ofBranch caps clauses branch ∧
      (∀ column ∈ columns, motivesOf (Candidate.mentions caps clauses branch) column ≠ []) ∧
      ∀ query, ∃ extras, Advice.reason caps query (Candidate.ofBranch caps clauses branch) =
        "; ".intercalate (", ".intercalate (columns.map fun column => column ++ " (" ++
          ", ".intercalate (motivesOf (Candidate.mentions caps clauses branch) column) ++ ")") ::
          extras) := by
  refine ⟨rfl, fun branch => ⟨?_, ?_, ?_, ofBranch_filter_isIndexable caps clauses branch, ?_,
    reason_ofBranch caps clauses branch⟩⟩
  · refine ⟨Candidate.equalityMentions caps clauses branch, perm_sortBy _ _, ?_, ?_⟩
    · exact (pairwise_sortBy Mention.le_total Mention.le_trans _).imp Mention.le_iff.mp
    · rw [columns_ofBranch]
      simp [Role.all, roleColumns]
  · intro column
    rw [mem_columns_ofBranch]
    exact ⟨fun ⟨_, h⟩ => exists_bestRole h, fun ⟨r, h⟩ => ⟨r, h.1⟩⟩
  · exact fun a b ra rb ha hb hlt => idxOf_lt_of_bestRole ha hb hlt
  · intro column hcolumn
    rw [Candidate.columns, key_ofBranch] at hcolumn
    exact motivesOf_ne_nil hcolumn

/-- A search for the open orders of a user since some day, by tenant: a range condition, a null
check and an equality, a join that stands between them in the text, and two columns mentioned
again. -/
def tenantSearch : Clauses where
  branches := [[
    { column := some "created", kind := .range, operator := ">", position := 40 },
    { column := some "closed", kind := .nullCheck, operator := "IS NULL", position := 52 },
    { column := some "tenant", kind := .equality, operator := "=", position := 60 }]]
  joins := [{ localColumn := some "user", remoteTable := "users", position := 25 }]
  groupBy := ["tenant"]
  orderBy := [{ column := "created", direction := "DESC" }]

/-- The search compares the tenant for equality and the day for its range, so the tenant comes
first, and both have a motive. -/
theorem tenant_before_created :
    let caps := Capabilities.of .sqlite none
    let branch := tenantSearch.searchBranches.headD []
    let columns := (Candidate.ofBranch caps tenantSearch branch).columns
    columns = ["user", "tenant", "created"] ∧
      BestRole caps tenantSearch branch .equality "tenant" ∧
      BestRole caps tenantSearch branch .range "created" ∧
      columns.idxOf "tenant" < columns.idxOf "created" ∧
      motivesOf (Candidate.mentions caps tenantSearch branch) "tenant" ≠ [] := by
  intro caps branch columns
  have hroles := (candidates_ordered_by_role caps tenantSearch).2 branch
  have htenant : BestRole caps tenantSearch branch .equality "tenant" :=
    ⟨mem_roleColumns.mp (by decide), fun _ _ => Nat.zero_le _⟩
  have hcreated : BestRole caps tenantSearch branch .range "created" := by
    refine ⟨mem_roleColumns.mp (by decide), fun other hother => ?_⟩
    cases other with
    | equality => exact absurd (mem_roleColumns.mpr hother) (by decide)
    | range => exact Nat.le_refl _
    | group | sort => decide
  refine ⟨by decide, htenant, hcreated, ?_, ?_⟩
  · exact hroles.2.2.1 _ _ _ _ htenant hcreated (by decide)
  · exact hroles.2.2.2.2.1 "tenant" (by decide)

end IndexAdvice
