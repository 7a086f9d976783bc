import Mathlib.Data.List.Lex
import Mathlib.Data.Prod.Lex
import Mathlib.Data.String.Basic
import IndexAdvice.Files.Listing

/-!
# The order of a walk

`ListedBefore` says where two paths part: at a name of each, or where one of them ends as a file in
the directory in which the other goes on. `walkLe` is this order on paths that have a name
(`walkLe_iff`), and it is total and transitive, so that a list of paths is in order in one way only
(`eq_of_pairwise_listedBefore`).
-/

namespace IndexAdvice.Files

/-- Whether a path is listed before another: the own files of a directory come before what lies in
its subdirectories, and otherwise the first names in which the paths differ decide. -/
inductive ListedBefore : List String → List String → Prop
  | files (dirs : List String) {a b : String} (h : a < b) :
    ListedBefore (dirs ++ [a]) (dirs ++ [b])
  | fileFirst (dirs : List String) (a b : String) {bs : List String} (hbs : bs ≠ []) :
    ListedBefore (dirs ++ [a]) (dirs ++ b :: bs)
  | directories (dirs : List String) {a b : String} {as bs : List String} (h : a < b)
    (has : as ≠ []) (hbs : bs ≠ []) : ListedBefore (dirs ++ a :: as) (dirs ++ b :: bs)

variable {as bs : List String}

/-! ### One name more -/

/-- Two paths are listed in the same order below a common directory. -/
theorem ListedBefore.cons (dir : String) (h : ListedBefore as bs) :
    ListedBefore (dir :: as) (dir :: bs) := by
  cases h with
  | files dirs h => exact .files (dir :: dirs) h
  | fileFirst dirs a b hbs => exact .fileFirst (dir :: dirs) a b hbs
  | directories dirs h has hbs => exact .directories (dir :: dirs) h has hbs

/-- The order of paths is decided by the first names that differ. -/
theorem walkLe_cons_self (dir : String) (has : as ≠ []) (hbs : bs ≠ []) :
    walkLe (dir :: as) (dir :: bs) = walkLe as bs := by
  obtain ⟨a, as, rfl⟩ := List.exists_cons_of_ne_nil has
  obtain ⟨b, bs, rfl⟩ := List.exists_cons_of_ne_nil hbs
  simp [walkLe]

theorem walkLe_append_left (dirs : List String) (has : as ≠ []) (hbs : bs ≠ []) :
    walkLe (dirs ++ as) (dirs ++ bs) = walkLe as bs := by
  induction dirs with
  | nil => rfl
  | cons dir dirs ih =>
    rw [List.cons_append, List.cons_append, walkLe_cons_self dir (by simp [has]) (by simp [hbs]),
      ih]

/-! ### The order is strict and total -/

/-- Sorting never puts back what is listed first. -/
theorem ListedBefore.walkLe_eq_false (h : ListedBefore as bs) : walkLe bs as = false := by
  cases h with
  | files dirs h =>
    rw [walkLe_append_left dirs (by simp) (by simp)]
    simpa [walkLe] using h
  | fileFirst dirs a b hbs =>
    obtain ⟨b', bs, rfl⟩ := List.exists_cons_of_ne_nil hbs
    exact walkLe_append_left dirs (by simp) (by simp)
  | directories dirs h has hbs =>
    obtain ⟨a', as, rfl⟩ := List.exists_cons_of_ne_nil has
    obtain ⟨b', bs, rfl⟩ := List.exists_cons_of_ne_nil hbs
    rw [walkLe_append_left dirs (by simp) (by simp)]
    simpa [walkLe, h.ne'] using h

/-- Two paths are the same, or one of them is listed before the other. -/
theorem listedBefore_trichotomy (has : as ≠ []) (hbs : bs ≠ []) :
    as = bs ∨ ListedBefore as bs ∨ ListedBefore bs as := by
  fun_induction walkLe as bs with
  | case1 => exact absurd rfl has
  | case2 => exact absurd rfl hbs
  | case3 a b =>
    obtain h | rfl | h := lt_trichotomy a b
    · exact .inr (.inl (.files [] h))
    · exact .inl rfl
    · exact .inr (.inr (.files [] h))
  | case4 a b b' bs => exact .inr (.inl (.fileFirst [] a b (by simp)))
  | case5 a a' as b => exact .inr (.inr (.fileFirst [] b a (by simp)))
  | case6 a a' as b b' bs heq ih =>
    obtain rfl := eq_of_beq heq
    obtain h | h | h := ih (by simp) (by simp)
    · exact .inl (congrArg _ h)
    · exact .inr (.inl (h.cons a))
    · exact .inr (.inr (h.cons a))
  | case7 a a' as b b' bs hne =>
    obtain h | rfl | h := lt_trichotomy a b
    · exact .inr (.inl (.directories [] h (by simp) (by simp)))
    · exact absurd (beq_self_eq_true a) hne
    · exact .inr (.inr (.directories [] h (by simp) (by simp)))

/-! ### The order is that of keys -/

/-- The names of a path, each with whether it is that of a directory on the way. -/
def walkKey : List String → List (Bool ×ₗ String)
  | [] => []
  | [name] => [toLex (false, name)]
  | dir :: next :: rest => toLex (true, dir) :: walkKey (next :: rest)

theorem key_cons_lt {x y : Bool ×ₗ String} {xs ys : List (Bool ×ₗ String)} :
    x :: xs < y :: ys ↔ x < y ∨ x = y ∧ xs < ys :=
  List.cons_lt_cons_iff

/-- Paths are compared as their keys are, name by name, with files before directories. -/
theorem walkLe_iff (as bs : List String) : walkLe as bs = true ↔ walkKey as ≤ walkKey bs := by
  -- Order on lists is given by `<`, and `≤` is only its negation.
  rw [← not_lt]
  fun_induction walkLe as bs with
  | case1 bs => exact iff_of_true rfl (List.not_lt_nil _)
  | case2 b bs => cases bs <;> exact iff_of_false (by simp) (not_not_intro (List.nil_lt_cons _ _))
  | case3 a b =>
    rw [decide_eq_true_eq, ← not_lt]
    simp [walkKey, key_cons_lt, Prod.Lex.toLex_lt_toLex]
  | case4 a b b' bs => simp [walkKey, key_cons_lt, Prod.Lex.toLex_lt_toLex]
  | case5 a a' as b => simp [walkKey, key_cons_lt, Prod.Lex.toLex_lt_toLex]
  | case6 a a' as b b' bs heq ih =>
    obtain rfl := eq_of_beq heq
    simp [walkKey, ih]
  | case7 a a' as b b' bs hne =>
    have hba : b ≠ a := fun h => hne (by simp [h])
    rw [decide_eq_true_eq, ← not_lt]
    simp [walkKey, key_cons_lt, Prod.Lex.toLex_lt_toLex, hba]

theorem walkLe_total (as bs : List String) : walkLe as bs = true ∨ walkLe bs as = true := by
  rw [walkLe_iff, walkLe_iff]
  exact le_total _ _

theorem walkLe_trans (as bs cs : List String) (hab : walkLe as bs = true)
    (hbc : walkLe bs cs = true) : walkLe as cs = true := by
  rw [walkLe_iff] at hab hbc ⊢
  exact hab.trans hbc

/-- What is in order and not the same is listed before. -/
theorem listedBefore_of_walkLe (has : as ≠ []) (hbs : bs ≠ []) (hle : walkLe as bs = true)
    (hne : as ≠ bs) : ListedBefore as bs := by
  obtain h | h | h := listedBefore_trichotomy has hbs
  · exact absurd h hne
  · exact h
  · exact absurd hle (by rw [h.walkLe_eq_false]; exact Bool.false_ne_true)

theorem ListedBefore.irrefl (as : List String) : ¬ListedBefore as as := fun h => by
  have hle : walkLe as as = true := (walkLe_total as as).elim id id
  exact absurd hle (by rw [h.walkLe_eq_false]; exact Bool.false_ne_true)

theorem ListedBefore.asymm (h : ListedBefore as bs) : ¬ListedBefore bs as := fun h' => by
  have hle := walkLe_total as bs
  rw [h.walkLe_eq_false, h'.walkLe_eq_false] at hle
  exact hle.elim Bool.false_ne_true Bool.false_ne_true

/-! ### Lists in order -/

variable {paths paths' : List (List String)}

/-- Paths listed in order are all different, as none is listed before itself. -/
theorem nodup_of_pairwise (h : paths.Pairwise ListedBefore) : paths.Nodup := by
  refine List.nodup_iff_pairwise_ne.mpr (h.imp ?_)
  rintro as _ hbefore rfl
  exact ListedBefore.irrefl as hbefore

/-- Paths are in order in one way only. -/
theorem eq_of_pairwise_listedBefore (h : paths.Pairwise ListedBefore)
    (h' : paths'.Pairwise ListedBefore) (hmem : ∀ names, names ∈ paths ↔ names ∈ paths') :
    paths = paths' :=
  List.Perm.eq_of_pairwise (fun _ _ _ _ hbefore hafter => absurd hafter hbefore.asymm) h h'
    ((List.perm_ext_iff_of_nodup (nodup_of_pairwise h) (nodup_of_pairwise h')).mpr hmem)

/-- Sorting puts paths with a name in order. -/
theorem pairwise_listedBefore_sortBy (hnodup : paths.Nodup) (hne : ∀ names ∈ paths, names ≠ []) :
    (sortBy walkLe paths).Pairwise ListedBefore := by
  have hsorted := pairwise_sortBy walkLe_total walkLe_trans paths
  have hdistinct : (sortBy walkLe paths).Nodup := (perm_sortBy _ _).nodup_iff.mpr hnodup
  refine (hsorted.and hdistinct).imp_of_mem fun {as bs} has hbs h => ?_
  exact listedBefore_of_walkLe (hne as (mem_sortBy.mp has)) (hne bs (mem_sortBy.mp hbs)) h.1 h.2

end IndexAdvice.Files
