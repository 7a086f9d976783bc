import Mathlib.Data.List.Basic
import IndexAdvice.Naming

/-!
# What index names tell apart

The name of an index joins the names of its table and columns by underscores, which may also stand
inside them. What remains of table and columns are their **words**, the pieces between underscores:
`indexName_eq_iff` says that two indexes have the same name exactly if they have the same words in
the same order, however the words are spread over columns.

Every character of an index name is a word character (`isWordChar_of_mem_indexName`), so the name
can be read where it stands in a statement.
-/

namespace IndexAdvice

open Text

/-! ### Words -/

/-- The words of an index on `columns` of `table`: those of the table, then those of each column. -/
def indexWords (table : String) (columns : List String) : List (List Char) :=
  (table :: columns).flatMap fun name => (indexNamePart name).toList.splitOn '_'

/-- Joining and splitting again splits every part. -/
theorem splitOn_intercalate_parts {parts : List (List Char)} (hne : parts ≠ []) :
    (['_'].intercalate parts).splitOn '_' = parts.flatMap (·.splitOn '_') := by
  induction parts with
  | nil => exact absurd rfl hne
  | cons part parts ih =>
    cases parts with
    | nil => simp [List.intercalate]
    | cons next parts =>
      have hjoin : ['_'].intercalate (part :: next :: parts) =
          part ++ '_' :: ['_'].intercalate (next :: parts) := by
        simp [List.intercalate]
      have hsplit : (part ++ '_' :: ['_'].intercalate (next :: parts)).splitOn '_' =
          part.splitOn '_' ++ (['_'].intercalate (next :: parts)).splitOn '_' :=
        List.splitOnP_append_cons part _ (beq_self_eq_true '_')
      rw [hjoin, hsplit, ih (List.cons_ne_nil next parts)]
      rfl

/-- The name of an index is made of its parts with underscores between them. -/
theorem toList_indexName (table : String) (columns : List String) :
    (indexName table columns).toList = "idx_".toList ++
      ['_'].intercalate ((table :: columns).map fun name => (indexNamePart name).toList) := by
  rw [indexName, String.toList_append, String.toList_intercalate, List.map_map]
  rfl

/-- **An index name tells the words of the index and nothing else.** -/
theorem indexName_eq_iff {table table' : String} {columns columns' : List String} :
    indexName table columns = indexName table' columns' ↔
      indexWords table columns = indexWords table' columns' := by
  have hsplit : ∀ (table : String) (columns : List String),
      (['_'].intercalate ((table :: columns).map fun name => (indexNamePart name).toList)).splitOn
        '_' = indexWords table columns := fun table columns => by
    rw [splitOn_intercalate_parts (by simp), List.flatMap_map]
    rfl
  have hjoin : ∀ (table : String) (columns : List String),
      ['_'].intercalate ((table :: columns).map fun name => (indexNamePart name).toList) =
        ['_'].intercalate (indexWords table columns) := fun table columns => by
    rw [← hsplit, List.intercalate_splitOn]
  rw [← String.toList_inj, toList_indexName, toList_indexName, List.append_cancel_left_eq]
  constructor
  · intro h
    rw [← hsplit, ← hsplit, h]
  · intro h
    rw [hjoin, hjoin, h]

example : indexWords "T" ["b_c"] = indexWords "T" ["b", "c"] := by
  decide +kernel

/-! ### Characters -/

private theorem isWordChar_of_mem_squashNonWord {cs : List Char} {joined : Bool} {c : Char}
    (h : c ∈ squashNonWord joined cs) : isWordChar c = true := by
  have hunderscore : isWordChar '_' = true := by decide
  induction cs generalizing joined with
  | nil => simp [squashNonWord] at h
  | cons d cs ih =>
    rw [squashNonWord] at h
    split at h
    · rcases List.mem_cons.mp h with rfl | h
      · assumption
      · exact ih h
    · split at h
      · exact ih h
      · rcases List.mem_cons.mp h with rfl | h
        · exact hunderscore
        · exact ih h

/-- A part of an index name has word characters only. -/
private theorem isWordChar_of_mem_indexNamePart {name : String} {c : Char}
    (h : c ∈ (indexNamePart name).toList) : isWordChar c = true := by
  rw [indexNamePart, String.toList_ofList, List.mem_reverse] at h
  have hback := (List.dropWhile_sublist _).subset h
  exact isWordChar_of_mem_squashNonWord
    ((List.dropWhile_sublist _).subset (List.mem_reverse.mp hback))

/-- What holds of the characters of some parts and of those between them. -/
theorem forall_mem_intercalate {p : Char → Prop} {sep : List Char} {parts : List (List Char)}
    (hsep : ∀ c ∈ sep, p c) (hparts : ∀ part ∈ parts, ∀ c ∈ part, p c) :
    ∀ c ∈ sep.intercalate parts, p c := by
  induction parts with
  | nil => simp [List.intercalate]
  | cons part parts ih =>
    cases parts with
    | nil => simpa [List.intercalate] using hparts
    | cons next parts =>
      have hrest := ih fun part' h => hparts part' (List.mem_cons_of_mem part h)
      intro c hc
      rw [List.intercalate_cons_cons, List.append_assoc, List.mem_append, List.mem_append] at hc
      rcases hc with hc | hc | hc
      · exact hparts part List.mem_cons_self c hc
      · exact hsep c hc
      · exact hrest c hc

/-- Index names consist of word characters. -/
theorem isWordChar_of_mem_indexName {table : String} {columns : List String} {c : Char}
    (h : c ∈ (indexName table columns).toList) : isWordChar c = true := by
  rw [toList_indexName, List.mem_append] at h
  rcases h with h | h
  · have hlead : "idx_".toList.all isWordChar = true := by decide
    exact List.all_eq_true.mp hlead c h
  · have hsep : ['_'].all isWordChar = true := by decide
    refine forall_mem_intercalate (p := (isWordChar · = true)) (List.all_eq_true.mp hsep)
      (fun part hpart d hd => ?_) c h
    obtain ⟨name, -, rfl⟩ := List.mem_map.mp hpart
    exact isWordChar_of_mem_indexNamePart hd

end IndexAdvice
