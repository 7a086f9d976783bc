/-!
# Sorting and grouping

`sortBy` puts a list in order by insertion. It is **stable**: an item moves only past items that it
may not stand before. `perm_sortBy` says that nothing is lost, and `pairwise_sortBy` that the result
is in order, whenever the order is total and transitive.

`groupByFirst` collects keyed items under their keys. The groups come in the order in which their
keys first arrive, and the items of a group in the order in which they arrive.
-/

namespace IndexAdvice

variable {α : Type}

/-- The list with `x` put before the first item that `x` may stand before. -/
def insertBy (le : α → α → Bool) (x : α) : List α → List α
  | [] => [x]
  | y :: ys => if le x y then x :: y :: ys else y :: insertBy le x ys

/-- The items in order; items that may stand either way round stay as they were. -/
def sortBy (le : α → α → Bool) : List α → List α
  | [] => []
  | x :: xs => insertBy le x (sortBy le xs)

/-- The texts in alphabetical order. -/
def sortTexts (texts : List String) : List String :=
  sortBy (fun a b => a ≤ b) texts

/-! ### Nothing is lost -/

theorem perm_insertBy (le : α → α → Bool) (x : α) (ys : List α) :
    (insertBy le x ys).Perm (x :: ys) := by
  induction ys with
  | nil => exact .refl _
  | cons y ys ih =>
    unfold insertBy
    split
    · exact .refl _
    · exact (ih.cons y).trans (.swap x y ys)

/-- Sorting rearranges the items. -/
theorem perm_sortBy (le : α → α → Bool) (xs : List α) : (sortBy le xs).Perm xs := by
  induction xs with
  | nil => exact .refl _
  | cons x xs ih => exact (perm_insertBy le x _).trans (ih.cons x)

@[simp]
theorem mem_sortBy {le : α → α → Bool} {xs : List α} {x : α} : x ∈ sortBy le xs ↔ x ∈ xs :=
  (perm_sortBy le xs).mem_iff

@[simp]
theorem mem_sortTexts {texts : List String} {s : String} : s ∈ sortTexts texts ↔ s ∈ texts :=
  mem_sortBy

/-! ### The result is in order -/

/-- Insertion keeps a list sorted, if the order is total and transitive. -/
theorem pairwise_insertBy {le : α → α → Bool} (total : ∀ a b, le a b = true ∨ le b a = true)
    (trans : ∀ a b c, le a b = true → le b c = true → le a c = true) (x : α) {ys : List α}
    (h : ys.Pairwise fun a b => le a b = true) :
    (insertBy le x ys).Pairwise fun a b => le a b = true := by
  induction ys with
  | nil => simp [insertBy]
  | cons y ys ih =>
    obtain ⟨hy, hys⟩ := List.pairwise_cons.1 h
    unfold insertBy
    split
    · rename_i hxy
      refine List.pairwise_cons.2 ⟨fun b hb => ?_, h⟩
      rcases List.mem_cons.1 hb with rfl | hb
      · exact hxy
      · exact trans _ _ _ hxy (hy b hb)
    · rename_i hxy
      have hyx : le y x = true := (total x y).resolve_left hxy
      refine List.pairwise_cons.2 ⟨fun b hb => ?_, ih hys⟩
      rcases List.mem_cons.1 ((perm_insertBy le x ys).mem_iff.1 hb) with rfl | hb
      · exact hyx
      · exact hy b hb

/-- Sorting by a total and transitive order puts the items in order. -/
theorem pairwise_sortBy {le : α → α → Bool} (total : ∀ a b, le a b = true ∨ le b a = true)
    (trans : ∀ a b c, le a b = true → le b c = true → le a c = true) (xs : List α) :
    (sortBy le xs).Pairwise fun a b => le a b = true := by
  induction xs with
  | nil => exact .nil
  | cons x xs ih => exact pairwise_insertBy total trans x ih

/-! ### Grouping -/

/-- The groups after one more item. -/
def addToGroup (groups : List (String × List α)) (key : String) (item : α) :
    List (String × List α) :=
  if groups.any (·.1 == key) then
    groups.map fun g => if g.1 == key then (g.1, g.2 ++ [item]) else g
  else groups ++ [(key, [item])]

/-- The items under their keys. -/
def groupByFirst (items : List (String × α)) : List (String × List α) :=
  items.foldl (fun groups item => addToGroup groups item.1 item.2) []

/-- A list with `x` at its end, unless `x` is in it already. -/
def addNew [BEq α] (xs : List α) (x : α) : List α :=
  if xs.contains x then xs else xs ++ [x]

end IndexAdvice
