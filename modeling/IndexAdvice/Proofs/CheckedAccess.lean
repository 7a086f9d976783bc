import Mathlib.Data.List.Basic

/-!
# Checked access

A program that walks over a list by position may read beyond its end, take the least of no numbers,
look up what is not there, or go on from where it already is. `Checked` programs stop with an
`AccessFault` then. The loops of this module are those that more than one program runs; each has a
lemma that gives its result in terms of the list from the first position on.
-/

namespace IndexAdvice

/-- What a partial operation runs into. -/
inductive AccessFault where
  /-- A position that is not in the list. -/
  | outOfRange
  /-- The least of no numbers. -/
  | emptyMinimum
  /-- A key that a map has no entry for. -/
  | missingEntry
  /-- A loop or a recursion that goes on with nothing less than it had. -/
  | noProgress
deriving DecidableEq, Repr

/-- Programs that stop at the first fault. -/
abbrev Checked (α : Type) := Except AccessFault α

namespace Checked

variable {α β : Type}

@[simp]
theorem pure_eq_ok (x : α) : (pure x : Checked α) = .ok x := rfl

@[simp]
theorem ok_bind (x : α) (f : α → Checked β) : (Except.ok x : Checked α) >>= f = f x := rfl

/-! ### Partial operations -/

/-- The item at a position. -/
def item (xs : List α) (i : Nat) : Checked α :=
  match xs[i]? with
  | some x => .ok x
  | none => .error .outOfRange

/-- The `k`th item from the end, counted from one. -/
def itemBack (xs : List α) (k : Nat) : Checked α :=
  if 0 < k ∧ k ≤ xs.length then item xs (xs.length - k) else .error .outOfRange

/-- The least of some numbers. -/
def least (ns : List Nat) : Checked Nat :=
  match ns.min? with
  | some n => .ok n
  | none => .error .emptyMinimum

/-- The entry of a key. -/
def entry (table : List (String × α)) (key : String) : Checked α :=
  match table.lookup key with
  | some x => .ok x
  | none => .error .missingEntry

/-- Evidence that `m` is less than `n`, as a loop or a recursion needs it to go on. -/
def less (m n : Nat) : Checked (PLift (m < n)) :=
  if h : m < n then .ok ⟨h⟩ else .error .noProgress

/-- A checked comparison carries its proof along. -/
theorem less_eq {m n : Nat} (h : m < n) : less m n = .ok ⟨h⟩ :=
  dif_pos h

section

variable {xs rest : List α} {x : α} {i : Nat}

theorem lt_length_of_drop (h : xs.drop i = x :: rest) : i < xs.length := by
  have hlength := congrArg List.length h
  rw [List.length_drop, List.length_cons] at hlength
  omega

theorem length_le_of_drop (h : xs.drop i = []) : xs.length ≤ i :=
  List.drop_eq_nil_iff.mp h

theorem drop_succ (h : xs.drop i = x :: rest) : xs.drop (i + 1) = rest := by
  rw [← List.drop_drop, h, List.drop_one, List.tail_cons]

theorem getElem?_of_drop (h : xs.drop i = x :: rest) : xs[i]? = some x := by
  rw [← Nat.add_zero i, ← List.getElem?_drop, h]
  rfl

/-- An index that leaves something to read is in range. -/
theorem item_eq (h : xs.drop i = x :: rest) : item xs i = .ok x := by
  rw [item, getElem?_of_drop h]

@[simp]
theorem item_zero (x : α) (rest : List α) : item (x :: rest) 0 = .ok x := rfl

/-- The last item is the one a negative index of one names. -/
@[simp]
theorem itemBack_concat (front : List α) (x : α) : itemBack (front ++ [x]) 1 = .ok x := by
  rw [itemBack, if_pos (by simp), item]
  simp

@[simp]
theorem itemBack_two (front : List α) (x y : α) : itemBack (front ++ [x, y]) 2 = .ok x := by
  rw [itemBack, if_pos (by simp), item]
  simp

/-- The last two items and what is before them, read off the list turned around. -/
theorem itemBack_of_reverse {y : α} (h : xs.reverse = y :: x :: rest) :
    itemBack xs 1 = .ok y ∧ itemBack xs 2 = .ok x ∧ xs.dropLast.dropLast = rest.reverse := by
  have hxs : xs = rest.reverse ++ [x] ++ [y] := by
    rw [← List.reverse_reverse xs, h]
    simp
  rw [hxs, itemBack_concat, List.append_assoc]
  exact ⟨rfl, itemBack_two _ x y, by simp⟩

theorem least_eq {ns : List Nat} (h : ns ≠ []) : least ns = .ok (ns.min?.getD 0) := by
  cases ns with
  | nil => exact absurd rfl h
  | cons n ns => rw [least, List.min?_cons, Option.getD_some]

theorem entry_eq {table : List (String × α)} {key : String} (h : table.lookup key = some x) :
    entry table key = .ok x := by
  rw [entry, h]

end

/-! ### The item before -/

/-- The item before position `i`. -/
def previous (xs : List α) (i : Nat) : Option α :=
  (xs.take i).getLast?

section

variable {xs rest : List α} {x : α} {i : Nat}

theorem previous_succ (h : xs.drop i = x :: rest) : previous xs (i + 1) = some x := by
  rw [previous, List.take_add, h, List.take_succ_cons, List.take_zero, List.getLast?_concat]

/-- Behind the first place there is an item to look back at. -/
theorem item_previous (hi : 0 < i) (h : i ≤ xs.length) :
    ∃ x, previous xs i = some x ∧ item xs (i - 1) = .ok x := by
  obtain ⟨k, rfl⟩ := Nat.exists_eq_add_one_of_ne_zero (Nat.ne_of_gt hi)
  have hdrop := List.drop_eq_getElem_cons h
  exact ⟨_, previous_succ hdrop, item_eq hdrop⟩

end

/-! ### Looking around -/

/-- Whether an item with a property is at position `i`. -/
def holdsAt (p : α → Bool) (xs : List α) (i : Nat) : Checked Bool :=
  if i < xs.length then do
    let x ← item xs i
    return p x
  else return false

/-- Whether an item with a property is before position `i`. -/
def holdsBefore (p : α → Bool) (xs : List α) (i : Nat) : Checked Bool :=
  if 0 < i then do
    let x ← item xs (i - 1)
    return p x
  else return false

/-- Testing the next item never faults, since the end of the list is tested first. -/
theorem holdsAt_eq (p : α → Bool) (xs : List α) (i : Nat) :
    holdsAt p xs i = .ok ((xs.drop i).head?.any p) := by
  cases h : xs.drop i with
  | nil =>
    rw [holdsAt, if_neg (Nat.not_lt.mpr (length_le_of_drop h))]
    rfl
  | cons x rest =>
    rw [holdsAt, if_pos (lt_length_of_drop h), item_eq h]
    rfl

/-- Testing the previous item never faults, since the start of the list is tested first. -/
theorem holdsBefore_eq (p : α → Bool) {xs : List α} {i : Nat} (h : i ≤ xs.length) :
    holdsBefore p xs i = .ok ((previous xs i).any p) := by
  rw [holdsBefore]
  by_cases hi : 0 < i
  · obtain ⟨x, hx, hitem⟩ := item_previous hi h
    rw [if_pos hi, hitem, hx]
    rfl
  · obtain rfl : i = 0 := Nat.eq_zero_of_not_pos hi
    rfl

/-! ### Loops -/

/-- The first position from `i` on whose item does not have the property, or the end. -/
def passWhile (p : α → Bool) (xs : List α) (i : Nat) : Checked Nat :=
  if i < xs.length then do
    let x ← item xs i
    if p x then passWhile p xs (i + 1) else return i
  else return i
termination_by xs.length - i

/-- The first position from `i` on whose item has the property. There is no stop at the end. -/
def seek (p : α → Bool) (xs : List α) (i : Nat) : Checked Nat :=
  match h : xs[i]? with
  | none => .error .outOfRange
  | some x => if p x then return i else seek p xs (i + 1)
termination_by xs.length - i
decreasing_by
  have := (List.getElem?_eq_some_iff.mp h).1
  omega

/-- The first position from `i` on whose item has the property, if there is one. -/
def find? (p : α → Bool) (xs : List α) (i : Nat) : Checked (Option Nat) :=
  if i < xs.length then do
    let x ← item xs i
    if p x then return some i else find? p xs (i + 1)
  else return none
termination_by xs.length - i

section

variable {p : α → Bool} {xs rest : List α} {i : Nat}

/-- Passing over items ends at the first one that fails the test, or at the end. -/
theorem passWhile_eq (p : α → Bool) (xs : List α) (i : Nat) :
    passWhile p xs i = .ok (i + ((xs.drop i).takeWhile p).length) := by
  generalize h : xs.drop i = rest
  induction rest generalizing i with
  | nil =>
    rw [passWhile, if_neg (Nat.not_lt.mpr (length_le_of_drop h))]
    rfl
  | cons x rest ih =>
    rw [passWhile, if_pos (lt_length_of_drop h), item_eq h, ok_bind, List.takeWhile_cons]
    split
    · rw [ih _ (drop_succ h), List.length_cons]
      exact congrArg Except.ok (by omega)
    · rfl

/-- What is passed over is dropped. -/
theorem drop_takeWhile (p : α → Bool) (xs : List α) (i : Nat) :
    xs.drop (i + ((xs.drop i).takeWhile p).length) = (xs.drop i).dropWhile p := by
  rw [← List.drop_drop]
  generalize xs.drop i = rest
  calc rest.drop (rest.takeWhile p).length
      = (rest.takeWhile p ++ rest.dropWhile p).drop (rest.takeWhile p).length := by
        rw [List.takeWhile_append_dropWhile]
    _ = rest.dropWhile p := List.drop_left

/-- The search ends if there is something to be found. -/
theorem seek_eq (h : ∃ x ∈ xs.drop i, p x = true) :
    seek p xs i = .ok (i + ((xs.drop i).takeWhile (!p ·)).length) := by
  generalize hrest : xs.drop i = rest at h ⊢
  induction rest generalizing i with
  | nil => simp at h
  | cons x rest ih =>
    rw [seek.eq_def]
    split
    · rename_i hnone
      rw [getElem?_of_drop hrest] at hnone
      cases hnone
    · rename_i y hsome
      obtain rfl : x = y := Option.some.inj ((getElem?_of_drop hrest).symm.trans hsome)
      cases hx : p x with
      | true => simp [hx]
      | false =>
        have hrest' : ∃ y ∈ rest, p y = true := by simpa [hx] using h
        rw [if_neg (by simp), ih (drop_succ hrest) hrest', List.takeWhile_cons, hx]
        exact congrArg Except.ok (by simp; omega)

/-- A search from a place on gives an index of the whole list. -/
theorem find?_eq (p : α → Bool) (xs : List α) (i : Nat) :
    find? p xs i = .ok (((xs.drop i).findIdx? p).map (i + ·)) := by
  generalize h : xs.drop i = rest
  induction rest generalizing i with
  | nil =>
    rw [find?, if_neg (Nat.not_lt.mpr (length_le_of_drop h))]
    rfl
  | cons x rest ih =>
    rw [find?, if_pos (lt_length_of_drop h), item_eq h, ok_bind, List.findIdx?_cons]
    split
    · rfl
    · rw [ih _ (drop_succ h), Option.map_map]
      congr 2
      funext k
      simp only [Function.comp_apply]
      omega

end

/-! ### Programs made of others -/

/-- A program that branches as its result does. -/
theorem ite_eq_ok {c : Prop} [Decidable c] {f : α → β} {x y : Checked β} {u v : α}
    (hx : c → x = .ok (f u)) (hy : ¬ c → y = .ok (f v)) :
    (if c then x else y) = .ok (f (if c then u else v)) := by
  split
  · exact hx ‹_›
  · exact hy ‹_›

/-- A loop whose steps succeed succeeds. -/
theorem mapM_eq {f : α → Checked β} {g : α → β} {xs : List α} (h : ∀ x ∈ xs, f x = .ok (g x)) :
    xs.mapM f = .ok (xs.map g) := by
  induction xs with
  | nil => rfl
  | cons x xs ih =>
    rw [List.mapM_cons, h x List.mem_cons_self, ok_bind,
      ih fun y hy => h y (List.mem_cons_of_mem x hy)]
    rfl

theorem allM_eq {f : α → Checked Bool} {g : α → Bool} {xs : List α}
    (h : ∀ x ∈ xs, f x = .ok (g x)) : xs.allM f = .ok (xs.all g) := by
  induction xs with
  | nil => rfl
  | cons x xs ih =>
    rw [List.allM, h x List.mem_cons_self, ok_bind, List.all_cons]
    cases g x with
    | true => exact ih fun y hy => h y (List.mem_cons_of_mem x hy)
    | false => rfl

theorem findSomeM?_eq {f : α → Checked (Option β)} {g : α → Option β} {xs : List α}
    (h : ∀ x ∈ xs, f x = .ok (g x)) : xs.findSomeM? f = .ok (xs.findSome? g) := by
  induction xs with
  | nil => rfl
  | cons x xs ih =>
    rw [List.findSomeM?, h x List.mem_cons_self, ok_bind, List.findSome?_cons]
    cases g x with
    | none => exact ih fun y hy => h y (List.mem_cons_of_mem x hy)
    | some y => rfl

/-- A running state that every step can take to the next one reaches the end. -/
theorem foldlM_eq {σ : Type} {f : σ → α → Checked σ} {g : σ → α → σ} {xs : List α}
    (h : ∀ s, ∀ x ∈ xs, f s x = .ok (g s x)) (s : σ) : xs.foldlM f s = .ok (xs.foldl g s) := by
  induction xs generalizing s with
  | nil => rfl
  | cons x xs ih =>
    rw [List.foldlM_cons, h s x List.mem_cons_self, ok_bind, List.foldl_cons]
    exact ih (fun s y hy => h s y (List.mem_cons_of_mem x hy)) (g s x)

end Checked

end IndexAdvice
