import Mathlib.Data.List.Induction
import IndexAdvice.Sorting
import IndexAdvice.Proofs.KeyOrder

/-!
# First arrivals and repeats

Items with keys arrive one after the other. The **first** item of each key and the **repeats** of a
key split the arrivals in two (`length_firsts_add_length_repeats`), and the keys of the first items
are the distinct keys in the order of their first arrival (`map_key_firsts`).

The second part is about groups. `groupByFirst_eq` says in closed form what `groupByFirst` collects:
a group for each distinct key, with all items of that key in order. Items whose keys come in blocks
are not moved by grouping: `regrouped_append` adds one block.
-/

namespace IndexAdvice

variable {α κ : Type}

/-! ### Selecting by what came before -/

/-- The items that pass a test which also sees the items before them. -/
def selectAfter (keep : List α → α → Bool) (xs : List α) : List α :=
  (xs.zipIdx.filter fun x => keep (xs.take x.2) x.1).map (·.1)

section Select

variable {keep : List α → α → Bool} {xs : List α} {x : α}

/-- The test of an item sees all earlier items and no later one. -/
theorem selectAfter_concat :
    selectAfter keep (xs ++ [x]) = selectAfter keep xs ++ if keep xs x then [x] else [] := by
  have hbefore : (xs.zipIdx.filter fun y => keep ((xs ++ [x]).take y.2) y.1) =
      xs.zipIdx.filter fun y => keep (xs.take y.2) y.1 := by
    refine List.filter_congr fun y hy => ?_
    obtain ⟨-, hlt, -⟩ := List.mem_zipIdx hy
    rw [List.take_append_of_le_length (by omega)]
  rw [selectAfter, List.zipIdx_append, List.filter_append, hbefore, List.map_append]
  congr 1
  by_cases h : keep xs x <;> simp [h]

/-- What is kept was tested against the items before it. -/
theorem mem_selectAfter :
    x ∈ selectAfter keep xs ↔ ∃ past rest, xs = past ++ x :: rest ∧ keep past x = true := by
  rw [selectAfter, List.mem_map]
  constructor
  · rintro ⟨⟨y, i⟩, hy, rfl⟩
    obtain ⟨hmem, hkeep⟩ := List.mem_filter.mp hy
    obtain ⟨hlt, rfl⟩ := List.getElem?_eq_some_iff.mp (List.mk_mem_zipIdx_iff_getElem?.mp hmem)
    exact ⟨xs.take i, xs.drop (i + 1), by simp, hkeep⟩
  · rintro ⟨past, rest, rfl, hkeep⟩
    refine ⟨(x, past.length), List.mem_filter.mpr ⟨?_, by simpa using hkeep⟩, rfl⟩
    exact List.mk_mem_zipIdx_iff_getElem?.mpr (by simp)

/-- Later arrivals only add to a selection. -/
theorem selectAfter_append (xs ys : List α) :
    ∃ new, selectAfter keep (xs ++ ys) = selectAfter keep xs ++ new ∧ ∀ y ∈ new, y ∈ ys := by
  induction ys using List.reverseRecOn with
  | nil => exact ⟨[], by simp⟩
  | append_singleton ys y ih =>
    obtain ⟨new, hnew, hmem⟩ := ih
    rw [← List.append_assoc, selectAfter_concat, hnew, List.append_assoc]
    refine ⟨_, rfl, fun z hz => ?_⟩
    rcases List.mem_append.mp hz with hz | hz
    · exact List.mem_append_left _ (hmem z hz)
    · split at hz
      · exact List.mem_append_right _ hz
      · simp at hz

theorem mem_of_mem_selectAfter (h : x ∈ selectAfter keep xs) : x ∈ xs := by
  obtain ⟨past, rest, rfl, -⟩ := mem_selectAfter.mp h
  simp

/-- Arrivals that are judged without regard to earlier ones are selected by themselves. -/
theorem selectAfter_append_of_forall {ys : List α}
    (h : ∀ past, ∀ y ∈ ys, keep (xs ++ past) y = keep past y) :
    selectAfter keep (xs ++ ys) = selectAfter keep xs ++ selectAfter keep ys := by
  induction ys using List.reverseRecOn with
  | nil => simp [selectAfter]
  | append_singleton ys y ih =>
    rw [← List.append_assoc, selectAfter_concat, selectAfter_concat, h ys y (by simp),
      ih fun past z hz => h past z (List.mem_append_left _ hz), List.append_assoc]

end Select

/-! ### First items and repeats of a key -/

section Keys

variable [BEq κ] (key : α → κ)

/-- The items whose key no earlier item has. -/
def firsts (xs : List α) : List α :=
  selectAfter (fun past x => !(past.map key).contains (key x)) xs

/-- The items whose key an earlier item has. -/
def repeats (xs : List α) : List α :=
  selectAfter (fun past x => (past.map key).contains (key x)) xs

/-- A test that only sees whether the key of an item is known: that of first items negates, that of
repeats does not. -/
def judgedByKey (judge : Bool → Bool) (past : List α) (x : α) : Bool :=
  judge ((past.map key).contains (key x))

theorem mem_of_mem_firsts {key : α → κ} {xs : List α} {x : α} (h : x ∈ firsts key xs) : x ∈ xs :=
  mem_of_mem_selectAfter h

/-- Every item is the first of its key or a repeat. -/
theorem mem_firsts_or_mem_repeats {key : α → κ} {xs : List α} {x : α} (h : x ∈ xs) :
    x ∈ firsts key xs ∨ x ∈ repeats key xs := by
  obtain ⟨past, rest, rfl⟩ := List.append_of_mem h
  cases hknown : (past.map key).contains (key x) with
  | true => exact .inr (mem_selectAfter.mpr ⟨past, rest, rfl, hknown⟩)
  | false => exact .inl (mem_selectAfter.mpr ⟨past, rest, rfl, by rw [hknown]; rfl⟩)

/-- Later arrivals only add to the first items. -/
theorem firsts_append (xs ys : List α) :
    ∃ new, firsts key (xs ++ ys) = firsts key xs ++ new ∧ ∀ y ∈ new, y ∈ ys :=
  selectAfter_append xs ys

/-- A further item is a first one if its key is new. -/
theorem firsts_concat (xs : List α) (x : α) :
    firsts key (xs ++ [x]) =
      if (xs.map key).contains (key x) then firsts key xs else firsts key xs ++ [x] := by
  rw [firsts, selectAfter_concat]
  cases (xs.map key).contains (key x) <;> simp [firsts]

/-- A further item is a repeat if its key has been there. -/
theorem repeats_concat (xs : List α) (x : α) :
    repeats key (xs ++ [x]) =
      if (xs.map key).contains (key x) then repeats key xs ++ [x] else repeats key xs := by
  rw [repeats, selectAfter_concat]
  cases (xs.map key).contains (key x) <;> simp [repeats]

/-- First items and repeats are all items. -/
theorem length_firsts_add_length_repeats (xs : List α) :
    (firsts key xs).length + (repeats key xs).length = xs.length := by
  induction xs using List.reverseRecOn with
  | nil => rfl
  | append_singleton xs x ih =>
    rw [firsts_concat, repeats_concat, List.length_append, ← ih]
    split <;> simp <;> omega

example :
    firsts (· % 3) [1, 2, 4, 3, 5] = [1, 2, 3] ∧ repeats (· % 3) [1, 2, 4, 3, 5] = [4, 5] := by
  decide

variable [LawfulBEq κ]

/-- The first items have each key once, in the order of first arrival. -/
theorem map_key_firsts (xs : List α) : (firsts key xs).map key = (xs.map key).eraseDups := by
  induction xs using List.reverseRecOn with
  | nil => rfl
  | append_singleton xs x ih =>
    rw [firsts_concat, List.map_append, List.map_singleton, eraseDups_concat, ← ih]
    split <;> simp

variable {key}

/-- **Blocks of keys.** Items that arrive block by block, each block with keys of its own, are judged
block by block. -/
theorem selectAfter_flatMap {ι : Type} {home : κ → ι} {made : ι → List α} {judge : Bool → Bool}
    {blocks : List ι} (hnodup : blocks.Nodup) (hat : ∀ b, ∀ x ∈ made b, home (key x) = b) :
    selectAfter (judgedByKey key judge) (blocks.flatMap made) =
      blocks.flatMap fun b => selectAfter (judgedByKey key judge) (made b) := by
  induction blocks using List.reverseRecOn with
  | nil => rfl
  | append_singleton blocks b ih =>
    have hsplit := List.nodup_append.mp hnodup
    rw [List.flatMap_append, List.flatMap_append, List.flatMap_singleton, List.flatMap_singleton,
      ← ih hsplit.1]
    refine selectAfter_append_of_forall fun past y hy => ?_
    -- no item of an earlier block has the key of one of this block
    have hnew : ((blocks.flatMap made).map key).contains (key y) = false := by
      refine Bool.eq_false_iff.mpr fun hmem => ?_
      obtain ⟨x, hx, hkey⟩ := List.mem_map.mp (List.contains_iff_mem.mp hmem)
      obtain ⟨b', hb', hx⟩ := List.mem_flatMap.mp hx
      have hsame : b' = b := (hat b' x hx).symm.trans (by rw [hkey, hat b y hy])
      exact hsplit.2.2 b' hb' b (List.mem_singleton.mpr rfl) hsame
    rw [judgedByKey, judgedByKey, List.map_append, List.contains_append, hnew, Bool.false_or]

/-- A key that has arrived has a first item. -/
theorem exists_first_of_mem {xs : List α} {k : κ} (h : k ∈ xs.map key) :
    ∃ x ∈ firsts key xs, key x = k := by
  rw [← List.mem_eraseDups, ← map_key_firsts] at h
  exact List.mem_map.mp h

/-- Before a repeat stands the first item of its key. -/
theorem exists_first_of_mem_repeats {xs : List α} {x : α} (h : x ∈ repeats key xs) :
    ∃ past rest, xs = past ++ x :: rest ∧ ∃ y ∈ past, y ∈ firsts key xs ∧ key y = key x := by
  obtain ⟨past, rest, rfl, hrepeat⟩ := mem_selectAfter.mp h
  obtain ⟨y, hy, hkey⟩ := exists_first_of_mem (List.contains_iff_mem.mp hrepeat)
  obtain ⟨new, hfirsts, -⟩ := firsts_append key past (x :: rest)
  refine ⟨past, rest, rfl, y, mem_of_mem_firsts hy, ?_, hkey⟩
  rw [hfirsts]
  exact List.mem_append_left new hy

end Keys

/-! ### Groups in closed form -/

section Groups

/-- The items of one key, without the key. -/
def itemsAt (items : List (String × α)) (k : String) : List α :=
  (items.filter (·.1 == k)).map (·.2)

theorem itemsAt_concat (items : List (String × α)) (item : String × α) (k : String) :
    itemsAt (items ++ [item]) k =
      if item.1 == k then itemsAt items k ++ [item.2] else itemsAt items k := by
  rw [itemsAt, List.filter_append, List.map_append]
  by_cases h : (item.1 == k) = true <;> simp [itemsAt, h]

theorem itemsAt_eq_nil {items : List (String × α)} {k : String} (h : k ∉ items.map (·.1)) :
    itemsAt items k = [] := by
  rw [itemsAt, List.map_eq_nil_iff, List.filter_eq_nil_iff]
  rintro item hitem hk
  exact h (List.mem_map.mpr ⟨item, hitem, eq_of_beq hk⟩)

/-- **The groups** are those of the distinct keys, each with all items of its key. -/
theorem groupByFirst_eq (items : List (String × α)) :
    groupByFirst items = (items.map (·.1)).eraseDups.map fun k => (k, itemsAt items k) := by
  induction items using List.reverseRecOn with
  | nil => rfl
  | append_singleton items item ih =>
    have hgroups : groupByFirst (items ++ [item]) =
        addToGroup (groupByFirst items) item.1 item.2 := by
      simp [groupByFirst]
    have hknown : (groupByFirst items).any (·.1 == item.1) =
        (items.map (·.1)).contains item.1 := by
      rw [ih, Bool.eq_iff_iff]
      simp [List.mem_eraseDups]
    rw [hgroups, addToGroup, hknown, List.map_append, List.map_singleton, eraseDups_concat]
    split
    · -- the group of the key takes the item, and the others stay
      rw [ih, List.map_map]
      refine List.map_congr_left fun k _ => ?_
      rw [Function.comp_apply, itemsAt_concat]
      by_cases hk : k = item.1
      · subst hk
        simp
      · have hk' : ¬item.1 = k := fun h => hk h.symm
        simp [hk, hk']
    · -- a new key makes a group of its own
      rename_i hnew
      have hnew : item.1 ∉ items.map (·.1) := by simpa using hnew
      rw [List.map_append, List.map_singleton, itemsAt_concat, if_pos (beq_self_eq_true _),
        itemsAt_eq_nil hnew, List.nil_append, ih]
      refine congrArg (· ++ _) (List.map_congr_left fun k hk => ?_)
      have hne : ¬(item.1 == k) = true := fun h =>
        hnew (eq_of_beq h ▸ List.mem_eraseDups.mp hk)
      rw [itemsAt_concat, if_neg hne]

/-- The items group after group. -/
def regrouped (key : α → String) (xs : List α) : List α :=
  (groupByFirst (xs.map fun x => (key x, x))).flatMap (·.2)

/-- Regrouping takes the keys in the order of their first arrival, and the items of each as they
came. -/
theorem regrouped_eq (key : α → String) (xs : List α) :
    regrouped key xs = (xs.map key).eraseDups.flatMap fun k => xs.filter (key · == k) := by
  rw [regrouped, groupByFirst_eq, List.flatMap_map, List.map_map]
  refine congrArg (List.flatMap · _) (funext fun k => ?_)
  simp [itemsAt, List.filter_map, Function.comp_def]

/-- A block of one new key adds this key once. -/
private theorem eraseDups_append_block {ks new : List String} {k : String} (hk : k ∉ ks)
    (hnew : ∀ k' ∈ new, k' = k) (hne : new ≠ []) : (ks ++ new).eraseDups = ks.eraseDups ++ [k] := by
  obtain ⟨k', rest, rfl⟩ := List.exists_cons_of_ne_nil hne
  obtain rfl : k' = k := hnew k' List.mem_cons_self
  have hall : (k' :: rest).removeAll ks = k' :: rest := by
    refine List.filter_eq_self.mpr fun a ha => ?_
    rw [hnew a ha]
    simpa using hk
  have hrest : rest.filter (fun b => !b == k') = [] := by
    refine List.filter_eq_nil_iff.mpr fun a ha => ?_
    simp [hnew a (List.mem_cons_of_mem _ ha)]
  rw [List.eraseDups_append, hall, List.eraseDups_cons, hrest]
  rfl

/-- Grouping leaves a block of one new key where it is. -/
theorem regrouped_append {key : α → String} {xs ys : List α} {k : String}
    (hys : ∀ y ∈ ys, key y = k) (hk : k ∉ xs.map key) :
    regrouped key (xs ++ ys) = regrouped key xs ++ ys := by
  by_cases hne : ys = []
  · simp [hne]
  have hkeys : ((xs ++ ys).map key).eraseDups = (xs.map key).eraseDups ++ [k] := by
    rw [List.map_append]
    refine eraseDups_append_block hk (fun k' hk' => ?_) (by simpa using hne)
    obtain ⟨y, hy, rfl⟩ := List.mem_map.mp hk'
    exact hys y hy
  have hold : ∀ k' ∈ (xs.map key).eraseDups,
      (xs ++ ys).filter (key · == k') = xs.filter (key · == k') := by
    intro k' hk'
    have hnone : ys.filter (key · == k') = [] := by
      refine List.filter_eq_nil_iff.mpr fun y hy heq => hk ?_
      rw [← hys y hy, eq_of_beq heq]
      exact List.mem_eraseDups.mp hk'
    rw [List.filter_append, hnone, List.append_nil]
  have hblock : (xs ++ ys).filter (key · == k) = ys := by
    have hnone : xs.filter (key · == k) = [] :=
      List.filter_eq_nil_iff.mpr fun x hx heq => hk (List.mem_map.mpr ⟨x, hx, eq_of_beq heq⟩)
    have hall : ys.filter (key · == k) = ys :=
      List.filter_eq_self.mpr fun y hy => by simp [hys y hy]
    rw [List.filter_append, hnone, hall, List.nil_append]
  rw [regrouped_eq, regrouped_eq, hkeys, List.flatMap_append, List.flatMap_congr hold,
    List.flatMap_singleton, hblock]

end Groups

end IndexAdvice
