import Mathlib.Data.List.Forall2

/-!
# Lists related item by item

Two readings of one query are compared item by item, so that `List.Forall₂` relates what they list.
The lemmas here say how the functions that build lists from lists respect such a relation, and when
they give equal results.
-/

namespace IndexAdvice

variable {α β γ δ : Type} {P : α → β → Prop} {Q : γ → δ → Prop} {xs : List α} {ys : List β}

/-- Related items are members of their lists. -/
theorem forall₂_mem (h : List.Forall₂ P xs ys) :
    List.Forall₂ (fun x y => P x y ∧ x ∈ xs ∧ y ∈ ys) xs ys := by
  induction h with
  | nil => exact .nil
  | cons hxy _ ih =>
    refine .cons ⟨hxy, List.mem_cons_self, List.mem_cons_self⟩ (ih.imp fun _ _ h => ?_)
    exact ⟨h.1, List.mem_cons_of_mem _ h.2.1, List.mem_cons_of_mem _ h.2.2⟩

/-- What is related to a list has a partner in it for each of its items. -/
theorem exists_of_mem_forall₂ {y : β} (h : List.Forall₂ P xs ys) (hy : y ∈ ys) :
    ∃ x ∈ xs, P x y := by
  induction h with
  | nil => exact absurd hy List.not_mem_nil
  | cons hxy _ ih =>
    rcases List.mem_cons.mp hy with rfl | hy
    · exact ⟨_, List.mem_cons_self, hxy⟩
    · obtain ⟨x, hx, hxy⟩ := ih hy
      exact ⟨x, List.mem_cons_of_mem _ hx, hxy⟩

/-- Of related lists, the items with a property are related to some of the others, in order. -/
theorem exists_forall₂_filter {p : β → Bool} (h : List.Forall₂ P xs ys) :
    ∃ zs, List.Sublist zs xs ∧ List.Forall₂ (fun x y => P x y ∧ p y = true) zs (ys.filter p) := by
  induction h with
  | nil => exact ⟨[], .slnil, .nil⟩
  | @cons x y xs ys hxy _ ih =>
    obtain ⟨zs, hsub, hforall⟩ := ih
    by_cases hy : p y = true
    · rw [List.filter_cons_of_pos hy]
      exact ⟨x :: zs, hsub.cons_cons x, .cons ⟨hxy, hy⟩ hforall⟩
    · rw [List.filter_cons_of_neg hy]
      exact ⟨zs, hsub.cons x, hforall⟩

/-- What is related to two lists one after the other is two lists related to them. -/
theorem exists_of_forall₂_append {zs : List β} {us : List α} (h : List.Forall₂ P (xs ++ us) zs) :
    ∃ ys vs, zs = ys ++ vs ∧ List.Forall₂ P xs ys ∧ List.Forall₂ P us vs := by
  induction xs generalizing zs with
  | nil => exact ⟨[], zs, rfl, .nil, h⟩
  | cons x xs ih =>
    obtain ⟨y, zs, hxy, hrest, rfl⟩ := List.forall₂_cons_left_iff.mp h
    obtain ⟨ys, vs, rfl, hxs, hus⟩ := ih hrest
    exact ⟨y :: ys, vs, rfl, .cons hxy hxs, hus⟩

theorem forall₂_modifyHead {f : α → α} {g : β → β} (h : List.Forall₂ P xs ys)
    (hfg : ∀ x y, P x y → P (f x) (g y)) : List.Forall₂ P (xs.modifyHead f) (ys.modifyHead g) := by
  cases h with
  | nil => exact .nil
  | cons hxy h => exact .cons (hfg _ _ hxy) h

theorem forall₂_flatMap {f : α → List γ} {g : β → List δ} (h : List.Forall₂ P xs ys)
    (hfg : ∀ x ∈ xs, ∀ y, P x y → List.Forall₂ Q (f x) (g y)) :
    List.Forall₂ Q (xs.flatMap f) (ys.flatMap g) := by
  induction h with
  | nil => exact .nil
  | cons hxy _ ih =>
    rw [List.flatMap_cons, List.flatMap_cons]
    exact List.rel_append (hfg _ List.mem_cons_self _ hxy)
      (ih fun x hx => hfg x (List.mem_cons_of_mem _ hx))

theorem findSome?_rel {f : α → Option γ} {g : β → Option δ} (h : List.Forall₂ P xs ys)
    (hfg : ∀ x ∈ xs, ∀ y, P x y → Option.Rel Q (f x) (g y)) :
    Option.Rel Q (xs.findSome? f) (ys.findSome? g) := by
  induction h with
  | nil => exact .none
  | @cons x y xs ys hxy _ ih =>
    have hhead := hfg x List.mem_cons_self y hxy
    rw [List.findSome?_cons, List.findSome?_cons]
    revert hhead
    generalize f x = o, g y = o'
    rintro (hsome | _)
    · exact .some hsome
    · exact ih fun x hx => hfg x (List.mem_cons_of_mem _ hx)

/-! ### Equal results -/

/-- Lists with the same values correspond to each other. -/
theorem forall₂_of_map_eq {f : α → γ} {g : β → γ} (h : ys.map g = xs.map f) :
    List.Forall₂ (fun x y => g y = f x) xs ys := by
  have heq : List.Forall₂ (fun u v => v = u) (xs.map f) (ys.map g) := by
    rw [h]
    exact List.forall₂_same.mpr fun _ _ => rfl
  rwa [List.forall₂_map_left_iff, List.forall₂_map_right_iff] at heq

theorem map_eq_of_forall₂ {f : α → γ} {g : β → γ} (h : List.Forall₂ P xs ys)
    (hfg : ∀ x y, P x y → f x = g y) : xs.map f = ys.map g := by
  induction h with
  | nil => rfl
  | cons hxy _ ih => rw [List.map_cons, List.map_cons, hfg _ _ hxy, ih]

theorem findSome?_congr {f g : α → Option γ} (h : ∀ x ∈ xs, f x = g x) :
    xs.findSome? f = xs.findSome? g := by
  induction xs with
  | nil => rfl
  | cons x xs ih =>
    rw [List.findSome?_cons, List.findSome?_cons, h x List.mem_cons_self,
      ih fun y hy => h y (List.mem_cons_of_mem x hy)]

theorem filterMap_eq_of_forall₂ {f : α → Option γ} {g : β → Option γ} (h : List.Forall₂ P xs ys)
    (hfg : ∀ x y, P x y → f x = g y) : xs.filterMap f = ys.filterMap g := by
  have hmap := congrArg (List.filterMap id) (map_eq_of_forall₂ h hfg)
  rwa [List.filterMap_map, List.filterMap_map, Function.id_comp, Function.id_comp] at hmap

theorem flatMap_eq_of_forall₂ {f : α → List γ} {g : β → List γ} (h : List.Forall₂ P xs ys)
    (hfg : ∀ x y, P x y → f x = g y) : xs.flatMap f = ys.flatMap g := by
  rw [List.flatMap_def, List.flatMap_def, map_eq_of_forall₂ h hfg]

end IndexAdvice
