import IndexAdvice.Clause.Condition
import IndexAdvice.Clause.JoinTarget
import IndexAdvice.Proofs.AlikeParts
import IndexAdvice.Proofs.LetterCase
import IndexAdvice.Proofs.Locating

/-!
# Restated tokens

A token is **restated** in another text if it stands there with the same kind and depth, in any
letter case, and a fixed number of characters further on (`Token.Restated`). Restated lists are cut
into restated parts, and references are read in them that differ in letter case at most.
-/

namespace IndexAdvice

open Text

variable {a : Nat}

/-! ### Lists -/

section

variable {α β : Type} {P : α → β → Prop} {xs : List α} {ys : List β} {p : α → Bool} {q : β → Bool}

theorem forall₂_dropWhile (h : List.Forall₂ P xs ys) (hpq : ∀ x y, P x y → p x = q y) :
    List.Forall₂ P (xs.dropWhile p) (ys.dropWhile q) := by
  induction h with
  | nil => exact .nil
  | cons hxy hrest ih =>
    rw [List.dropWhile_cons, List.dropWhile_cons, hpq _ _ hxy]
    split
    · exact ih
    · exact .cons hxy hrest

theorem forall₂_takeWhile (h : List.Forall₂ P xs ys) (hpq : ∀ x y, P x y → p x = q y) :
    List.Forall₂ P (xs.takeWhile p) (ys.takeWhile q) := by
  induction h with
  | nil => exact .nil
  | cons hxy _ ih =>
    rw [List.takeWhile_cons, List.takeWhile_cons, hpq _ _ hxy]
    split
    · exact .cons hxy ih
    · exact .nil

/-- Related items answer the same question alike, so the first ones do. -/
theorem head?_any_of_forall₂ (h : List.Forall₂ P xs ys) (hpq : ∀ x y, P x y → p x = q y) :
    xs.head?.any p = ys.head?.any q := by
  cases h with
  | nil => rfl
  | cons hxy _ => exact hpq _ _ hxy

theorem isEmpty_of_forall₂ (h : List.Forall₂ P xs ys) : xs.isEmpty = ys.isEmpty := by
  cases h <;> rfl

theorem all_of_forall₂ (h : List.Forall₂ P xs ys) (hpq : ∀ x y, P x y → p x = q y) :
    xs.all p = ys.all q := by
  induction h with
  | nil => rfl
  | cons hxy _ ih => rw [List.all_cons, List.all_cons, hpq _ _ hxy, ih]

theorem forall₂_tail (h : List.Forall₂ P xs ys) : List.Forall₂ P xs.tail ys.tail := by
  cases h with
  | nil => exact .nil
  | cons _ hrest => exact hrest

theorem forall₂_dropLast (h : List.Forall₂ P xs ys) :
    List.Forall₂ P xs.dropLast ys.dropLast := by
  rw [List.dropLast_eq_take, List.dropLast_eq_take, h.length_eq]
  exact List.forall₂_take _ h

end

namespace Token

/-- What `t` says, `a` characters further on in another text. -/
structure Restated (a : Nat) (t t' : Token) : Prop where
  kind : t.kind = t'.kind
  depth : t.depth = t'.depth
  text : Recased t.text t'.text
  start : t'.start = t.start + a
  stop : t'.stop = t.stop + a

variable {t t' : Token} {ts ts' part part' : List Token}

namespace Restated

theorem upper (h : Restated a t t') : t.upper = t'.upper :=
  upper_of_recased h.text

theorem isKeyword (h : Restated a t t') (keywords : List String) :
    t.isKeyword keywords = t'.isKeyword keywords := by
  rw [Token.isKeyword, Token.isKeyword, h.kind, h.upper]

theorem isIdentifier (h : Restated a t t') : t.isIdentifier = t'.isIdentifier := by
  rw [Token.isIdentifier, Token.isIdentifier, h.kind]

/-- A mark without letters is written in one way only. -/
theorem text_beq (h : Restated a t t') (mark : String)
    (hmark : Text.letterless mark.toList = true) : (t.text == mark) = (t'.text == mark) := by
  rw [Bool.eq_iff_iff, beq_iff_eq, beq_iff_eq, h.text.eq_iff hmark]

theorem contains_text (h : Restated a t t') (marks : List String)
    (hmarks : (marks.all fun mark => Text.letterless mark.toList) = true) :
    marks.contains t.text = marks.contains t'.text := by
  rw [Bool.eq_iff_iff, List.contains_iff_exists_mem_beq, List.contains_iff_exists_mem_beq]
  refine exists_congr fun mark => and_congr_right fun hmem => ?_
  rw [h.text_beq mark (List.all_eq_true.mp hmarks mark hmem)]

theorem name (h : Restated a t t') : Recased t.name t'.name := by
  have htext := h.text
  simp only [Recased] at htext
  rw [Token.name, Token.name, ← h.kind]
  split
  · cases hcs : t.text.toList with
    | nil =>
      rw [hcs] at htext
      rw [List.map_eq_nil_iff.mp htext.symm]
      exact h.text
    | cons c cs =>
      cases hcs' : t'.text.toList with
      | nil => simp [hcs, hcs'] at htext
      | cons c' cs' =>
        rw [hcs, hcs', List.map_cons, List.map_cons, List.cons.injEq] at htext
        cases cs with
        | nil =>
          rw [List.map_eq_nil_iff.mp htext.2.symm]
          exact h.text
        | cons d ds =>
          cases cs' with
          | nil => simp at htext
          | cons d' ds' =>
            simp only [Recased, String.toList_ofList, List.map_dropLast, htext.2]
  · exact h.text

end Restated

/-! ### Locating -/

/-- **Locating.** Pieces that differ in letter case at most are located as restated tokens. -/
theorem restated_locate {ps ps' : List Piece}
    (h : List.Forall₂ (fun p p' => p.kind = p'.kind ∧
      p.text.map Char.toLower = p'.text.map Char.toLower) ps ps') (start depth : Nat) :
    List.Forall₂ (Restated a) (locate start depth ps) (locate (start + a) depth ps') := by
  induction h generalizing start depth with
  | nil => exact .nil
  | @cons p p' ps ps' hp _ ih =>
    obtain ⟨kind, text⟩ := p
    obtain ⟨kind', text'⟩ := p'
    obtain ⟨rfl, htext⟩ : kind = kind' ∧ text.map Char.toLower = text'.map Char.toLower := hp
    have hlength : text.length = text'.length := by simpa using congrArg List.length htext
    have ih (depth : Nat) := ih (start + text.length) depth
    rw [Nat.add_right_comm, hlength] at ih
    cases kind with
    | none =>
      rw [locate_none, locate_none, hlength]
      exact ih depth
    | some kind =>
      rw [locate_some, locate_some, hlength]
      refine .cons ⟨rfl, rfl, ?_, rfl, ?_⟩ (ih _)
      · simpa [Recased, ofPiece] using htext
      · simp only [ofPiece, hlength, Nat.add_right_comm]

/-! ### Cutting -/

theorem baseDepth_of_restated (h : List.Forall₂ (Restated a) ts ts') :
    baseDepth ts = baseDepth ts' := by
  rw [baseDepth, baseDepth, map_eq_of_forall₂ h fun _ _ h => h.depth]

theorem closing?_of_restated (h : List.Forall₂ (Restated a) ts ts') (depth : Nat) :
    closing? depth ts = closing? depth ts' := by
  have hmap : closing? depth ts = (ts.map fun t => (t.kind, t.depth)).findIdx?
      fun x => x.1 == .rparen && x.2 == depth := by
    rw [List.findIdx?_map]
    rfl
  rw [hmap, map_eq_of_forall₂ h fun t t' h => congrArg₂ Prod.mk h.kind h.depth, List.findIdx?_map]
  rfl

theorem isWrapped_of_restated (h : List.Forall₂ (Restated a) ts ts') :
    isWrapped ts = isWrapped ts' := by
  cases h with
  | nil => rfl
  | cons ht hrest =>
    have hclosing := closing?_of_restated hrest
    have hlength := hrest.length_eq
    have hlast := head?_any_of_forall₂ (List.forall₂_reverse_iff.mpr hrest) (p := (·.kind == .rparen))
      (q := (·.kind == .rparen)) fun _ _ h => by rw [h.kind]
    rw [List.head?_reverse, List.head?_reverse] at hlast
    cases hrest with
    | nil => rfl
    | cons hu hus =>
      rw [isWrapped, isWrapped, hlast, ht.kind]
      simp only [matchingParen, List.getElem?_cons_zero, List.drop_succ_cons, List.drop_zero,
        hclosing, ht.depth, List.length_cons, hus.length_eq]

theorem forall₂_flush (h : List.Forall₂ (Restated a) part part') :
    List.Forall₂ (List.Forall₂ (Restated a)) (flush part) (flush part') := by
  rw [flush, flush, isEmpty_of_forall₂ h]
  split
  · exact .nil
  · exact .cons (List.forall₂_reverse_iff.mpr h) .nil

/-- **Cutting.** Restated lists are cut into restated parts. -/
theorem forall₂_cutFrom {sep : Token → Bool} (hsep : ∀ t t', Restated a t t' → sep t = sep t')
    (base : Nat) (b w : Bool) (hpart : List.Forall₂ (Restated a) part part')
    (h : List.Forall₂ (Restated a) ts ts') :
    List.Forall₂ (List.Forall₂ (Restated a)) (cutFrom base sep b w part ts)
      (cutFrom base sep b w part' ts') := by
  induction h generalizing w part part' with
  | nil => exact forall₂_flush hpart
  | cons ht _ ih =>
    rw [cutFrom, cutFrom, ht.depth, ht.isKeyword, hsep _ _ ht]
    split
    · exact ih true (.cons ht hpart)
    · split
      · split
        · exact ih false (.cons ht hpart)
        · exact List.rel_append (forall₂_flush hpart) (ih w .nil)
      · exact ih w (.cons ht hpart)

/-- OR divides restated tokens at the same places. -/
theorem forall₂_alternatives (h : List.Forall₂ (Restated a) ts ts') :
    List.Forall₂ (List.Forall₂ (Restated a)) (alternatives ts) (alternatives ts') := by
  rw [alternatives, alternatives, baseDepth_of_restated h]
  exact forall₂_cutFrom (fun _ _ h => h.isKeyword _) _ _ _ .nil h

/-- So does AND. -/
theorem forall₂_conjuncts (h : List.Forall₂ (Restated a) ts ts') :
    List.Forall₂ (List.Forall₂ (Restated a)) (conjuncts ts) (conjuncts ts') := by
  rw [conjuncts, conjuncts, baseDepth_of_restated h]
  exact forall₂_cutFrom (fun _ _ h => h.isKeyword _) _ _ _ .nil h

theorem forall₂_items (h : List.Forall₂ (Restated a) ts ts') :
    List.Forall₂ (List.Forall₂ (Restated a)) (items ts) (items ts') := by
  rw [items, items, baseDepth_of_restated h]
  exact forall₂_cutFrom (fun _ _ h => by rw [h.kind]) _ _ _ .nil h

theorem forall₂_afterGroup (ht : Restated a t t') (h : List.Forall₂ (Restated a) ts ts') :
    List.Forall₂ (Restated a) (afterGroup t ts) (afterGroup t' ts') := by
  rw [afterGroup, afterGroup, ht.depth, closing?_of_restated h]
  split
  · exact List.forall₂_drop _ h
  · exact .nil

end Token

open Token

variable {ts ts' : List Token}

/-! ### References -/

namespace ColumnRef

/-- References that differ in letter case at most. -/
structure Recased (ref ref' : ColumnRef) : Prop where
  qualifier : Option.Rel Text.Recased ref.qualifier ref'.qualifier
  name : Text.Recased ref.name ref'.name

/-- The names of a reference are the same but for letter case. -/
theorem dottedNames_of_restated (h : List.Forall₂ (Restated a) ts ts') :
    List.Forall₂ Text.Recased (dottedNames ts).1 (dottedNames ts').1 ∧
      List.Forall₂ (Restated a) (dottedNames ts).2 (dottedNames ts').2 := by
  induction ts using dottedNames.induct generalizing ts' with
  | case1 d t rest hdot ih =>
    obtain ⟨d', us, hd, hus, rfl⟩ := List.forall₂_cons_left_iff.mp h
    obtain ⟨t', rest', ht, hrest, rfl⟩ := List.forall₂_cons_left_iff.mp hus
    rw [dottedNames, dottedNames, ← hd.kind, ← ht.isIdentifier, if_pos hdot, if_pos hdot]
    exact ⟨.cons ht.name (ih hrest).1, (ih hrest).2⟩
  | case2 d t rest hdot =>
    obtain ⟨d', us, hd, hus, rfl⟩ := List.forall₂_cons_left_iff.mp h
    obtain ⟨t', rest', ht, hrest, rfl⟩ := List.forall₂_cons_left_iff.mp hus
    rw [dottedNames, dottedNames, ← hd.kind, ← ht.isIdentifier, if_neg hdot, if_neg hdot]
    exact ⟨.nil, h⟩
  | case3 ts hshort =>
    cases h with
    | nil => exact ⟨.nil, .nil⟩
    | cons hd hrest =>
      cases hrest with
      | nil => exact ⟨.nil, .cons hd .nil⟩
      | cons => exact absurd rfl (hshort _ _ _)

theorem ofNames_recased {q q' : Option String} {name name' : String} {names names' : List String}
    (hq : Option.Rel Text.Recased q q') (hname : Text.Recased name name')
    (h : List.Forall₂ Text.Recased names names') :
    Recased (ofNames q name names) (ofNames q' name' names') := by
  induction h generalizing q q' name name' with
  | nil => exact ⟨hq, hname⟩
  | cons hnext _ ih => exact ih (.some hname) hnext

/-- **Reading a reference** in restated tokens gives a recased reference and leaves restated
tokens. -/
theorem read?_of_restated (h : List.Forall₂ (Restated a) ts ts') :
    (read? ts = none ∧ read? ts' = none) ∨ ∃ ref after ref' after',
      read? ts = some (ref, after) ∧ read? ts' = some (ref', after') ∧ Recased ref ref' ∧
        List.Forall₂ (Restated a) after after' := by
  cases h with
  | nil => exact .inl ⟨rfl, rfl⟩
  | cons ht hrest =>
    obtain ⟨hnames, hafter⟩ := dottedNames_of_restated hrest
    simp only [read?, ← ht.isIdentifier, ← ht.isKeyword, ← isEmpty_of_forall₂ hnames]
    split
    · exact .inl ⟨rfl, rfl⟩
    · exact .inr ⟨_, _, _, _, rfl, rfl, ofNames_recased .none ht.name hnames, hafter⟩

/-- A reference that takes up all tokens does so on either side. -/
theorem whole?_of_restated (h : List.Forall₂ (Restated a) ts ts') :
    Option.Rel Recased (whole? ts) (whole? ts') := by
  rw [whole?, whole?]
  rcases read?_of_restated h with ⟨hread, hread'⟩ |
    ⟨ref, after, ref', after', hread, hread', href, hafter⟩
  · rw [hread, hread']
    exact .none
  · rw [hread, hread']
    cases hafter with
    | nil => exact .some href
    | cons => exact .none

end ColumnRef

/-! ### Aliases -/

theorem JoinTarget.skipKeyword_of_restated (keyword : String)
    (h : List.Forall₂ (Restated a) ts ts') :
    List.Forall₂ (Restated a) (skipKeyword keyword ts) (skipKeyword keyword ts') := by
  cases h with
  | nil => exact .nil
  | cons ht hrest =>
    rw [skipKeyword, skipKeyword, ht.isKeyword]
    split
    · exact hrest
    · exact .cons ht hrest

theorem aliasAt?_of_restated (h : List.Forall₂ (Restated a) ts ts') :
    Option.Rel Text.Recased (aliasAt? ts) (aliasAt? ts') := by
  rw [aliasAt?_eq, aliasAt?_eq]
  have hskip := JoinTarget.skipKeyword_of_restated "AS" h
  generalize JoinTarget.skipKeyword "AS" ts = us, JoinTarget.skipKeyword "AS" ts' = us' at hskip ⊢
  cases hskip with
  | nil => exact .none
  | cons ht _ =>
    simp only [List.head?_cons, Option.bind_some, ht.isIdentifier, ht.isKeyword]
    split
    · exact .some ht.name
    · exact .none

end IndexAdvice
