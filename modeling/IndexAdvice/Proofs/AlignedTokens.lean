import IndexAdvice.Proofs.AlikeKeys
import IndexAdvice.Proofs.TrimmedTokens

/-!
# Tokens in order

The tokens of a text do not overlap, so their places are ordered as they are. Relating the places of
tokens with one index in two lists (`Aligned`) therefore keeps order, and lists of the same kinds,
texts and depths are twins at such places (`twins_of_lexemes`).
-/

namespace IndexAdvice

namespace Token

variable {start depth i j : Nat} {t : Token} {ts ts' : List Token} {ps : List Piece}

/-! ### Tokens in order -/

/-- Tokens in the order of their text, none of them empty and none overlapping the next. -/
structure Consecutive (ts : List Token) : Prop where
  start_lt : ∀ t ∈ ts, t.start < t.stop
  stop_le : ts.Pairwise fun t u => t.stop ≤ u.start

/-- No located token starts before the text does. -/
theorem start_le_of_mem_locate (h : t ∈ locate start depth ps) : start ≤ t.start := by
  obtain ⟨us, vs, hsplit⟩ := List.append_of_mem h
  obtain ⟨ps₁, text, ps₂, -, -, ht, -⟩ := exists_of_locate hsplit
  rw [congrArg Token.start ht]
  exact Nat.le_add_right _ _

/-- Located pieces follow one another, as long as none of them is empty. -/
theorem consecutive_locate (h : ∀ p ∈ ps, p.text ≠ []) : Consecutive (locate start depth ps) := by
  induction ps generalizing start depth with
  | nil => exact ⟨by simp [locate], by simp [locate]⟩
  | cons p ps ih =>
    obtain ⟨kind, text⟩ := p
    have hps : ∀ p ∈ ps, p.text ≠ [] := fun p hp => h p (List.mem_cons_of_mem _ hp)
    cases kind with
    | none => exact ih hps
    | some kind =>
      have htext : 0 < text.length :=
        List.length_pos_iff.mpr (h ⟨some kind, text⟩ List.mem_cons_self)
      rw [locate_some]
      obtain ⟨hlt, hle⟩ := @ih (start + text.length) (depthAfter depth kind) hps
      refine ⟨?_, List.pairwise_cons.mpr ⟨fun u hu => start_le_of_mem_locate hu, hle⟩⟩
      rintro t (_ | ⟨_, ht⟩)
      · exact Nat.lt_add_of_pos_right htext
      · exact hlt t ht

theorem consecutive_tokenize (sql : String) : Consecutive (tokenize sql) :=
  consecutive_locate fun _ hp => Piece.text_ne_nil_of_mem_cut hp

namespace Consecutive

theorem sublist (h : Consecutive ts) (hsub : List.Sublist ts' ts) : Consecutive ts' :=
  ⟨fun t ht => h.start_lt t (hsub.subset ht), h.stop_le.sublist hsub⟩

variable (hi : i < ts.length) (hj : j < ts.length)

include hi hj in
/-- Two tokens with a place for each that is not after it, or the same token. -/
private theorem stop_le_or (h : Consecutive ts) :
    (i < j ∧ ts[i].stop ≤ ts[j].start) ∨ i = j ∨ (j < i ∧ ts[j].stop ≤ ts[i].start) := by
  have hle := List.pairwise_iff_getElem.mp h.stop_le
  rcases Nat.lt_trichotomy i j with hij | hij | hij
  · exact .inl ⟨hij, hle i j hi hj hij⟩
  · exact .inr (.inl hij)
  · exact .inr (.inr ⟨hij, hle j i hj hi hij⟩)

/-- Places in a text are in the order of the tokens there. -/
theorem start_lt_start_iff (h : Consecutive ts) : ts[i].start < ts[j].start ↔ i < j := by
  have hlt := h.start_lt ts[i] (List.getElem_mem hi)
  have hlt' := h.start_lt ts[j] (List.getElem_mem hj)
  rcases h.stop_le_or hi hj with hij | rfl | hij <;> omega

/-- In consecutive tokens the order of places is the order of starts and stops. -/
theorem start_lt_stop_iff (h : Consecutive ts) : ts[i].start < ts[j].stop ↔ i ≤ j := by
  have hlt := h.start_lt ts[i] (List.getElem_mem hi)
  have hlt' := h.start_lt ts[j] (List.getElem_mem hj)
  rcases h.stop_le_or hi hj with hij | rfl | hij <;> omega

end Consecutive

/-- Places at which tokens of one index start. -/
def Aligned (ts ts' : List Token) (a a' : Nat) : Prop :=
  ∃ i, ∃ (hi : i < ts.length) (hi' : i < ts'.length), ts[i].start = a ∧ ts'[i].start = a'

/-- Aligning the tokens of two texts by their places respects the order of both. -/
theorem ordered_aligned (h : Consecutive ts) (h' : Consecutive ts') : Ordered (Aligned ts ts') := by
  rintro _ _ _ _ ⟨i, hi, hi', rfl, rfl⟩ ⟨j, hj, hj', rfl, rfl⟩
  rw [h.start_lt_start_iff hi hj, h'.start_lt_start_iff hi' hj']

/-- **Texts with the same tokens** have twins as tokens, whatever the layout between them. -/
theorem twins_of_lexemes (h : Consecutive ts) (h' : Consecutive ts')
    (hlexemes : ts.map lexeme = ts'.map lexeme) : List.Forall₂ (Twin (Aligned ts ts')) ts ts' := by
  have hlength : ts.length = ts'.length := by simpa using congrArg List.length hlexemes
  refine List.forall₂_iff_get.mpr ⟨hlength, fun i hi hi' => ?_⟩
  have hlexeme : lexeme ts[i] = lexeme ts'[i] := by
    have := List.getElem_of_eq hlexemes (i := i) (by simpa using hi)
    simpa using this
  simp only [lexeme, Prod.mk.injEq] at hlexeme
  refine ⟨hlexeme.1, hlexeme.2.1, hlexeme.2.2, ⟨i, hi, hi', rfl, rfl⟩, ?_⟩
  rintro _ _ ⟨j, hj, hj', rfl, rfl⟩
  simp only [List.get_eq_getElem]
  rw [h.start_lt_stop_iff hj hi, h'.start_lt_stop_iff hj' hi']

end Token

end IndexAdvice
