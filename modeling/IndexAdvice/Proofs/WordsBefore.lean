import IndexAdvice.Proofs.PrintedConditions
import IndexAdvice.Proofs.RestatedClauses

/-!
# Words before a text

Words and a blank in front of a query text leave its tokens what they are, further on in the text
(`statementTokens_withWords`): the longer text restates the shorter one.
-/

namespace IndexAdvice

open Text Token

/-- Plain words: no parenthesis and no semicolon. -/
def Word.IsPlain (w : Word) : Prop :=
  w.kind ≠ .lparen ∧ w.kind ≠ .rparen ∧ w.kind ≠ .semicolon

instance : DecidablePred Word.IsPlain := fun _ => inferInstanceAs (Decidable (_ ∧ _ ∧ _))

/-- The query with words, each followed by a blank, in front of its text. -/
def Query.withWords (ws : List Word) (query : Query) : Query :=
  { query with sql := String.ofList (Word.print ws ++ ' ' :: query.sql.toList) }

/-- How many characters words take up in front of a text. -/
def Word.width (ws : List Word) : Nat :=
  (Word.print ws).length + 1

section

variable {ws : List Word}

/-- Words in front of a text are cut off one by one and leave the text's own pieces. -/
theorem ofText_withWords (ws : List Word) (cs : List Char) :
    Piece.ofText (Word.print ws ++ ' ' :: cs) =
      Word.pieces ws ++ Piece.space :: Piece.ofText cs := by
  rw [← Word.texts_pieces, Piece.IsCut.words ws ' ' (.inl (by decide)), Piece.ofText,
    Piece.cut_blank (by decide)]
  rfl

theorem depthThrough_pieces (hws : ∀ w ∈ ws, w.IsPlain) :
    depthThrough 0 (Word.pieces ws) = 0 := by
  have hafter {w : Word} (hw : w.IsPlain) : depthAfter 0 w.kind = 0 := by
    obtain ⟨hl, hr, -⟩ := hw
    unfold depthAfter
    split <;> first | rfl | contradiction
  induction ws with
  | nil => rfl
  | cons w ws ih =>
    have ih := ih fun v hv => hws v (List.mem_cons_of_mem w hv)
    have hw := hafter (hws w List.mem_cons_self)
    cases ws with
    | nil => simp [Word.pieces, Word.piece, depthThrough, hw]
    | cons v ws =>
      simp only [Word.pieces, List.map_cons, List.intersperse_cons_cons, Word.piece, Piece.space,
        depthThrough, hw] at ih ⊢
      exact ih

theorem kinds_pieces (ws : List Word) :
    (Word.pieces ws).filterMap Piece.kind = ws.map Word.kind := by
  induction ws with
  | nil => rfl
  | cons w ws ih =>
    cases ws with
    | nil => rfl
    | cons v ws =>
      simp only [Word.pieces, List.map_cons, List.intersperse_cons_cons] at ih ⊢
      rw [List.filterMap_cons, List.filterMap_cons, ih]
      rfl

/-- **Words before a text.** The tokens of the longer text are those of the words and then, restated,
those of the text. -/
theorem statementTokens_withWords (ws : List Word) (hws : ∀ w ∈ ws, w.IsPlain) (query : Query) :
    ∃ ts', statementTokens (query.withWords ws).sql = locate 0 0 (Word.pieces ws) ++ ts' ∧
      List.Forall₂ (Token.Restated (Word.width ws)) (statementTokens query.sql) ts' := by
  have htokens : tokenize (query.withWords ws).sql = locate 0 0 (Word.pieces ws) ++
      locate (0 + Word.width ws) 0 (Piece.ofText query.sql.toList) := by
    rw [tokenize, Query.withWords, String.toList_ofList, ofText_withWords, locate_append,
      depthThrough_pieces hws, Piece.space, locate_none, Word.texts_pieces, Nat.add_assoc]
    rfl
  have hrestated : List.Forall₂ (Token.Restated (Word.width ws)) (tokenize query.sql)
      (locate (0 + Word.width ws) 0 (Piece.ofText query.sql.toList)) :=
    restated_locate (List.forall₂_same.mpr fun _ _ => ⟨rfl, rfl⟩) 0 0
  generalize locate (0 + Word.width ws) 0 (Piece.ofText query.sql.toList) = us at *
  -- no semicolon is among the words, so only those at the end are dropped
  have hfront : (locate 0 0 (Word.pieces ws)).reverse.dropWhile (·.kind == .semicolon) =
      (locate 0 0 (Word.pieces ws)).reverse := by
    cases hreverse : (locate 0 0 (Word.pieces ws)).reverse with
    | nil => rfl
    | cons t ts =>
      have hmem : t ∈ locate 0 0 (Word.pieces ws) := by
        rw [← List.mem_reverse, hreverse]
        exact List.mem_cons_self
      have hkind := List.mem_map_of_mem (f := Token.kind) hmem
      rw [kinds_locate, kinds_pieces] at hkind
      obtain ⟨w, hw, hkind⟩ := List.mem_map.mp hkind
      rw [List.dropWhile_cons_of_neg]
      simpa [← hkind] using (hws w hw).2.2
  refine ⟨(us.reverse.dropWhile (·.kind == .semicolon)).reverse, ?_, ?_⟩
  · rw [statementTokens, htokens, List.reverse_append, List.dropWhile_append, hfront]
    split
    · rename_i hempty
      rw [List.isEmpty_iff.mp hempty, List.reverse_reverse, List.reverse_nil, List.append_nil]
    · rw [List.reverse_append, List.reverse_reverse]
  · rw [statementTokens, List.forall₂_reverse_iff]
    refine forall₂_dropWhile (List.forall₂_reverse_iff.mpr hrestated) fun t t' h => ?_
    rw [h.kind]

/-- Any stretch of a text stands in the longer text too. -/
theorem slice_withWords (query : Query) (i j : Nat) :
    slice (query.withWords ws).sql.toList (i + Word.width ws) (j + Word.width ws) =
      slice query.sql.toList i j := by
  have hsplit : Word.print ws ++ ' ' :: query.sql.toList =
      (Word.print ws ++ [' ']) ++ query.sql.toList := by simp
  have hwidth : Word.width ws = (Word.print ws ++ [' ']).length := by simp [Word.width]
  rw [Query.withWords, String.toList_ofList, hsplit, slice, slice, hwidth,
    Nat.add_sub_add_right, Nat.add_comm i, List.drop_length_add_append]

end

end IndexAdvice
