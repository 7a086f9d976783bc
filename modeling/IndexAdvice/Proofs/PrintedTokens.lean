import IndexAdvice.Proofs.PrintedConditions
import IndexAdvice.Proofs.ShiftedTokens

/-!
# The tokens of printed conditions

The parentheses of a printed condition are balanced, so its tokens at any place are those at the
start of a text up to a shift, none of them lies outside the depth that the first one has, and the
tokens of a part are found among those of the whole by position (`Token.locate_join`,
`Token.locate_group`).
-/

namespace IndexAdvice

namespace Token

variable {s d n m : Nat} {t : Token} {ts inner : List Token} {ps qs : List Piece}

/-! ### IsBalanced pieces -/

/-- The depth after pieces is the number of parentheses that they leave open. -/
theorem depthThrough_of_nesting (h : nesting d (locate s d ps) = some m) :
    depthThrough d ps = m := by
  induction ps generalizing s d with
  | nil => exact Option.some.inj h
  | cons p ps ih =>
    obtain ⟨kind, text⟩ := p
    cases kind with
    | none =>
      rw [locate_none] at h
      exact ih h
    | some kind =>
      rw [locate_some, nesting, nestingStep_ofPiece] at h
      split at h
      · simp at h
      · exact ih h

/-- Pieces whose parentheses match. -/
def IsBalanced (ps : List Piece) : Prop :=
  nesting 0 (locate 0 0 ps) = some 0

namespace IsBalanced

/-- Balanced pieces leave the nesting as it is. -/
theorem nesting_eq (h : IsBalanced ps) (s d n : Nat) : nesting n (locate s d ps) = some n := by
  have := nesting_add h n
  rw [Nat.zero_add] at this
  rw [nesting_locate s d 0 0, this]

/-- They close nothing that is open around them. -/
theorem closeOf_eq (h : IsBalanced ps) (s d n : Nat) : closeOf n (locate s d ps) = none :=
  closeOf_eq_none_iff.mpr ⟨n, h.nesting_eq s d n⟩

/-- They leave the depth as it is. -/
theorem depthThrough_eq (h : IsBalanced ps) (d : Nat) : depthThrough d ps = d :=
  depthThrough_of_nesting (h.nesting_eq 0 d d)

/-- Balanced pieces make the same tokens everywhere, up to a shift. -/
theorem locate_eq (h : IsBalanced ps) (s d : Nat) :
    locate s d ps = (locate 0 0 ps).map (shift s d) := by
  have := @locate_shift 0 0 s d ps (h.closeOf_eq 0 0 0)
  rwa [Nat.zero_add, Nat.zero_add] at this

/-- Balanced pieces come nowhere above the depth they are located at. -/
theorem le_depth (h : IsBalanced ps) (ht : t ∈ locate s d ps) : d ≤ t.depth := by
  rw [h.locate_eq] at ht
  obtain ⟨u, -, rfl⟩ := List.mem_map.mp ht
  exact Nat.le_add_left d u.depth

/-- The first of their tokens is at the depth they are located at. -/
theorem depth_head (h : IsBalanced ps) (hts : locate s d ps = t :: ts) : t.depth = d := by
  have hsplit : locate s d ps = [] ++ t :: ts := hts
  obtain ⟨ps₁, text, ps₂, rfl, hnil, ht, -⟩ := exists_of_locate hsplit
  have hnest : nesting d (locate s d ps₁) = some d := by
    rw [← hnil]
    rfl
  -- a closing parenthesis at the front would close nothing
  have hkind : t.kind ≠ .rparen := by
    intro hkind
    have hstep := h.nesting_eq s d 0
    rw [hts, nesting, nestingStep_eq_none_iff.mpr ⟨hkind, rfl⟩] at hstep
    simp at hstep
  rw [ht, depthThrough_of_nesting hnest, ofPiece, if_neg hkind]

/-- The outermost tokens of balanced pieces have the depth around them. -/
theorem baseDepth_eq (h : IsBalanced ps) (hne : locate s d ps ≠ []) :
    baseDepth (locate s d ps) = d := by
  refine (baseDepth_eq_iff hne).mpr ⟨?_, fun t ht => h.le_depth ht⟩
  obtain ⟨t, ts, hts⟩ := List.exists_cons_of_ne_nil hne
  exact ⟨t, hts ▸ List.mem_cons_self, h.depth_head hts⟩

end IsBalanced

/-! ### Parts of printed conditions -/

theorem isKeyword_eq_false_of_subset {keywords more : List String} (hsub : keywords ⊆ more)
    (h : t.isKeyword more = false) : t.isKeyword keywords = false := by
  rw [isKeyword, Bool.and_eq_false_iff] at h ⊢
  refine h.imp_right fun hmore => ?_
  rw [Bool.eq_false_iff, ne_eq, List.contains_iff_mem] at hmore ⊢
  exact fun hmem => hmore (hsub hmem)

theorem isKeyword_ofPiece (text : List Char) (s d : Nat) (keywords : List String) :
    (ofPiece .word text s d).isKeyword keywords =
      keywords.contains (Text.upper (String.ofList text)) := rfl

theorem locate_spaces (s d n : Nat) (ps : List Piece) :
    locate s d (List.replicate n Piece.space ++ ps) = locate (s + n) d ps := by
  induction n generalizing s with
  | zero => rfl
  | succ n ih =>
    rw [List.replicate_succ, List.cons_append, Piece.space, locate_none, List.length_singleton]
    rw [← Piece.space, ih, Nat.add_right_comm, Nat.add_assoc]

/-- **The tokens of two parts** with a word between them. -/
theorem locate_join (h : IsBalanced ps) {w : Word} (hw : w.kind = .word) (s d : Nat)
    (qs : List Piece) :
    locate s d (Piece.join ps w qs) = locate s d ps ++
      ofPiece .word w.text (s + (ps.flatMap Piece.text).length + 1) d ::
        locate (s + (ps.flatMap Piece.text).length + 1 + w.text.length + 1) d qs := by
  rw [Piece.join, locate_append, h.depthThrough_eq, Piece.space, locate_none, Word.piece,
    locate_some, locate_none, hw]
  rfl

/-- A connective keeps balanced pieces balanced. -/
theorem IsBalanced.join (h : IsBalanced ps) {w : Word} (hw : w.kind = .word) (h' : IsBalanced qs) :
    IsBalanced (Piece.join ps w qs) := by
  rw [IsBalanced, locate_join h hw, nesting_append, h.nesting_eq, Option.bind_some, nesting]
  have hword (s : Nat) : nestingStep 0 (ofPiece .word w.text s 0) = some 0 := rfl
  rw [hword, Option.bind_some]
  exact h'.nesting_eq _ _ 0

/-- **The tokens of a group** around other tokens. -/
theorem locate_group (h : IsBalanced ps) (s d pad : Nat) :
    locate s d (Piece.group pad ps) = ofPiece .lparen ['('] s d ::
      (locate (s + 1 + pad) (d + 1) ps ++
        [ofPiece .rparen [')'] (s + 1 + pad + (ps.flatMap Piece.text).length + pad) (d + 1)]) := by
  rw [Piece.group, Piece.lparen, locate_some, List.append_assoc, List.append_assoc, locate_spaces,
    locate_append, locate_spaces, depthAfter, h.depthThrough_eq, Piece.rparen, locate_some]
  rfl

theorem nesting_group (l r : Token) (hl : l.kind = .lparen) (hr : r.kind = .rparen)
    (h : nesting 0 inner = some 0) : nesting 0 (l :: (inner ++ [r])) = some 0 := by
  have hinner := nesting_add h 1
  rw [nesting, nestingStep, hl, Option.bind_some, nesting_append, hinner, Option.bind_some, nesting,
    nestingStep, hr]
  rfl

/-- A parenthesis at the front of balanced tokens is matched by the last of them just if the tokens
between the two are balanced. -/
theorem matchingParen_eq_iff (h : IsBalanced ps) (hts : locate s d ps = t :: ts)
    (hl : t.kind = .lparen) : matchingParen (t :: ts) 0 = ts.length ↔
      ∃ inner r, ts = inner ++ [r] ∧ r.kind = .rparen ∧ nesting 0 inner = some 0 := by
  have hsplit : locate s d ps = [] ++ t :: ts := hts
  obtain ⟨ps₁, text, ps₂, -, hnil, -, hrest⟩ := exists_of_locate hsplit
  have hnest : nesting d (locate s d ps₁) = some d := by
    rw [← hnil]
    rfl
  have hbal := h.nesting_eq s d 0
  rw [hts] at hbal
  -- the parenthesis is closed somewhere, and `closing?` finds the place by the depth
  obtain ⟨i, hi⟩ := Option.isSome_iff_exists.mp (@isSome_closeOf_of_balanced t [] ts hbal hl)
  have hclosing : closing? t.depth ts = some i := by
    have := closing?_locate t.stop d 0 ps₂
    rw [Nat.add_zero] at this
    rw [depthThrough_of_nesting hnest, hl, depthAfter] at hrest
    rw [h.depth_head hts, hrest, this, ← hrest, hi]
  obtain ⟨us, r, vs, rfl, rfl, hus, hr⟩ := closeOf_eq_some_iff.mp hi
  have hparen : matchingParen (t :: (us ++ r :: vs)) 0 = us.length + 1 := by
    rw [matchingParen, List.getElem?_cons_zero]
    simp only [List.drop_succ_cons, List.drop_zero, hclosing]
    omega
  rw [hparen, List.length_append, List.length_cons]
  constructor
  · intro hlen
    obtain rfl : vs = [] := List.length_eq_zero_iff.mp (by omega)
    exact ⟨us, r, rfl, hr, hus⟩
  · rintro ⟨inner, r', heq, hr', hinner⟩
    have hfirst : closeOf 0 (us ++ r :: vs) = some inner.length :=
      closeOf_eq_some_iff.mpr ⟨inner, r', [], heq, rfl, hinner, hr'⟩
    have hlen := congrArg List.length heq
    rw [hi, Option.some.injEq] at hfirst
    simp only [List.length_append, List.length_cons, List.length_nil] at hlen
    omega

/-- **Groups.** IsBalanced tokens are wrapped in parentheses just if they are a group. -/
theorem isWrapped_iff (h : IsBalanced ps) (s d : Nat) :
    isWrapped (locate s d ps) = true ↔ IsGroup (locate s d ps) := by
  rcases hts : locate s d ps with _ | ⟨t, _ | ⟨u, us⟩⟩
  · simp [isWrapped, IsGroup]
  · simp [isWrapped, IsGroup]
  · constructor
    · intro hwrapped
      simp only [isWrapped, Bool.and_eq_true, beq_iff_eq] at hwrapped
      obtain ⟨⟨hl, hmatch⟩, -⟩ := hwrapped
      obtain ⟨inner, r, heq, hr, hinner⟩ := (matchingParen_eq_iff h hts hl).mp hmatch
      exact ⟨t, inner, r, by rw [heq], hl, hr, hinner⟩
    · rintro ⟨l, inner, r, heq, hl, hr, hinner⟩
      rw [List.cons.injEq] at heq
      obtain ⟨rfl, heq⟩ := heq
      have hmatch := (matchingParen_eq_iff h hts hl).mpr ⟨inner, r, heq, hr, hinner⟩
      simp only [isWrapped, Bool.and_eq_true, beq_iff_eq]
      refine ⟨⟨hl, hmatch⟩, ?_⟩
      rw [heq, List.getLast?_concat, Option.any_some, hr]
      rfl

end Token

open Token

theorem Atom.locate_ne_nil (a : Atom) (s d : Nat) : locate s d a.pieces ≠ [] := by
  obtain ⟨w, ws, hws⟩ := List.exists_cons_of_ne_nil a.words_ne_nil
  have hpieces : ∃ ps, a.pieces = w.piece :: ps := by
    rw [Atom.pieces, hws, Word.pieces, List.map_cons]
    rcases ws with _ | ⟨v, ws⟩
    · exact ⟨[], rfl⟩
    · exact ⟨_, rfl⟩
  obtain ⟨ps, hps⟩ := hpieces
  rw [hps, Word.piece, locate_some]
  exact List.cons_ne_nil _ _

theorem Atom.isAtomic (a : Atom) : IsAtomic (locate 0 0 a.pieces) :=
  a.tokenize_text ▸ a.atomic

namespace Piece.Printed

variable {s d : Nat} {t : Token} {ts : List Token} {ps : List Piece}

theorem kind_eq_word {w : Word} (hw : w = Word.conj ∨ w = Word.disj) : w.kind = .word := by
  rcases hw with rfl | rfl <;> rfl

/-- The tokens of printed conditions are balanced. -/
theorem balanced (h : Printed ps) : IsBalanced ps := by
  induction h with
  | atom a => exact a.isAtomic.balanced
  | join hw _ _ ih ih' => exact ih.join (kind_eq_word hw) ih'
  | group pad _ ih =>
    rw [IsBalanced, locate_group ih]
    exact nesting_group _ _ rfl rfl (ih.nesting_eq _ _ 0)

theorem ne_nil (h : Printed ps) (s d : Nat) : locate s d ps ≠ [] := by
  induction h generalizing s d with
  | atom a => exact a.locate_ne_nil s d
  | join hw h _ _ _ =>
    rw [locate_join h.balanced (kind_eq_word hw)]
    exact List.append_ne_nil_of_right_ne_nil _ (List.cons_ne_nil _ _)
  | group pad h _ =>
    rw [locate_group h.balanced]
    exact List.cons_ne_nil _ _

/-- **Tokens of a printed condition** have what the tokens of its atoms have at every place, once
the words between atoms and the parentheses around groups have it at every place too. -/
theorem forall_locate {P : Token → Prop} (h : Printed ps)
    (hatom : ∀ (a : Atom) (s d), ∀ t ∈ locate s d a.pieces, P t)
    (hword : ∀ w, w = Word.conj ∨ w = Word.disj → ∀ s d, P (ofPiece .word w.text s d))
    (hl : ∀ s d, P (ofPiece .lparen ['('] s d)) (hr : ∀ s d, P (ofPiece .rparen [')'] s d))
    (s d : Nat) : ∀ t ∈ locate s d ps, P t := by
  induction h generalizing s d with
  | atom a => exact hatom a s d
  | join hw h _ ih ih' =>
    rw [locate_join h.balanced (kind_eq_word hw)]
    intro t ht
    rcases List.mem_append.mp ht with ht | ht
    · exact ih s d t ht
    · rcases List.mem_cons.mp ht with rfl | ht
      · exact hword _ hw _ _
      · exact ih' _ _ t ht
  | group pad h ih =>
    rw [locate_group h.balanced]
    intro t ht
    rcases List.mem_cons.mp ht with rfl | ht
    · exact hl _ _
    · rcases List.mem_append.mp ht with ht | ht
      · exact ih _ _ t ht
      · obtain rfl := List.mem_singleton.mp ht
        exact hr _ _

/-- Nothing printed is a semicolon. -/
theorem kind_ne_semicolon (h : Printed ps) (ht : t ∈ locate s d ps) : t.kind ≠ .semicolon := by
  refine h.forall_locate (P := fun t => t.kind ≠ .semicolon) ?_ ?_ ?_ ?_ s d t ht
  · intro a s d t ht
    rw [(Printed.atom a).balanced.locate_eq] at ht
    obtain ⟨u, hu, rfl⟩ := List.mem_map.mp ht
    exact a.isAtomic.unended u hu
  all_goals simp [ofPiece]

end Piece.Printed

end IndexAdvice
