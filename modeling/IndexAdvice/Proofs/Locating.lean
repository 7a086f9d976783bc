import IndexAdvice.Proofs.Cutting
import IndexAdvice.Proofs.Parentheses

/-!
# Tokens in a part of a text

`Token.locate` gives the tokens of consecutive pieces their positions and depths. This module says
how these change when the pieces are cut again as a text of their own: positions and depths are
shifted (`locate_shift`), the blanks at the start of the text count as a shift too
(`locate_trimStart`), and the blanks at its end matter only to a string or quoted name that is not
closed (`outline_trimEnd`, `locate_trimEnd`).
-/

namespace IndexAdvice

open Text

namespace Token

variable {start depth n m a k : Nat} {t : Token} {ts us vs : List Token} {ps qs : List Piece}

/-! ### Locating one piece after the other -/

/-- The depth after a token of a kind. -/
def depthAfter (depth : Nat) : TokenKind → Nat
  | .lparen => depth + 1
  | .rparen => depth - 1
  | _ => depth

/-- The token of a piece of a kind. -/
def ofPiece (kind : TokenKind) (text : List Char) (start depth : Nat) : Token :=
  ⟨kind, String.ofList text, start, start + text.length,
    if kind = .rparen then depth - 1 else depth⟩

theorem locate_none (text : List Char) (ps : List Piece) :
    locate start depth (⟨none, text⟩ :: ps) = locate (start + text.length) depth ps := by
  rw [locate]

theorem locate_some (kind : TokenKind) (text : List Char) (ps : List Piece) :
    locate start depth (⟨some kind, text⟩ :: ps) =
      ofPiece kind text start depth ::
        locate (start + text.length) (depthAfter depth kind) ps := by
  cases kind <;> rfl

/-- The depth after some pieces. -/
def depthThrough (depth : Nat) : List Piece → Nat
  | [] => depth
  | ⟨none, _⟩ :: ps => depthThrough depth ps
  | ⟨some kind, _⟩ :: ps => depthThrough (depthAfter depth kind) ps

/-- Later pieces are located from where the earlier ones end, at the depth they leave. -/
theorem locate_append (start depth : Nat) (ps qs : List Piece) :
    locate start depth (ps ++ qs) = locate start depth ps ++
      locate (start + (ps.flatMap Piece.text).length) (depthThrough depth ps) qs := by
  induction ps generalizing start depth with
  | nil => rfl
  | cons p ps ih =>
    obtain ⟨kind, text⟩ := p
    cases kind with
    | none =>
      rw [List.cons_append, locate_none, locate_none, ih, depthThrough, List.flatMap_cons,
        List.length_append, Nat.add_assoc]
    | some kind =>
      rw [List.cons_append, locate_some, locate_some, ih, depthThrough, List.flatMap_cons,
        List.length_append, Nat.add_assoc]
      rfl

/-- Pieces of which a token is found are divided by its piece. -/
theorem exists_of_locate (h : locate start depth ps = us ++ t :: vs) :
    ∃ ps₁ text ps₂, ps = ps₁ ++ ⟨some t.kind, text⟩ :: ps₂ ∧ us = locate start depth ps₁ ∧
      t = ofPiece t.kind text (start + (ps₁.flatMap Piece.text).length) (depthThrough depth ps₁) ∧
      vs = locate t.stop (depthAfter (depthThrough depth ps₁) t.kind) ps₂ := by
  induction ps generalizing start depth us with
  | nil => simp [locate] at h
  | cons p ps ih =>
    obtain ⟨kind, text⟩ := p
    cases kind with
    | none =>
      rw [locate_none] at h
      obtain ⟨ps₁, x, ps₂, rfl, rfl, ht, rfl⟩ := ih h
      refine ⟨⟨none, text⟩ :: ps₁, x, ps₂, rfl, (locate_none _ _).symm, ?_, rfl⟩
      rw [List.flatMap_cons, List.length_append, ← Nat.add_assoc]
      exact ht
    | some kind =>
      rw [locate_some] at h
      cases us with
      | nil =>
        rw [List.nil_append, List.cons.injEq] at h
        obtain ⟨rfl, rfl⟩ := h
        exact ⟨[], text, ps, rfl, rfl, rfl, rfl⟩
      | cons u us =>
        rw [List.cons_append, List.cons.injEq] at h
        obtain ⟨rfl, h⟩ := h
        obtain ⟨ps₁, x, ps₂, rfl, rfl, ht, rfl⟩ := ih h
        refine ⟨⟨some kind, text⟩ :: ps₁, x, ps₂, rfl, (locate_some _ _ _).symm, ?_, rfl⟩
        rw [List.flatMap_cons, List.length_append, ← Nat.add_assoc]
        exact ht

/-! ### Shifting -/

/-- The token `a` characters further on and `k` parentheses deeper. -/
def shift (a k : Nat) (t : Token) : Token :=
  { t with start := t.start + a, stop := t.stop + a, depth := t.depth + k }

/-- A located piece changes the nesting by its kind alone. -/
theorem nestingStep_ofPiece (kind : TokenKind) (text : List Char) (start depth n : Nat) :
    nestingStep n (ofPiece kind text start depth) =
      if kind = .rparen ∧ n = 0 then none else some (depthAfter n kind) := by
  cases kind <;> simp [nestingStep, ofPiece, depthAfter]

/-- A piece may be located deeper, unless it closes a parenthesis that is not open. -/
theorem shift_ofPiece {kind : TokenKind} (h : ¬ (kind = .rparen ∧ depth = 0)) (text : List Char) :
    (ofPiece kind text start depth).shift a k = ofPiece kind text (start + a) (depth + k) := by
  simp only [shift, ofPiece, Token.mk.injEq, true_and, Nat.add_right_comm _ _ a]
  split
  · next hkind =>
    have : depth ≠ 0 := fun hdepth => h ⟨hkind, hdepth⟩
    omega
  · rfl

/-- The depth after a piece moves with the depth before it, with the same exception. -/
theorem depthAfter_add {kind : TokenKind} (h : ¬ (kind = .rparen ∧ depth = 0)) (k : Nat) :
    depthAfter (depth + k) kind = depthAfter depth kind + k := by
  cases kind <;> simp [depthAfter] at h ⊢ <;> omega

/-- **Shifting.** Pieces that close no parenthesis around them make the same tokens at another
place, up to a shift. -/
theorem locate_shift (h : closeOf depth (locate start depth ps) = none) :
    locate (start + a) (depth + k) ps = (locate start depth ps).map (shift a k) := by
  induction ps generalizing start depth with
  | nil => rfl
  | cons p ps ih =>
    obtain ⟨kind, text⟩ := p
    cases kind with
    | none =>
      rw [locate_none] at h ⊢
      rw [locate_none, ← ih h, Nat.add_right_comm]
    | some kind =>
      rw [locate_some, closeOf, nestingStep_ofPiece] at h
      rw [locate_some, locate_some, List.map_cons]
      -- a parenthesis that closes at depth zero would stay there and not be shifted
      split at h
      · next heq =>
        split at heq
        · simp at heq
        · next hkind =>
          obtain rfl := Option.some.inj heq
          rw [← ih (Option.map_eq_none_iff.mp h), shift_ofPiece hkind, depthAfter_add hkind,
            Nat.add_right_comm]
      · simp at h

/-- The parenthesis that closes one of depth `depth` is the first one that closes more than was
opened since. -/
theorem closing?_locate (start depth n : Nat) (ps : List Piece) :
    closing? depth (locate start (depth + 1 + n) ps) =
      closeOf n (locate start (depth + 1 + n) ps) := by
  induction ps generalizing start n with
  | nil => rfl
  | cons p ps ih =>
    obtain ⟨kind, text⟩ := p
    cases kind with
    | none =>
      rw [locate_none]
      exact ih _ _
    | some kind =>
      have hdepth (h : ¬ (kind = .rparen ∧ n = 0)) :
          depthAfter (depth + 1 + n) kind = depth + 1 + depthAfter n kind := by
        rw [Nat.add_comm (depth + 1) n, depthAfter_add h, Nat.add_comm]
      rw [locate_some, closeOf, nestingStep_ofPiece, closing?, List.findIdx?_cons]
      -- the first parenthesis back at the depth is the one at which counting stops
      by_cases hclose : kind = .rparen ∧ n = 0
      · obtain ⟨rfl, rfl⟩ := hclose
        simp [ofPiece]
      · have hfirst : ((ofPiece kind text start (depth + 1 + n)).kind == .rparen &&
            (ofPiece kind text start (depth + 1 + n)).depth == depth) = false := by
          simp only [ofPiece, Bool.and_eq_false_iff, beq_eq_false_iff_ne]
          by_cases hkind : kind = .rparen
          · refine .inr ?_
            rw [if_pos hkind]
            have : n ≠ 0 := fun hn => hclose ⟨hkind, hn⟩
            omega
          · exact .inl hkind
        rw [hfirst, if_neg hclose, hdepth hclose]
        simp only [Bool.false_eq_true, if_false]
        rw [← ih]
        rfl

/-! ### Blanks at the ends -/

/-- The tokens of a text are those of the text without the blanks it starts with, shifted. -/
theorem locate_trimStart (start depth : Nat) (cs : List Char) :
    locate start depth (Piece.ofText cs) =
      locate (start + blankCount cs) depth (Piece.ofText (trimStart cs)) := by
  induction cs generalizing start with
  | nil => rfl
  | cons c cs ih =>
    cases hc : isBlank c with
    | true =>
      rw [Piece.ofText, Piece.cut_blank hc, locate_none, ih]
      simp only [blankCount, trimStart, hc, List.takeWhile_cons_of_pos, List.dropWhile_cons_of_pos,
        List.length_cons, List.length_nil]
      congr 1
      omega
    | false => simp [blankCount, trimStart, hc]

/-- What a token is and where, except for the texts of strings and quoted names. -/
def outline (t : Token) : TokenKind × Nat × Nat × String :=
  (t.kind, t.start, t.depth, if t.kind = .string ∨ t.kind = .quoted then "" else t.text)

theorem kind_of_outline {t' : Token} (h : t.outline = t'.outline) : t.kind = t'.kind :=
  congrArg Prod.fst h

theorem start_of_outline {t' : Token} (h : t.outline = t'.outline) : t.start = t'.start :=
  congrArg (·.2.1) h

/-- Strings and quoted names are no keywords. -/
theorem isKeyword_of_outline {t' : Token} (h : t.outline = t'.outline) (keywords : List String) :
    t.isKeyword keywords = t'.isKeyword keywords := by
  have hkind := kind_of_outline h
  by_cases hword : t.kind = .word
  · have hword' := hkind ▸ hword
    simp only [outline, hword, hword', Prod.mk.injEq, reduceCtorEq, or_self, if_false] at h
    simp only [isKeyword, upper, hkind, h.2.2.2]
  · have hword' := hkind ▸ hword
    simp [isKeyword, beq_eq_false_iff_ne.mpr hword, beq_eq_false_iff_ne.mpr hword']

/-- What trimming takes off the end is blank. -/
theorem trimEnd_append (cs : List Char) :
    ∃ blanks, (∀ c ∈ blanks, isBlank c = true) ∧ cs = trimEnd cs ++ blanks := by
  refine ⟨(cs.reverse.takeWhile isBlank).reverse, ?_, ?_⟩
  · intro c hc
    exact List.all_eq_true.mp List.all_takeWhile c (List.mem_reverse.mp hc)
  · rw [trimEnd, ← List.reverse_append, List.takeWhile_append_dropWhile, List.reverse_reverse]

/-- A blank at the end of a text shows in no outline. -/
theorem outline_append_blank {r : Char} (hr : isBlank r = true) (start depth : Nat)
    (u : List Char) :
    (locate start depth (Piece.ofText (u ++ [r]))).map outline =
      (locate start depth (Piece.ofText u)).map outline := by
  rcases Piece.ofText_append_blank hr u with
    h | ⟨X, kind, w, -, hkind, hcut, hcut'⟩
  · rw [h, locate_append, locate_none]
    simp [locate]
  · -- the blank goes into a comment, which makes no token, or into a text left out of outlines
    rw [hcut', hcut, locate_append, locate_append]
    rcases hkind with rfl | rfl | rfl <;> simp [locate, outline]

/-- **Trimming the end** of a text can only shorten a string or quoted name that is not closed. -/
theorem outline_trimEnd (start depth : Nat) (cs : List Char) :
    (locate start depth (Piece.ofText (trimEnd cs))).map outline =
      (locate start depth (Piece.ofText cs)).map outline := by
  have general : ∀ (blanks : List Char), (∀ c ∈ blanks, isBlank c = true) → ∀ u,
      (locate start depth (Piece.ofText (u ++ blanks))).map outline =
        (locate start depth (Piece.ofText u)).map outline := by
    intro blanks hblanks
    induction blanks with
    | nil => intro u; rw [List.append_nil]
    | cons r blanks ih =>
      intro u
      rw [List.append_cons, ih fun c hc => hblanks c (by simp [hc]),
        outline_append_blank (hblanks r (by simp))]
  obtain ⟨blanks, hblanks, hcs⟩ := trimEnd_append cs
  rw [← general blanks hblanks (trimEnd cs), ← hcs]

/-- If all tokens are closed, a blank at the end of the text is not part of them. -/
theorem locate_append_blank {r : Char} (hr : isBlank r = true) (start depth : Nat) {u : List Char}
    (h : Piece.Closed (Piece.ofText (u ++ [r]))) :
    Piece.Closed (Piece.ofText u) ∧
      locate start depth (Piece.ofText (u ++ [r])) = locate start depth (Piece.ofText u) := by
  rcases Piece.ofText_append_blank hr u with
    h' | ⟨X, kind, w, -, -, hcut, hcut'⟩
  · rw [h'] at h ⊢
    refine ⟨fun p hp => h p (List.mem_append_left _ hp), ?_⟩
    rw [locate_append, locate_none]
    simp [locate]
  · rw [hcut'] at h ⊢
    rw [hcut]
    -- only a comment may take the blank up, since a token would end with it
    have hkind : kind = none := by
      refine Classical.byContradiction fun hkind => ?_
      have := h ⟨kind, w ++ [r]⟩ (by simp) hkind r (by simp)
      simp [this] at hr
    subst hkind
    refine ⟨fun p hp hsome => ?_, ?_⟩
    · rcases List.mem_append.mp hp with hp | hp
      · exact h p (List.mem_append_left _ hp) hsome
      · simp_all
    · rw [locate_append, locate_append, locate_none, locate_none]
      simp [locate]

/-- If all tokens are closed, **trimming the end** of a text changes none. -/
theorem locate_trimEnd (start depth : Nat) {cs : List Char}
    (h : Piece.Closed (Piece.ofText cs)) :
    locate start depth (Piece.ofText (trimEnd cs)) = locate start depth (Piece.ofText cs) := by
  have general : ∀ (blanks : List Char), (∀ c ∈ blanks, isBlank c = true) → ∀ u,
      Piece.Closed (Piece.ofText (u ++ blanks)) → Piece.Closed (Piece.ofText u) ∧
        locate start depth (Piece.ofText (u ++ blanks)) =
          locate start depth (Piece.ofText u) := by
    intro blanks hblanks
    induction blanks with
    | nil => intro u hu; rw [List.append_nil] at hu ⊢; exact ⟨hu, rfl⟩
    | cons r blanks ih =>
      intro u hu
      rw [List.append_cons] at hu ⊢
      obtain ⟨hu', heq⟩ := ih (fun c hc => hblanks c (by simp [hc])) _ hu
      obtain ⟨hu, heq'⟩ := locate_append_blank (hblanks r (by simp)) start depth hu'
      exact ⟨hu, heq.trans heq'⟩
  obtain ⟨blanks, hblanks, hcs⟩ := trimEnd_append cs
  rw [hcs] at h
  rw [← (general blanks hblanks _ h).2, ← hcs]

end Token

end IndexAdvice
