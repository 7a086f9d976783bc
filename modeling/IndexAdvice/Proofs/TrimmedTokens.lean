import IndexAdvice.Proofs.Spacing
import IndexAdvice.Proofs.NestedQueries

/-!
# Tokens of a text taken out

The text of a nested query is what stands between its parentheses, without blanks around it. Its
tokens are those between the parentheses, seen from inside: less deep, and the last of them without
blanks at its end, if it is a string that is not complete (`Group.lexemes_openedBy`).
-/

namespace IndexAdvice

open Text

/-! ### Trimmed text -/

namespace Text

variable {cs w : List Char} {r : Char}

theorem trimEnd_concat (hr : isBlank r = true) (w : List Char) :
    trimEnd (w ++ [r]) = trimEnd w := by
  rw [trimEnd, trimEnd, List.reverse_append]
  simp [hr]

/-- What a blank at the end of a text does not change, no blanks at the end change. -/
theorem eq_of_trimEnd {α : Type} {f : List Char → α}
    (h : ∀ r, isBlank r = true → ∀ u, f (u ++ [r]) = f u) (cs : List Char) :
    f (trimEnd cs) = f cs := by
  have general (blanks : List Char) :
      (∀ c ∈ blanks, isBlank c = true) → ∀ u, f (u ++ blanks) = f u := by
    induction blanks with
    | nil => exact fun _ u => by rw [List.append_nil]
    | cons r blanks ih =>
      intro hblanks u
      rw [List.append_cons, ih fun c hc => hblanks c (by simp [hc]), h r (hblanks r (by simp))]
  obtain ⟨blanks, hblanks, hcs⟩ := Token.trimEnd_append cs
  rw [← general blanks hblanks (trimEnd cs), ← hcs]

theorem trimEnd_eq_self (h : ∀ x ∈ w.getLast?, isBlank x = false) : trimEnd w = w := by
  rcases List.eq_nil_or_concat w with rfl | ⟨w, r, rfl⟩
  · rfl
  · have hr : isBlank r = false := h r (by simp)
    simp [trimEnd, hr]

theorem not_isBlank_getLast?_trimEnd (cs : List Char) :
    ∀ x ∈ (trimEnd cs).getLast?, isBlank x = false := by
  intro x hx
  rw [trimEnd, List.getLast?_reverse] at hx
  have := List.head?_dropWhile_not isBlank cs.reverse
  rw [hx] at this
  simpa using this

end Text

namespace Piece

/-- In a text that ends with no blank every token ends with none. -/
theorem closed_ofText_trimEnd (cs : List Char) : Closed (ofText (trimEnd cs)) := by
  rcases List.eq_nil_or_concat (ofText (trimEnd cs)) with h | ⟨P, q, h⟩
  · rw [h]
    exact fun p hp => absurd hp (by simp)
  · rw [List.concat_eq_append] at h
    intro p hp hkind
    rw [h, List.mem_append, List.mem_singleton] at hp
    rcases hp with hp | rfl
    · exact closed_of_cut h p hp hkind
    · have htexts : P.flatMap text ++ p.text = trimEnd cs := by
        rw [← List.flatMap_singleton text p]
        exact (eq_texts_of_ofText h).symm
      have hne : p.text ≠ [] := text_ne_nil_of_mem_cut (h ▸ by simp : p ∈ ofText (trimEnd cs))
      intro x hx
      refine not_isBlank_getLast?_trimEnd cs x ?_
      rw [← htexts, List.getLast?_append_of_ne_nil _ hne]
      exact hx

end Piece

namespace Token

variable {start depth : Nat} {t : Token} {ps inner : List Piece}

/-- What a token is without blanks at its end, seen from `depth` parentheses further in. -/
def trimmed (depth : Nat) (x : TokenKind × String × Nat) : TokenKind × String × Nat :=
  (x.1, String.ofList (trimEnd x.2.1.toList), x.2.2 - depth)

theorem lexemes_locate_start (start start' depth : Nat) (ps : List Piece) :
    (locate start depth ps).map lexeme = (locate start' depth ps).map lexeme := by
  rw [lexemes_locate_filter start start, ← lexemes_locate_filter start']

/-- Without blanks at their ends the tokens of a text are those of the trimmed text. -/
theorem trimmed_trimEnd (start depth k : Nat) (cs : List Char) :
    (locate start depth (Piece.ofText (trimEnd cs))).map (trimmed k ∘ lexeme) =
      (locate start depth (Piece.ofText cs)).map (trimmed k ∘ lexeme) := by
  refine eq_of_trimEnd (f := fun cs => (locate start depth (Piece.ofText cs)).map _) ?_ cs
  intro r hr u
  rcases Piece.ofText_append_blank hr u with h | ⟨X, kind, w, -, -, hcut, hcut'⟩
  · simp only [h, locate_append, locate, List.append_nil]
  · simp only [hcut, hcut', locate_append, List.map_append]
    cases kind with
    | none => rfl
    | some kind =>
      rw [locate_some, locate_some]
      simp [trimmed, lexeme, ofPiece, trimEnd_concat hr, locate]

theorem exists_piece_of_mem_locate (h : t ∈ locate start depth ps) :
    ∃ p ∈ ps, p.kind = some t.kind ∧ t.text = String.ofList p.text := by
  obtain ⟨us, vs, hsplit⟩ := List.append_of_mem h
  obtain ⟨ps₁, text, ps₂, rfl, -, ht, -⟩ := exists_of_locate hsplit
  exact ⟨⟨some t.kind, text⟩, by simp, rfl, congrArg Token.text ht⟩

/-- The tokens of a trimmed text have no blanks at their ends. -/
theorem trimmed_of_closed (h : Piece.Closed ps) :
    (locate start depth ps).map (trimmed 0 ∘ lexeme) = (locate start depth ps).map lexeme := by
  refine List.map_congr_left fun t ht => ?_
  obtain ⟨p, hp, hkind, htext⟩ := exists_piece_of_mem_locate ht
  have := trimEnd_eq_self (h p hp (by simp [hkind]))
  simp [trimmed, lexeme, htext, this]

/-- **Taking a part out.** The tokens of the trimmed text of some pieces are the tokens of the
pieces without blanks at their ends. -/
theorem lexemes_tokenize_trim (hcut : Piece.ofText (inner.flatMap Piece.text) = inner)
    (hclose : closeOf 0 (locate start depth inner) = none) :
    (tokenize (String.ofList (trim (inner.flatMap Piece.text)))).map lexeme =
      (locate start depth inner).map (trimmed depth ∘ lexeme) := by
  have hplace := @locate_shift 0 0 start depth inner (by rw [← hclose, closeOf_locate])
  have htrimmed : (locate start depth inner).map (trimmed depth ∘ lexeme) =
      (locate 0 0 inner).map (trimmed 0 ∘ lexeme) := by
    rw [Nat.zero_add, Nat.zero_add] at hplace
    rw [hplace, List.map_map]
    refine List.map_congr_left fun t _ => ?_
    simp [trimmed, lexeme, shift]
  have hstart := locate_trimStart 0 0 (inner.flatMap Piece.text)
  rw [hcut] at hstart
  rw [tokenize, String.toList_ofList, trim, ← trimmed_of_closed (Piece.closed_ofText_trimEnd _),
    trimmed_trimEnd, htrimmed, hstart, ← List.map_map, ← List.map_map, lexemes_locate_start 0]

end Token

/-! ### The inside of a group -/

namespace Group

open Token

/-- The tokens inside the group that `t` opens before `rest`, at the end of which semicolons may
stand: up to its closing parenthesis, or all of them, but for a parenthesis at the end. -/
def inside (t : Token) (rest semis : List Token) : List Token :=
  match closing? t.depth rest with
  | some j => rest.take j
  | none => if rest.getLast?.any (·.kind == .rparen) then rest.dropLast else rest ++ semis

variable {sql : String} {t : Token} {pre rest semis : List Token}

/-- The text of a group is that of the pieces inside it. -/
theorem exists_pieces_inside (hT : tokenize sql = pre ++ t :: (rest ++ semis))
    (hsemis : ∀ s ∈ semis, s.kind = .semicolon) (ht : opensBefore t rest = true)
    (before : List Token) :
    ∃ front inner outer,
      Piece.ofText sql.toList = (front ++ [⟨some .lparen, ['(']⟩]) ++ (inner ++ outer) ∧
      (openedBy sql.toList before t rest).sql = trim (inner.flatMap Piece.text) ∧
      inside t rest semis = locate (t.start + 1) (t.depth + 1) inner ∧
      closeOf 0 (inside t rest semis) = none := by
  obtain ⟨hlparen, hhead⟩ := Bool.and_eq_true_iff.mp ht
  obtain ⟨front, ps, hps, hstart, hlocate⟩ := exists_of_lparen hT (by simpa using hlparen)
  have hclosing : closing? t.depth rest = closeOf 0 (rest ++ semis) := by
    rw [← closing?_append hsemis, hlocate]
    exact closing?_locate _ _ 0 _
  -- a group that ends in a parenthesis has the pieces before it
  have ofRparen {us vs : List Token} {u : Token} (hsplit : rest ++ semis = us ++ u :: vs)
      (hinside : inside t rest semis = us) (hcloser : closer t rest = u) (hkind : u.kind = .rparen)
      (hopen : closeOf 0 us = none) :
      ∃ front inner outer,
        Piece.ofText sql.toList = (front ++ [⟨some .lparen, ['(']⟩]) ++ (inner ++ outer) ∧
        (openedBy sql.toList before t rest).sql = trim (inner.flatMap Piece.text) ∧
        inside t rest semis = locate (t.start + 1) (t.depth + 1) inner ∧
        closeOf 0 (inside t rest semis) = none := by
    obtain ⟨inner, text, outer, rfl, hus, hu, -⟩ := exists_of_locate (hlocate.symm.trans hsplit)
    obtain ⟨hslice, -, -⟩ :=
      reread (u :: vs) hps (fun _ => List.cons_ne_nil _ _) (hus ▸ hopen) hstart
    have hustart : u.start = t.start + 1 + (inner.flatMap Piece.text).length :=
      congrArg Token.start hu
    refine ⟨front, inner, _, hps, ?_, hinside.trans hus, hinside ▸ hopen⟩
    simp only [openedBy, hcloser, hkind, beq_self_eq_true, if_true, hustart, hslice]
  rcases hclose : closeOf 0 (rest ++ semis) with _ | j
  · rw [hclose] at hclosing
    obtain ⟨us, u, rfl⟩ : ∃ us u, rest = us ++ [u] := by
      simp only [← List.concat_eq_append]
      exact (List.eq_nil_or_concat rest).resolve_left fun hnil => by simp [hnil] at hhead
    have hcloser : closer t (us ++ [u]) = u := by
      simp [closer, hclosing]
    by_cases hkind : u.kind = .rparen
    · have hsplit : us ++ [u] ++ semis = us ++ u :: semis := by simp
      refine ofRparen hsplit ?_ hcloser hkind (closeOf_eq_none_of_append (hsplit ▸ hclose))
      simp [inside, hclosing, hkind]
    · have hinside : inside t (us ++ [u]) semis = us ++ [u] ++ semis := by
        simp [inside, hclosing, hkind]
      have hwhole : Piece.ofText sql.toList = (front ++ [⟨some .lparen, ['(']⟩]) ++ (ps ++ []) := by
        rw [List.append_nil, hps]
      obtain ⟨-, hslice, -⟩ := reread [] hwhole (absurd rfl) (hlocate ▸ hclose) hstart
      refine ⟨front, ps, [], hwhole, ?_, hinside.trans hlocate, hinside ▸ hclose⟩
      simp only [openedBy, hcloser, beq_eq_false_iff_ne.mpr hkind, Bool.false_eq_true, if_false]
      rw [hslice rfl]
  · obtain ⟨us, u, vs, hsplit, rfl, hbalanced, hkind⟩ := closeOf_eq_some_iff.mp hclose
    obtain ⟨more, rfl, rfl⟩ := exists_append_of_rparen hsplit hkind hsemis
    rw [hclose] at hclosing
    refine ofRparen hsplit ?_ ?_ hkind (closeOf_eq_none_iff.mpr ⟨0, hbalanced⟩)
    · simp [inside, hclosing]
    · simp [closer, hclosing, List.getD]

/-- **The tokens of a nested query** are those inside its group, one level further out, without
blanks at their ends. -/
theorem lexemes_openedBy (hT : tokenize sql = pre ++ t :: (rest ++ semis))
    (hsemis : ∀ s ∈ semis, s.kind = .semicolon) (ht : opensBefore t rest = true)
    (before : List Token) :
    (tokenize (String.ofList (openedBy sql.toList before t rest).sql)).map lexeme =
      (inside t rest semis).map (trimmed (t.depth + 1) ∘ lexeme) := by
  obtain ⟨front, inner, outer, hps, hsql, hinside, hopen⟩ :=
    exists_pieces_inside hT hsemis ht before
  rw [hsql, hinside]
  exact lexemes_tokenize_trim (ofText_inner hps) (hinside ▸ hopen)

end Group

end IndexAdvice
