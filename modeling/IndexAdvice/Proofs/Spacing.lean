import IndexAdvice.Proofs.PrintedConditions

/-!
# Spacing tokens out

The tokens of a text, put one space apart, make a text of their own (`respaced`). Cutting it finds
the same tokens again (`ofText_spaced`): whatever a token ended before in the old text, in the new
one it ends before a space, and no token goes on with a space. Only a colon looks back at what
stands before it, and it makes no parameter then, whether before a space or before the name that it
does not introduce.
-/

namespace IndexAdvice

open Text

namespace Piece

variable {before : Option Char} {skip n : Nat} {c y : Char} {cs : List Char} {ps : List Piece}
  {k : Option TokenKind}

/-! ### A piece by itself -/

/-- A second colon before a name is a piece by itself. -/
theorem next_second_colon (h : cs.head?.any isIdentStart = true) :
    next (some ':') ':' cs = (some .other, 0) := by
  cases cs with
  | nil => simp at h
  | cons y cs =>
    have hwide : wideOperators.contains (':', y) = false := by
      refine Bool.eq_false_iff.mpr fun hy => ?_
      have : y = ':' := by simpa [wideOperators] using hy
      subst this
      exact absurd (show isIdentStart ':' = true from h) (by decide)
    have hshape : shape (some ':') ':' (some y) = (some .other, .alone) := by
      simp only [shape, Option.any_some, hwide]
      rfl
    rw [next_eq, List.head?_cons, hshape]
    rfl

/-- What stands before a piece does not matter unless a name follows. -/
theorem next_eq_next_none (h : cs.head?.any isIdentStart = false) :
    next before c cs = next none c cs := by
  rw [next_eq, next_eq]
  simp only [shape, h, Bool.and_false]

/-- What stands before a piece does not matter if it ends before a breaking character. -/
theorem next_none_of_next (h : next before c cs = (k, n))
    (hstop : ∀ y ∈ (cs.drop n).head?, Breaks y) : next none c cs = (k, n) := by
  cases hname : cs.head?.any isIdentStart with
  | false => rw [← next_eq_next_none hname, h]
  | true =>
    rw [← h]
    by_cases hcolon : before = some ':' ∧ c = ':'
    · obtain ⟨rfl, rfl⟩ := hcolon
      rw [next_second_colon hname, Prod.mk.injEq] at h
      obtain ⟨y, hy, hident⟩ := (Option.any_eq_true _ _).mp hname
      rw [(hstop y (by rwa [← h.2])).isIdentStart] at hident
      exact absurd hident (by decide)
    · rw [next_eq, next_eq]
      by_cases hbefore : before = some ':'
      · have hc : (c == ':') = false := beq_eq_false_iff_ne.mpr fun hc => hcolon ⟨hbefore, hc⟩
        simp only [shape, hc, Bool.false_and]
      · rw [← next_eq, ← next_eq]
        exact next_before (by simp) hbefore c cs

/-- A piece is cut the same when nothing stands around it. -/
theorem next_take (h : next before c cs = (k, n)) : next none c (cs.take n) = (k, n) := by
  have hle := next_le before c cs
  rw [h] at hle
  have hcut : next before c (cs.take n) = (k, n) := by
    refine next_of_append (d := cs.drop n) ?_ ?_
    · rwa [List.take_append_drop]
    · exact Nat.le_of_eq (by rw [List.length_take, Nat.min_eq_left hle])
  exact next_none_of_next hcut (by simp)

/-- A piece with more after it is cut the same when a space follows. -/
theorem next_append_space (h : next before c cs = (k, n)) (hn : n < cs.length) (d : List Char) :
    next none c (cs.take n ++ ' ' :: d) = (k, n) := by
  have hlength : (cs.take n).length = n := by
    rw [List.length_take, Nat.min_eq_left (Nat.le_of_lt hn)]
  have hspace : Breaks ' ' := by decide
  have hcut : next before c (cs.take n ++ ' ' :: d) = (k, n) := by
    have hbreak := @next_append_break before c ' ' cs[n] (cs.take n) (cs.drop (n + 1)) hspace k
    rw [hlength] at hbreak
    refine hbreak ?_ d
    rw [List.getElem_cons_drop, List.take_append_drop, h]
  refine next_none_of_next hcut fun y hy => ?_
  rw [List.drop_left' hlength] at hy
  obtain rfl : ' ' = y := Option.some.inj hy
  exact hspace

/-! ### Pieces one space apart -/

/-- Whether the piece is a token. -/
def isToken (p : Piece) : Bool :=
  p.kind.isSome

/-- The tokens among the pieces, one space apart. -/
def spaced (ps : List Piece) : List Piece :=
  (ps.filter isToken).intersperse space

theorem spaced_layout (text : List Char) (ps : List Piece) :
    spaced (⟨none, text⟩ :: ps) = spaced ps :=
  rfl

/-- Tokens are followed by a blank each, the last one by none. -/
theorem spaced_token (kind : TokenKind) (text : List Char) (ps : List Piece) :
    spaced (⟨some kind, text⟩ :: ps) =
      ⟨some kind, text⟩ :: if ps.filter isToken = [] then [] else space :: spaced ps := by
  rw [spaced, spaced, List.filter_cons_of_pos rfl]
  cases ps.filter isToken <;> rfl

theorem filter_spaced (ps : List Piece) : (spaced ps).filter isToken = ps.filter isToken := by
  induction ps with
  | nil => rfl
  | cons p ps ih =>
    obtain ⟨kind, text⟩ := p
    cases kind with
    | none => exact ih
    | some kind =>
      rw [spaced_token, List.filter_cons_of_pos rfl, List.filter_cons_of_pos rfl]
      split
      next h => rw [h]; rfl
      next => rw [List.filter_cons_of_neg (by decide), ih]

/-- **Spaced text is cut into the same tokens**, with one blank between any two. -/
theorem cut_spaced (before : Option Char) (skip : Nat) (cs : List Char) :
    ofText ((spaced (cut before skip cs)).flatMap text) = spaced (cut before skip cs) := by
  induction cs generalizing before skip with
  | nil => cases skip <;> rfl
  | cons c cs ih =>
    cases skip with
    | succ k => exact ih (some c) k
    | zero =>
      obtain ⟨kind, n, hnext⟩ : ∃ kind n, next before c cs = (kind, n) := ⟨_, _, rfl⟩
      specialize ih (some c) n
      rw [cut, hnext]
      cases kind with
      | none => rw [spaced_layout, ih]
      | some kind =>
        have hle : n ≤ cs.length := by
          have := next_le before c cs
          rwa [hnext] at this
        have hlength : (cs.take n).length = n := by rw [List.length_take, Nat.min_eq_left hle]
        rw [spaced_token, List.flatMap_cons]
        split
        next =>
          rw [List.flatMap_nil, List.append_nil, ofText, cut, next_take hnext,
            List.take_of_length_le (Nat.le_of_eq hlength), cut_eq_nil (Nat.le_of_eq hlength)]
        next hmore =>
          -- another token comes, so this one was cut before the end and is so before a blank
          have hn : n < cs.length := by
            refine Nat.lt_of_not_le fun hge => hmore ?_
            rw [cut_eq_nil hge]
            rfl
          rw [List.flatMap_cons, List.cons_append, ofText, cut]
          have := next_append_space hnext hn ((spaced (cut (some c) n cs)).flatMap text)
          simp only [space, List.singleton_append, this]
          have hskip := (@cut_append (some c) n (cs.take n)
            (' ' :: (spaced (cut (some c) n cs)).flatMap text) [] _ (Nat.le_of_eq hlength.symm) rfl
            (by simp)).2
          rw [List.take_left' hlength, ← hskip, cut_blank (by decide), ih]

/-- **Cutting spaced tokens** finds the same tokens. -/
theorem ofText_spaced (cs : List Char) :
    ofText ((spaced (ofText cs)).flatMap text) = spaced (ofText cs) :=
  cut_spaced none 0 cs

/-- The text of spaced tokens is their texts, one space apart. -/
theorem texts_intersperse (ps : List Piece) :
    (ps.intersperse space).flatMap text = [' '].intercalate (ps.map text) := by
  rw [List.intercalate]
  induction ps with
  | nil => rfl
  | cons p ps ih =>
    cases ps with
    | nil => rfl
    | cons q ps =>
      rw [List.intersperse_cons_cons, List.flatMap_cons, List.flatMap_cons, ih]
      rfl

end Piece

/-! ### Texts -/

/-- The text of a query with nothing but one space between its tokens. -/
def respaced (sql : String) : String :=
  " ".intercalate ((tokenize sql).map (·.text))

namespace Token

/-- What a token is, wherever it stands. -/
def lexeme (t : Token) : TokenKind × String × Nat :=
  (t.kind, t.text, t.depth)

/-- What the tokens of some pieces are depends on no layout. -/
theorem lexemes_locate_filter (start start' depth : Nat) (ps : List Piece) :
    (locate start depth ps).map lexeme =
      (locate start' depth (ps.filter Piece.isToken)).map lexeme := by
  induction ps generalizing start start' depth with
  | nil => rfl
  | cons p ps ih =>
    obtain ⟨kind, text⟩ := p
    cases kind with
    | none => exact ih _ _ _
    | some kind =>
      rw [List.filter_cons_of_pos rfl, locate_some, locate_some, List.map_cons, List.map_cons, ih]
      rfl

/-- The texts of tokens are those of the pieces they come from. -/
theorem texts_locate (start depth : Nat) (ps : List Piece) :
    (locate start depth ps).map (·.text) =
      (ps.filter Piece.isToken).map fun p => String.ofList p.text := by
  induction ps generalizing start depth with
  | nil => rfl
  | cons p ps ih =>
    obtain ⟨kind, text⟩ := p
    cases kind with
    | none => exact ih _ _
    | some kind =>
      rw [List.filter_cons_of_pos rfl, locate_some, List.map_cons, List.map_cons, ih]
      rfl

end Token

theorem toList_respaced (sql : String) :
    (respaced sql).toList = (Piece.spaced (Piece.ofText sql.toList)).flatMap Piece.text := by
  rw [respaced, tokenize, Token.texts_locate, String.toList_intercalate, List.map_map, Piece.spaced,
    Piece.texts_intersperse]
  congr 1
  exact List.map_congr_left fun p _ => String.toList_ofList

/-- **Spacing out.** A text and its tokens one space apart have the same tokens, at other places. -/
theorem lexemes_respaced (sql : String) :
    (tokenize (respaced sql)).map Token.lexeme = (tokenize sql).map Token.lexeme := by
  rw [tokenize, tokenize, toList_respaced, Piece.ofText_spaced, Token.lexemes_locate_filter 0 0,
    Piece.filter_spaced, ← Token.lexemes_locate_filter]

end IndexAdvice
