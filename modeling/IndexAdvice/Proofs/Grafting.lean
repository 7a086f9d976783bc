import IndexAdvice.Proofs.AlignedTokens
import IndexAdvice.Proofs.PrintedTokens

/-!
# Text put in the place of other text

Parentheses are pieces by themselves and keep the text before and after them apart from the text
between them (`Piece.cut_append_break`). So when the text between two parentheses is replaced by
balanced text without an open string or comment, its tokens are replaced by those of the other text,
and those after it stay the same at other places (`Token.tokenize_graft`).
-/

namespace IndexAdvice

open Text

namespace Piece

variable {before : Option Char} {skip n : Nat} {c r : Char} {cs d u v y : List Char}
  {P Q : List Piece} {k : Option TokenKind}

/-- A piece that ends inside a text or with it ends there before every breaking character. -/
theorem next_append_cons_break {z : Char} (hr : Breaks r)
    (h : next before c (cs ++ z :: d) = (k, n)) (hn : n ≤ cs.length) (d' : List Char) :
    next before c (cs ++ r :: d') = (k, n) := by
  rcases Nat.lt_or_eq_of_le hn with hlt | rfl
  · have hshort := next_eq_of_break hr before c cs d'
    rw [next_of_append h hn, Prod.mk.injEq] at hshort
    obtain ⟨hkind, hcount⟩ := hshort
    refine Prod.ext hkind.symm ?_
    simp only at hcount ⊢
    omega
  · exact next_append_break hr h d'

/-- **Cutting before a border.** The pieces before a border between pieces stay the same if a
breaking character follows instead. -/
theorem cut_append_break {z : Char} (hr : Breaks r) (hskip : skip ≤ u.length)
    (hcut : cut before skip (u ++ z :: v) = P ++ Q) (htexts : P.flatMap text = u.drop skip)
    (v' : List Char) :
    cut before skip (u ++ r :: v') = P ++ cut (u.getLast?.or before) 0 (r :: v') := by
  -- as for `cut_append`: a piece that ends before the break is cut the same without it
  induction u generalizing before skip P with
  | nil =>
    obtain rfl : skip = 0 := Nat.le_zero.mp hskip
    obtain rfl : P = [] :=
      eq_nil_of_texts (fun p hp => text_ne_nil_of_mem_cut (hcut ▸ List.mem_append_left Q hp)) htexts
    rfl
  | cons c u ih =>
    have hlast : (c :: u).getLast?.or before = u.getLast?.or (some c) := by
      rw [List.getLast?_cons]
      cases u.getLast? <;> rfl
    rw [hlast]
    cases skip with
    | succ k => exact ih (Nat.le_of_succ_le_succ hskip) hcut htexts
    | zero =>
      cases P with
      | nil => simp at htexts
      | cons p P =>
        obtain ⟨kind, n, hnext⟩ : ∃ kind n, next before c (u ++ z :: v) = (kind, n) := ⟨_, _, rfl⟩
        have hle := next_le before c (u ++ z :: v)
        rw [List.cons_append, cut, hnext, List.cons_append, List.cons.injEq] at hcut
        obtain ⟨rfl, hcut⟩ := hcut
        rw [List.flatMap_cons, List.drop_zero, List.cons_append, List.cons.injEq] at htexts
        have hn : n ≤ u.length := by
          have := congrArg List.length htexts.2
          simp only [hnext, List.length_append, List.length_take] at this hle
          omega
        rw [List.cons_append, cut, next_append_cons_break hr hnext hn v',
          List.take_append_of_le_length hn]
        rw [List.take_append_of_le_length hn] at htexts ⊢
        rw [ih hn hcut, List.cons_append]
        rw [← List.append_right_inj (u.take n), List.take_append_drop]
        exact htexts.2

theorem cut_rparen (before : Option Char) (v : List Char) :
    cut before 0 (')' :: v) = Piece.rparen :: ofText v := by
  rw [cut, next_rparen, List.take_zero, cut_before (by decide)]
  rfl

theorem cut_lparen (before : Option Char) (v : List Char) :
    cut before 0 ('(' :: v) = Piece.lparen :: ofText v := by
  rw [cut, next_lparen_eq, List.take_zero, cut_before (by decide)]
  rfl

/-- Text that ends between pieces when a parenthesis closes after it. -/
def IsComplete (y : List Char) : Prop :=
  ofText (y ++ [')']) = ofText y ++ [Piece.rparen]

instance (y : List Char) : Decidable (IsComplete y) :=
  inferInstanceAs (Decidable (_ = _))

/-- **Grafting.** When complete text is put between two parentheses of a text, its pieces are put
between the parentheses. -/
theorem ofText_graft (hy : IsComplete y) {front inner rest : List Piece}
    (hcut : ofText cs = front ++ Piece.lparen :: (inner ++ Piece.rparen :: rest)) :
    ofText (front.flatMap text ++ '(' :: (y ++ ')' :: rest.flatMap text)) =
      front ++ Piece.lparen :: (ofText y ++ Piece.rparen :: rest) := by
  have htexts :
      front.flatMap text ++ '(' :: (inner.flatMap text ++ ')' :: rest.flatMap text) = cs := by
    simpa [Piece.lparen, Piece.rparen] using (eq_texts_of_ofText hcut).symm
  -- the parentheses keep the text before and after them apart from the text between them
  have hfront (v : List Char) : ofText (front.flatMap text ++ '(' :: v) =
      front ++ Piece.lparen :: ofText v := by
    have hsplit : cut none 0 (front.flatMap text ++ '(' :: (inner.flatMap text ++
        ')' :: rest.flatMap text)) = front ++ Piece.lparen :: (inner ++ Piece.rparen :: rest) := by
      rw [htexts]
      exact hcut
    rw [ofText, cut_append_break (r := '(') (by decide) (Nat.zero_le _) hsplit rfl, cut_lparen]
  have hback (u v : List Char) (hu : ofText (u ++ [')']) = ofText u ++ [Piece.rparen]) :
      ofText (u ++ ')' :: v) = ofText u ++ Piece.rparen :: ofText v := by
    have hsame : (ofText u).flatMap text = u.drop 0 := texts_ofText u
    rw [ofText, cut_append_break breaks_rparen (Nat.zero_le _) hu hsame, cut_rparen]
  have hinner : ofText (inner.flatMap text ++ ')' :: rest.flatMap text) =
      inner ++ Piece.rparen :: rest := by
    have := hfront (inner.flatMap text ++ ')' :: rest.flatMap text)
    rw [htexts, hcut] at this
    simpa using this.symm
  have hrest : ofText (rest.flatMap text) = rest := by
    have := (cut_append (Nat.zero_le _) hinner rfl).2
    rw [cut_rparen] at this
    simpa using this
  rw [hfront, hback y _ hy, hrest]

end Piece

namespace Token

variable {start depth : Nat} {t l r : Token} {front rest ts us vs body : List Token}
  {ps : List Piece}

/-- The first token of some pieces, and the tokens of those after it. -/
theorem exists_of_locate_cons (h : t :: vs = locate start depth ps) :
    ∃ text place ps', t = ofPiece t.kind text place depth ∧
      vs = locate t.stop (depthAfter depth t.kind) ps' := by
  have hsplit : locate start depth ps = [] ++ t :: vs := h.symm
  obtain ⟨ps₁, text, ps₂, -, hnil, ht, hvs⟩ := exists_of_locate hsplit
  have hdepth : depthThrough depth ps₁ = depth :=
    depthThrough_of_nesting (by rw [← hnil]; rfl)
  rw [hdepth] at ht hvs
  exact ⟨text, _, ps₂, ht, hvs⟩

/-- Tokens that are found in a text one after the other. -/
structure Located (ts : List Token) : Prop where
  pieces : ∃ start depth ps, ts = locate start depth ps
  text : ∀ t ∈ ts, t.kind = .lparen → t.text = "("

/-- Depths in a text are those of its parentheses. -/
theorem located_tokenize (sql : String) : Located (tokenize sql) := by
  refine ⟨⟨0, 0, _, rfl⟩, fun t ht hkind => ?_⟩
  obtain ⟨⟨kind, text⟩, hp, hpkind, htext⟩ := exists_piece_of_mem_locate ht
  obtain rfl : kind = some .lparen := hkind ▸ hpkind
  rw [htext, Piece.text_of_lparen hp]

namespace Located

theorem left (h : Located (us ++ vs)) : Located us := by
  refine ⟨?_, fun t ht => h.text t (List.mem_append_left _ ht)⟩
  obtain ⟨start, depth, ps, hps⟩ := h.pieces
  cases vs with
  | nil => exact ⟨start, depth, ps, by rwa [List.append_nil] at hps⟩
  | cons t vs =>
    obtain ⟨ps₁, -, -, -, hus, -, -⟩ := exists_of_locate hps.symm
    exact ⟨start, depth, ps₁, hus⟩

theorem tail (h : Located (t :: ts)) : Located ts := by
  refine ⟨?_, fun t ht => h.text t (List.mem_cons_of_mem _ ht)⟩
  obtain ⟨start, depth, ps, hps⟩ := h.pieces
  obtain ⟨-, -, ps', -, hrest⟩ := exists_of_locate_cons hps
  exact ⟨_, _, ps', hrest⟩

theorem right (h : Located (us ++ vs)) : Located vs := by
  induction us with
  | nil => exact h
  | cons t us ih => exact ih h.tail

end Located

/-- **A group among located tokens.** What is balanced after an opening parenthesis is deeper than
it, and the parenthesis that follows closes it at its own depth. -/
theorem Located.group (h : Located (l :: (body ++ r :: rest))) (hl : l.kind = .lparen)
    (hbody : nesting 0 body = some 0) (hr : r.kind = .rparen) :
    (∀ t ∈ body, l.depth < t.depth) ∧ r.depth = l.depth := by
  obtain ⟨start, depth, ps, hps⟩ := h.pieces
  obtain ⟨text, place, ps', hltoken, hrest⟩ := exists_of_locate_cons hps
  have hdepth : l.depth = depth := by
    rw [hltoken, hl]
    rfl
  rw [hl, ← hdepth] at hrest
  obtain ⟨inner, text, outer, -, hinner, hrtoken, -⟩ := exists_of_locate hrest.symm
  have hbalanced : IsBalanced inner := by
    rw [IsBalanced, nesting_locate 0 0 l.stop (depthAfter l.depth .lparen), ← hinner, hbody]
  refine ⟨fun t ht => hbalanced.le_depth (hinner ▸ ht), ?_⟩
  rw [hrtoken, hr, ofPiece, if_pos rfl]
  simp [depthAfter, hbalanced.depthThrough_eq]

/-- The text `sql` with `y` in the place of what stands between two of its tokens. -/
def graft (sql : String) (l r : Token) (y : List Char) : String :=
  String.ofList (sql.toList.take l.stop ++ (y ++ sql.toList.drop r.start))

variable {sql : String} {y : List Char}

/-- **The tokens of a grafted text** are those before the graft, those of the graft, one level
deeper, and those after it, at other places. -/
theorem tokenize_graft (hT : tokenize sql = front ++ l :: (body ++ r :: rest))
    (hl : l.kind = .lparen) (hbody : nesting 0 body = some 0) (hr : r.kind = .rparen)
    (hy : Piece.IsComplete y) (hbalanced : IsBalanced (Piece.ofText y)) :
    ∃ r' rest', tokenize (graft sql l r y) = front ++
        l :: ((locate 0 0 (Piece.ofText y)).map (shift l.stop (l.depth + 1)) ++ r' :: rest') ∧
      (r' :: rest').map lexeme = (r :: rest).map lexeme ∧ r'.start = l.stop + y.length := by
  obtain ⟨before, text, ps, hps, hfront, hltoken, hinside⟩ := exists_of_locate hT
  rw [hl] at hps hltoken hinside
  obtain rfl : text = ['('] := Piece.text_of_lparen (hps ▸ List.mem_append_right _ (by simp))
  have hdepth : depthThrough 0 before = l.depth := by
    rw [hltoken]
    rfl
  have hlstop : 0 + (before.flatMap Piece.text).length + ['('].length = l.stop := by
    rw [hltoken]
    rfl
  rw [hdepth, show depthAfter l.depth .lparen = l.depth + 1 from rfl] at hinside
  obtain ⟨inner, text, outer, rfl, hinner, hrtoken, hrest⟩ := exists_of_locate hinside.symm
  rw [hr] at hps hrtoken hrest
  have hmem : ⟨some .rparen, text⟩ ∈ Piece.ofText sql.toList := by
    rw [hps]
    simp
  obtain rfl : text = [')'] := Piece.text_of_rparen hmem
  have hbalanced' : IsBalanced inner := by
    rw [IsBalanced, nesting_locate 0 0 l.stop (l.depth + 1), ← hinner, hbody]
  have hrstart : r.start = l.stop + (inner.flatMap Piece.text).length :=
    congrArg Token.start hrtoken
  -- the text around the graft, and so the pieces of the whole
  have htexts : (before.flatMap Piece.text ++ ['(']) ++
      (inner.flatMap Piece.text ++ (')' :: outer.flatMap Piece.text)) = sql.toList := by
    simpa using (Piece.eq_texts_of_ofText hps).symm
  have hgraft : (graft sql l r y).toList = before.flatMap Piece.text ++
      '(' :: (y ++ ')' :: outer.flatMap Piece.text) := by
    have hlength : l.stop = (before.flatMap Piece.text ++ ['(']).length := by
      rw [← hlstop, List.length_append, Nat.zero_add]
    rw [graft, String.toList_ofList, ← htexts, List.take_left' hlength.symm, hrstart, hlength,
      ← List.drop_drop, List.drop_left, List.drop_left]
    simp
  have hy' : (Piece.ofText y).flatMap Piece.text = y := Piece.texts_ofText y
  refine ⟨ofPiece .rparen [')'] (l.stop + y.length) (l.depth + 1),
    locate (l.stop + y.length + 1) l.depth outer, ?_, ?_, rfl⟩
  · rw [tokenize, hgraft, Piece.ofText_graft hy hps, locate_append, ← hfront, Piece.lparen,
      locate_some, ← hltoken, locate_append, Piece.rparen, locate_some, hdepth,
      show depthAfter l.depth .lparen = l.depth + 1 from rfl, hlstop, hbalanced.depthThrough_eq,
      hy', hbalanced.locate_eq l.stop]
    rfl
  · rw [List.map_cons, List.map_cons, hrest, hrtoken, hbalanced'.depthThrough_eq]
    congr 1
    exact lexemes_locate_start _ _ _ _

/-- What stands after an opening parenthesis closes it where it closes its depth. -/
theorem Located.closing?_eq (h : Located (l :: ts)) (hl : l.kind = .lparen) :
    closing? l.depth ts = closeOf 0 ts := by
  obtain ⟨start, depth, ps, hps⟩ := h.pieces
  obtain ⟨text, place, ps', hltoken, rfl⟩ := exists_of_locate_cons hps
  have hdepth : l.depth = depth := by
    rw [hltoken, hl]
    rfl
  rw [hl, hdepth]
  exact closing?_locate _ _ 0 _

/-- **Inside an open parenthesis** every token is deeper than it. -/
theorem Located.lt_depth (h : Located (l :: (us ++ t :: vs))) (hl : l.kind = .lparen)
    (hopen : closeOf 0 (us ++ [t]) = none) : l.depth < t.depth := by
  obtain ⟨start, depth, ps, hps⟩ := h.pieces
  obtain ⟨text, place, ps', hltoken, hrest⟩ := exists_of_locate_cons hps
  have hdepth : l.depth = depth := by
    rw [hltoken, hl]
    rfl
  rw [hl, ← hdepth] at hrest
  obtain ⟨inner, text, outer, -, rfl, httoken, -⟩ := exists_of_locate hrest.symm
  obtain ⟨m, hm⟩ := closeOf_eq_none_iff.mp (closeOf_eq_none_of_append hopen)
  have hadd := nesting_add hm (depthAfter l.depth .lparen)
  rw [Nat.zero_add] at hadd
  have hself : t.depth = if t.kind = .rparen then m + (l.depth + 1) - 1 else m + (l.depth + 1) := by
    rw [congrArg Token.depth httoken, ofPiece, depthThrough_of_nesting hadd]
    rfl
  -- a parenthesis that closes with none open inside would close the one around
  have hm0 : t.kind = .rparen → m ≠ 0 := fun hkind hm0 => by
    rw [closeOf_append_of_nesting hm, closeOf, nestingStep_eq_none_iff.mpr ⟨hkind, hm0⟩] at hopen
    simp at hopen
  rw [hself]
  split
  · have := hm0 ‹_›
    omega
  · omega

/-- The tokens that a query is read from are tokens of its text. -/
theorem located_statementTokens (sql : String) : Located (statementTokens sql) := by
  obtain ⟨semis, -, hsplit⟩ := statementTokens_append sql
  exact Located.left (hsplit ▸ located_tokenize sql)

theorem consecutive_statementTokens (sql : String) : Consecutive (statementTokens sql) := by
  obtain ⟨semis, -, hsplit⟩ := statementTokens_append sql
  exact (consecutive_tokenize sql).sublist (hsplit ▸ List.sublist_append_left _ _)

end Token

end IndexAdvice
