import IndexAdvice.Proofs.Locating
import IndexAdvice.Proofs.Openings
import IndexAdvice.Parse

/-!
# The text of a group

A nested query is taken out of the text around it, trimmed, and cut into tokens again as a text of
its own. `exists_inside` says what comes of that: the tokens found again are those inside the
parentheses, at another place and depth, letter by letter if the group is closed, and with the last
string or quoted name possibly shortened if it is not.
-/

namespace IndexAdvice

open Text

/-! ### Parentheses as pieces -/

namespace Piece

/-- The tokens of parentheses are one character long. -/
theorem text_of_paren {before : Option Char} {skip : Nat} {cs text : List Char} {kind : TokenKind}
    (hkind : kind = .lparen ∨ kind = .rparen) (h : ⟨some kind, text⟩ ∈ cut before skip cs) :
    ∃ c, punctuation c = some kind ∧ text = [c] := by
  obtain ⟨b, c, ds, hp⟩ := exists_step_of_mem_cut h
  obtain ⟨kind', n, hnext⟩ : ∃ kind' n, next b c ds = (kind', n) := ⟨_, _, rfl⟩
  rw [hnext] at hp
  obtain ⟨rfl, rfl⟩ := Piece.mk.inj hp
  obtain ⟨hc, rfl⟩ := next_paren hkind hnext
  exact ⟨c, hc, rfl⟩

theorem text_of_lparen {before : Option Char} {skip : Nat} {cs text : List Char}
    (h : ⟨some .lparen, text⟩ ∈ cut before skip cs) : text = ['('] := by
  obtain ⟨c, hc, rfl⟩ := text_of_paren (.inl rfl) h
  rw [(eq_of_punctuation hc).1 rfl]

theorem text_of_rparen {before : Option Char} {skip : Nat} {cs text : List Char}
    (h : ⟨some .rparen, text⟩ ∈ cut before skip cs) : text = [')'] := by
  obtain ⟨c, hc, rfl⟩ := text_of_paren (.inr rfl) h
  rw [(eq_of_punctuation hc).2 rfl]

/-- The blanks a text starts with come before the pieces of the rest. -/
theorem ofText_trimStart (cs : List Char) :
    ∃ blanks, ofText cs = blanks ++ ofText (trimStart cs) := by
  induction cs with
  | nil => exact ⟨[], rfl⟩
  | cons c cs ih =>
    cases hc : isBlank c with
    | true =>
      obtain ⟨blanks, h⟩ := ih
      refine ⟨⟨none, [c]⟩ :: blanks, ?_⟩
      rw [ofText, cut_blank hc, h, trimStart, trimStart, List.dropWhile_cons_of_pos hc]
      rfl
    | false => exact ⟨[], by rw [trimStart, List.dropWhile_cons_of_neg (by simp [hc])]; rfl⟩

end Piece

namespace Token

variable {start depth a b k l : Nat} {t : Token} {ts us vs : List Token} {ps qs : List Piece}

/-! ### Outlines and shifts -/

theorem kinds_locate (start depth : Nat) (ps : List Piece) :
    (locate start depth ps).map kind = ps.filterMap Piece.kind := by
  induction ps generalizing start depth with
  | nil => rfl
  | cons p ps ih =>
    obtain ⟨kind, text⟩ := p
    cases kind with
    | none => rw [locate_none, ih]; rfl
    | some kind => rw [locate_some, List.map_cons, ih]; rfl

theorem map_shift_shift (a b k l : Nat) (ts : List Token) :
    (ts.map (shift a k)).map (shift b l) = ts.map (shift (a + b) (k + l)) := by
  rw [List.map_map]
  refine List.map_congr_left fun t _ => ?_
  simp only [Function.comp_apply, shift, Nat.add_assoc]

theorem outline_map_shift (h : us.map outline = vs.map outline) (a k : Nat) :
    (us.map (shift a k)).map outline = (vs.map (shift a k)).map outline := by
  have hshift (ts : List Token) : (ts.map (shift a k)).map outline =
      (ts.map outline).map fun o => (o.1, o.2.1 + a, o.2.2.1 + k, o.2.2.2) := by
    rw [List.map_map, List.map_map]
    rfl
  rw [hshift, hshift, h]

/-! ### A part of a text cut again -/

/-- Where a group closes depends on the kinds of its tokens. -/
theorem closeOf_locate (start depth start' depth' : Nat) (ps : List Piece) (n : Nat) :
    closeOf n (locate start depth ps) = closeOf n (locate start' depth' ps) :=
  closeOf_congr ((kinds_locate _ _ _).trans (kinds_locate _ _ _).symm) n

/-- So does how deep the nesting goes. -/
theorem nesting_locate (start depth start' depth' : Nat) (ps : List Piece) (n : Nat) :
    nesting n (locate start depth ps) = nesting n (locate start' depth' ps) :=
  nesting_congr ((kinds_locate _ _ _).trans (kinds_locate _ _ _).symm) n

/-- Pieces after an opening parenthesis are those of the text after it, up to any border. -/
theorem ofText_inner {cs : List Char} {front inner rest : List Piece}
    (hcut : Piece.ofText cs = (front ++ [⟨some .lparen, ['(']⟩]) ++ (inner ++ rest)) :
    Piece.ofText (inner.flatMap Piece.text) = inner := by
  rw [Piece.eq_texts_of_ofText hcut, Piece.ofText] at hcut
  have hinside := (Piece.cut_append (Nat.zero_le _) hcut rfl).2
  have hlast :
      ((front ++ [Piece.mk (some .lparen) ['(']]).flatMap Piece.text).getLast? = some '(' := by
    rw [List.flatMap_append, List.flatMap_singleton, List.getLast?_concat]
  rw [hlast, Option.some_or, Piece.cut_before (by decide), List.flatMap_append] at hinside
  exact (Piece.cut_append (Nat.zero_le _) hinside rfl).1

/-- **A part of a text cut again.** The tokens of the trimmed text between parentheses are those
inside the parentheses at another place, up to the text of the last one. If more pieces follow
inside, they are the same. -/
theorem tokenize_trim {cs : List Char} {front inner rest : List Piece}
    (hcut : Piece.ofText cs = (front ++ [⟨some .lparen, ['(']⟩]) ++ (inner ++ rest))
    (hclose : closeOf 0 (locate start depth inner) = none) :
    let x := inner.flatMap Piece.text
    let again := (tokenize (String.ofList (trim x))).map (shift (blankCount x + start) depth)
    again.map outline = (locate start depth inner).map outline ∧
      (rest ≠ [] → again = locate start depth inner) := by
  intro x again
  have hinner : Piece.ofText x = inner := ofText_inner hcut
  -- the blanks at the start and the place of the group make one shift together
  have htrimmed : locate start depth inner =
      (locate 0 0 (Piece.ofText (trimStart x))).map (shift (blankCount x + start) depth) := by
    have hplace := @locate_shift 0 0 start depth inner (by rw [← hclose, closeOf_locate])
    have hblanks := locate_trimStart 0 0 x
    have hshift := @locate_shift 0 0 (blankCount x) 0 (Piece.ofText (trimStart x)) <| by
      rw [closeOf_locate 0 0 (0 + blankCount x) 0, ← hblanks, hinner, ← hclose, closeOf_locate]
    rw [Nat.zero_add, Nat.zero_add] at hplace hshift
    rw [hplace, ← hinner, hblanks, Nat.zero_add, hshift, map_shift_shift, Nat.zero_add]
  have hagain : again = (locate 0 0 (Piece.ofText (trimEnd (trimStart x)))).map
      (shift (blankCount x + start) depth) := by
    simp only [again, tokenize, String.toList_ofList]
    rfl
  refine ⟨?_, fun hrest => ?_⟩
  · rw [hagain, htrimmed]
    exact outline_map_shift (outline_trimEnd _ _ _) _ _
  · -- what stands before another piece is closed
    obtain ⟨p, rest, rfl⟩ := List.exists_cons_of_ne_nil hrest
    obtain ⟨blanks, hblanks⟩ := Piece.ofText_trimStart x
    have hcut' : Piece.cut none 0 cs =
        (front ++ [⟨some .lparen, ['(']⟩] ++ inner) ++ p :: rest := by
      rw [List.append_assoc]
      exact hcut
    have hclosed : Piece.Closed (Piece.ofText (trimStart x)) := fun q hq =>
      Piece.closed_of_cut hcut' q <| List.mem_append_right _ <| by
        rw [← hinner, hblanks]
        exact List.mem_append_right _ hq
    rw [hagain, htrimmed, locate_trimEnd 0 0 hclosed]

/-! ### The text of a group cut again -/

theorem trimStart_eq_drop (x : List Char) : trimStart x = x.drop (blankCount x) := by
  induction x with
  | nil => rfl
  | cons c x ih =>
    cases hc : isBlank c with
    | true =>
      simp only [trimStart, blankCount, hc, List.dropWhile_cons_of_pos, List.takeWhile_cons_of_pos,
        List.length_cons, List.drop_succ_cons]
      exact ih
    | false => simp [trimStart, blankCount, hc]

theorem trimStart_mono {x z : List Char} (h : x <+: z) : trimStart x <+: trimStart z := by
  induction x generalizing z with
  | nil => exact List.nil_prefix
  | cons c x ih =>
    obtain ⟨y, rfl⟩ := h
    cases hc : isBlank c with
    | true =>
      simp only [trimStart, List.cons_append, hc, List.dropWhile_cons_of_pos]
      exact ih (List.prefix_append x y)
    | false => simp [trimStart, hc]

/-- Blanks at the end are all that trimming takes off besides those at the start. -/
theorem trim_isPrefixOf_trimStart (x : List Char) : trim x <+: trimStart x := by
  obtain ⟨blanks, -, h⟩ := trimEnd_append (trimStart x)
  exact ⟨blanks, h.symm⟩

/-- What is read in the text `inner` of a group that `t` opens, when the tokens inside the
parentheses are `body` and those after them `tail`: the tokens of the group, `offset` characters
further on, where the text begins. -/
structure Reread (cs : List Char) (t : Token) (body tail : List Token) (inner : List Char)
    (offset : Nat) : Prop where
  outline : ((tokenize (String.ofList inner)).map (shift offset (t.depth + 1))).map outline =
    body.map Token.outline
  same : tail ≠ [] → (tokenize (String.ofList inner)).map (shift offset (t.depth + 1)) = body
  begins : inner <+: cs.drop offset
  follows : inner <+: trimStart (cs.drop (t.start + 1))

theorem reread {cs : List Char} {front inner outer : List Piece} (tail : List Token)
    (hcut : Piece.ofText cs = (front ++ [⟨some .lparen, ['(']⟩]) ++ (inner ++ outer))
    (houter : tail ≠ [] → outer ≠ [])
    (hclose : closeOf 0 (locate (t.start + 1) (t.depth + 1) inner) = none)
    (hstart : t.start = (front.flatMap Piece.text).length) :
    let x := inner.flatMap Piece.text
    slice cs (t.start + 1) (t.start + 1 + x.length) = x ∧
      (outer = [] → slice cs (t.start + 1) cs.length = x) ∧
      Reread cs t (locate (t.start + 1) (t.depth + 1) inner) tail (trim x)
        (blankCount x + (t.start + 1)) := by
  intro x
  -- the pieces put together are the text, so each part is found by its length
  have htexts : (front.flatMap Piece.text ++ ['(']) ++ (x ++ outer.flatMap Piece.text) = cs := by
    have := Piece.eq_texts_of_ofText hcut
    rw [List.flatMap_append, List.flatMap_append, List.flatMap_singleton] at this
    exact this.symm
  have hdrop : cs.drop (t.start + 1) = x ++ outer.flatMap Piece.text := by
    rw [← htexts, List.drop_left' (by simp [hstart])]
  have hx : trimStart x <+: cs.drop (blankCount x + (t.start + 1)) := by
    rw [Nat.add_comm, ← List.drop_drop, hdrop, trimStart_eq_drop, List.drop_append]
    exact List.prefix_append _ _
  obtain ⟨houtline, hsame⟩ := tokenize_trim hcut hclose
  refine ⟨?_, fun houter => ?_, houtline, fun htail => hsame (houter htail),
    (trim_isPrefixOf_trimStart x).trans hx, ?_⟩
  · rw [slice, hdrop, Nat.add_sub_cancel_left, List.take_left]
  · rw [slice, hdrop, houter, List.flatMap_nil, List.append_nil, List.take_of_length_le]
    have := congrArg List.length hdrop
    simp only [List.length_drop, houter, List.flatMap_nil, List.append_nil] at this
    omega
  · rw [hdrop]
    exact (trim_isPrefixOf_trimStart x).trans (trimStart_mono (List.prefix_append _ _))

/-- The tokens after an opening parenthesis are located one level deeper. -/
theorem exists_of_lparen {cs : List Char} {pre vs : List Token}
    (h : locate 0 0 (Piece.ofText cs) = pre ++ t :: vs) (ht : t.kind = .lparen) :
    ∃ front ps, Piece.ofText cs = (front ++ [⟨some .lparen, ['(']⟩]) ++ ps ∧
      t.start = (front.flatMap Piece.text).length ∧
      vs = locate (t.start + 1) (t.depth + 1) ps := by
  obtain ⟨front, text, ps, hps, -, htoken, hvs⟩ := exists_of_locate h
  rw [ht] at hps htoken hvs
  obtain rfl : text = ['('] := Piece.text_of_lparen (hps ▸ List.mem_append_right _ (by simp))
  have hstart := congrArg Token.start htoken
  have hstop := congrArg Token.stop htoken
  have hdepth := congrArg Token.depth htoken
  simp only [ofPiece, reduceCtorEq, if_false, Nat.zero_add, List.length_singleton] at *
  refine ⟨front, ps, by rw [hps]; simp, hstart, ?_⟩
  rw [hvs, hstop, hstart, hdepth]
  rfl

/-- Semicolons at the end close no parenthesis. -/
theorem closing?_append {semis : List Token} (hsemis : ∀ s ∈ semis, s.kind = .semicolon)
    (depth : Nat) (rest : List Token) : closing? depth (rest ++ semis) = closing? depth rest := by
  have hnone : semis.findIdx? (fun s => s.kind == .rparen && s.depth == depth) = none := by
    rw [List.findIdx?_eq_none_iff]
    intro s hs
    simp [hsemis s hs]
  rw [closing?, List.findIdx?_append, hnone]
  simp [closing?]

/-- A closing parenthesis stands before the semicolons at the end. -/
theorem exists_append_of_rparen {rest semis : List Token} {u : Token}
    (h : rest ++ semis = us ++ u :: vs) (hu : u.kind = .rparen)
    (hsemis : ∀ s ∈ semis, s.kind = .semicolon) :
    ∃ more, rest = us ++ u :: more ∧ vs = more ++ semis := by
  rcases List.append_eq_append_iff.mp h with ⟨more, -, hmore⟩ | ⟨more, hrest, hmore⟩
  · have := hsemis u (by simp [hmore])
    simp [hu] at this
  · cases more with
    | nil =>
      have := hsemis u (by rw [← List.nil_append semis, ← hmore]; exact List.mem_cons_self)
      simp [hu] at this
    | cons v more =>
      obtain ⟨rfl, rfl⟩ := List.cons.inj hmore
      exact ⟨more, hrest, rfl⟩

/-- How the group ends that `t` opens before `rest` and the semicolons `semis`, when its tokens are
`body` and those after it `tail`. -/
inductive GroupEnd (t : Token) (rest semis body : List Token) : List Token → Prop where
  /-- It ends at its closing parenthesis. -/
  | closed (u : Token) (more : List Token) (split : rest = body ++ u :: more)
      (kind : u.kind = .rparen) (balanced : nesting 0 body = some 0)
      (size : Group.size t rest = body.length + 1) :
      GroupEnd t rest semis body (u :: (more ++ semis))
  /-- It has no closing parenthesis and takes all tokens, but for a parenthesis at the end. -/
  | unclosed (tail : List Token) (unclosed : closeOf 0 (body ++ tail) = none)
      (size : Group.size t rest = rest.length)
      (kinds : ∀ v ∈ tail, v.kind = .rparen ∨ v.kind = .semicolon) :
      GroupEnd t rest semis body tail

section Inside

variable {sql : String} {rest semis : List Token} {front : List Piece}

/-- A group that ends in a parenthesis has the tokens before it. -/
theorem exists_reread_of_rparen {u : Token} (before : List Token)
    (hps : Piece.ofText sql.toList = (front ++ [⟨some .lparen, ['(']⟩]) ++ ps)
    (hstart : t.start = (front.flatMap Piece.text).length)
    (hlocate : us ++ u :: vs = locate (t.start + 1) (t.depth + 1) ps)
    (hopen : closeOf 0 us = none) (hcloser : Group.closer t rest = u) (hkind : u.kind = .rparen) :
    ∃ offset, Reread sql.toList t us (u :: vs)
      (Group.openedBy sql.toList before t rest).sql offset := by
  obtain ⟨inner, text, outer, rfl, rfl, hu, -⟩ := exists_of_locate hlocate.symm
  obtain ⟨hslice, -, hreread⟩ := reread (u :: vs) hps (fun _ => List.cons_ne_nil _ _) hopen hstart
  have hustart : u.start = t.start + 1 + (inner.flatMap Piece.text).length :=
    congrArg Token.start hu
  have hsql : (Group.openedBy sql.toList before t rest).sql = trim (inner.flatMap Piece.text) := by
    simp only [Group.openedBy, hcloser, hkind, beq_self_eq_true, if_true, hustart, hslice]
  exact ⟨_, hsql ▸ hreread⟩

/-- A group that ends in no parenthesis has all tokens. -/
theorem reread_of_not_rparen {u : Token} (before : List Token)
    (hps : Piece.ofText sql.toList = (front ++ [⟨some .lparen, ['(']⟩]) ++ ps)
    (hstart : t.start = (front.flatMap Piece.text).length)
    (hlocate : rest ++ semis = locate (t.start + 1) (t.depth + 1) ps)
    (hopen : closeOf 0 (rest ++ semis) = none) (hcloser : Group.closer t rest = u)
    (hkind : u.kind ≠ .rparen) :
    ∃ offset, Reread sql.toList t (rest ++ semis) []
      (Group.openedBy sql.toList before t rest).sql offset := by
  have hps' : Piece.ofText sql.toList = (front ++ [⟨some .lparen, ['(']⟩]) ++ (ps ++ []) := by
    rw [List.append_nil, hps]
  obtain ⟨-, hslice, hreread⟩ := reread [] hps' (absurd rfl) (hlocate ▸ hopen) hstart
  have hsql : (Group.openedBy sql.toList before t rest).sql = trim (ps.flatMap Piece.text) := by
    simp only [Group.openedBy, hcloser, beq_eq_false_iff_ne.mpr hkind, Bool.false_eq_true, if_false]
    rw [hslice rfl]
  rw [← hsql, ← hlocate] at hreread
  exact ⟨_, hreread⟩

/-- **Inside a group.** The tokens after `t` are those of its group and the others, and the text of
the group makes the tokens of the group again. -/
theorem exists_inside {pre : List Token} (hT : tokenize sql = pre ++ t :: (rest ++ semis))
    (hsemis : ∀ s ∈ semis, s.kind = .semicolon) (ht : opensBefore t rest = true)
    (before : List Token) :
    ∃ body tail offset, rest ++ semis = body ++ tail ∧ closeOf 0 body = none ∧
      Reread sql.toList t body tail (Group.openedBy sql.toList before t rest).sql offset ∧
      GroupEnd t rest semis body tail := by
  obtain ⟨hlparen, hhead⟩ := Bool.and_eq_true_iff.mp ht
  obtain ⟨front, ps, hps, hstart, hlocate⟩ := exists_of_lparen hT (by simpa using hlparen)
  have hclosing : closing? t.depth rest = closeOf 0 (rest ++ semis) := by
    rw [← closing?_append hsemis, hlocate]
    exact closing?_locate _ _ 0 _
  rcases hclose : closeOf 0 (rest ++ semis) with _ | j
  · -- the group is not closed and goes on to the last token
    rw [hclose] at hclosing
    have hsize : Group.size t rest = rest.length := by simp [Group.size, hclosing]
    obtain ⟨us, u, rfl⟩ : ∃ us u, rest = us ++ [u] := by
      simp only [← List.concat_eq_append]
      exact (List.eq_nil_or_concat rest).resolve_left fun hnil => by simp [hnil] at hhead
    have hcloser : Group.closer t (us ++ [u]) = u := by
      simp [Group.closer, hclosing]
    by_cases hkind : u.kind = .rparen
    · -- the last parenthesis closes another one, but the text ends before it all the same
      have hsplit : us ++ [u] ++ semis = us ++ u :: semis := by simp
      have hopen : closeOf 0 us = none := closeOf_eq_none_of_append (hsplit ▸ hclose)
      obtain ⟨offset, hreread⟩ :=
        exists_reread_of_rparen before hps hstart (hsplit ▸ hlocate) hopen hcloser hkind
      refine ⟨us, _, offset, hsplit, hopen, hreread, .unclosed _ (hsplit ▸ hclose) hsize ?_⟩
      intro v hv
      rcases List.mem_cons.mp hv with rfl | hv
      · exact .inl hkind
      · exact .inr (hsemis v hv)
    · obtain ⟨offset, hreread⟩ :=
        reread_of_not_rparen before hps hstart hlocate hclose hcloser hkind
      refine ⟨us ++ [u] ++ semis, [], offset, (List.append_nil _).symm, hclose, hreread,
        .unclosed _ ?_ hsize (by simp)⟩
      rw [List.append_nil, hclose]
  · -- the group is closed by `u`
    obtain ⟨us, u, vs, hsplit, rfl, hbalanced, hkind⟩ := closeOf_eq_some_iff.mp hclose
    obtain ⟨more, rfl, rfl⟩ := exists_append_of_rparen hsplit hkind hsemis
    rw [hclose] at hclosing
    have hopen : closeOf 0 us = none := closeOf_eq_none_iff.mpr ⟨0, hbalanced⟩
    have hcloser : Group.closer t (us ++ u :: more) = u := by
      simp [Group.closer, hclosing, List.getD]
    have hsize : Group.size t (us ++ u :: more) = us.length + 1 := by
      simp [Group.size, hclosing]
    obtain ⟨offset, hreread⟩ :=
      exists_reread_of_rparen before hps hstart (hsplit ▸ hlocate) hopen hcloser hkind
    exact ⟨us, _, offset, hsplit, hopen, hreread, .closed u more rfl hkind hbalanced hsize⟩

end Inside

end Token

end IndexAdvice
