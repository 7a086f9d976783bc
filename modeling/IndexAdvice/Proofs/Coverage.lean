import IndexAdvice.Proofs.AlignedTokens
import IndexAdvice.Proofs.Searching
import IndexAdvice.Proofs.ShiftedTokens
import Mathlib.Data.List.Infix
import Mathlib.Data.Nat.Find

/-!
# Tokens cover their text

A query text is tiled by its tokens and by layout: blanks, line comments and block comments.
`IsLayout` says what layout is without a word on how it is skipped, and `Uncovered` what lies
between two tokens that follow each other, before the first one and after the last one.

* `isLayoutUnit_of_next`, `next_of_isLayoutUnit`: a piece that is no token is one unit of layout,
  and such a unit is one piece.
* `isLayout_of_cut`: pieces of which none is a token are layout.
* `tokens_cover_text`: every token is what the text has at its place, the tokens follow each other
  without overlap, and whatever lies between them is layout.

A comment is closed by the first mark that could close it, and by the end of the text if there is
none, so whether characters are layout depends on what follows them: both relations carry the rest
of the text along.
-/

namespace IndexAdvice

open Text

/-! ### Layout -/

/-- **A unit of layout** before the text `rest`: a blank character, a line comment through its line
break, or a block comment through the first mark that closes it. A comment that is not closed is
the end of the text. -/
inductive IsLayoutUnit : List Char → List Char → Prop
  | blank {c : Char} (rest : List Char) (hc : isBlank c = true) : IsLayoutUnit rest [c]
  | line {body : List Char} (rest : List Char) (hbody : '\n' ∉ body) :
    IsLayoutUnit rest ('-' :: '-' :: (body ++ ['\n']))
  | lastLine {body : List Char} (hbody : '\n' ∉ body) : IsLayoutUnit [] ('-' :: '-' :: body)
  | block {body : List Char} (rest : List Char) (hbody : ¬ ['*', '/'] <:+: body) :
    IsLayoutUnit rest ('/' :: '*' :: (body ++ ['*', '/']))
  | openBlock {body : List Char} (hbody : ¬ ['*', '/'] <:+: body) :
    IsLayoutUnit [] ('/' :: '*' :: body)

/-- **Layout** before the text `rest`: any number of units, one after the other. -/
inductive IsLayout (rest : List Char) : List Char → Prop
  | nil : IsLayout rest []
  | cons {unit gap : List Char} (hunit : IsLayoutUnit (gap ++ rest) unit)
    (hgap : IsLayout rest gap) : IsLayout rest (unit ++ gap)

namespace Piece

variable {before : Option Char} {c : Char} {skip n m : Nat}
  {p cs text pattern tail rest : List Char} {P G Q : List Piece}

/-! ### Where a search ends -/

/-- **Through a mark**: up to its first occurrence and over it, or to the end if there is none. -/
theorem through_cases (hp : p ≠ []) (cs : List Char) :
    (∃ body rest, cs = body ++ p ++ rest ∧ through p cs = (body ++ p).length ∧ ¬ p <:+: body) ∨
      through p cs = cs.length ∧ ¬ p <:+: cs := by
  unfold through throughFirst?
  cases h : searchFrom p 0 cs with
  | none => exact .inr ⟨rfl, not_infix_of_searchFrom hp h⟩
  | some m =>
    obtain ⟨body, rest, hcs, rfl, hbody⟩ := exists_of_searchFrom hp h
    exact .inl ⟨body, rest, hcs, Nat.zero_add _, hbody⟩

/-- **What goes through a mark** ends with the first one, or with the text if it has none. -/
theorem through_eq_length_iff (hc : c ∉ pattern) :
    through (c :: pattern) (tail ++ rest) = tail.length ↔
      (∃ body, tail = body ++ c :: pattern ∧ ¬ c :: pattern <:+: body) ∨
        rest = [] ∧ ¬ c :: pattern <:+: tail := by
  constructor
  · intro h
    rcases through_cases (List.cons_ne_nil c pattern) (tail ++ rest) with
      ⟨body, rest', hcs, hlength, hbody⟩ | ⟨hlength, hcs⟩
    · obtain ⟨rfl, -⟩ := List.append_inj hcs (h.symm.trans hlength)
      exact .inl ⟨body, rfl, hbody⟩
    · obtain rfl : rest = [] := by
        refine List.eq_nil_of_length_eq_zero ?_
        rw [h, List.length_append] at hlength
        omega
      exact .inr ⟨rfl, by rwa [List.append_nil] at hcs⟩
  · rintro (⟨body, rfl, hbody⟩ | ⟨rfl, htail⟩)
    · have hfirst := searchFrom_first hc hbody 0 rest
      rw [List.append_assoc, through, throughFirst?, hfirst, Option.getD_some, List.length_append,
        List.length_cons, Nat.zero_add]
    · rw [List.append_nil]
      rcases through_cases (List.cons_ne_nil c pattern) tail with
        ⟨body, rest, rfl, -, -⟩ | ⟨hlength, -⟩
      · exact absurd ⟨body, rest, rfl⟩ htail
      · exact hlength

/-! ### Pieces of layout -/

/-- What starts a piece that is no token. -/
theorem starts_of_next (h : (next before c cs).1 = none) :
    isBlank c = true ∨ (c = '-' ∧ cs.head? = some '-') ∨ (c = '/' ∧ cs.head? = some '*') := by
  by_contra hno
  simp only [not_or] at hno
  obtain ⟨hblank, hline, hblock⟩ := hno
  have hne : ¬ (c == '-' && cs.head? == some '-') = true ∧
      ¬ (c == '/' && cs.head? == some '*') = true := by
    simpa only [Bool.and_eq_true, beq_iff_eq] using ⟨hline, hblock⟩
  rw [next, if_neg hblank, if_neg hne.1, if_neg hne.2] at h
  -- every later branch gives a kind
  repeat' split at h
  all_goals simp at h

/-- A line comment goes through its line break. -/
theorem next_line (h : cs.head? = some '-') : next before '-' cs = (none, through ['\n'] cs) := by
  rw [next, if_neg (by decide), if_pos (by simp [h])]

/-- A block comment goes through the first mark that closes it. -/
theorem next_block : next before '/' ('*' :: cs) = (none, through ['*', '/'] cs + 1) := by
  rw [next, if_neg (by decide), if_neg (by simp), if_pos (by simp), List.tail_cons]

/-- **A piece that is no token** is a unit of layout. -/
theorem isLayoutUnit_of_next (h : (next before c cs).1 = none) :
    IsLayoutUnit (cs.drop (next before c cs).2) (c :: cs.take (next before c cs).2) := by
  rcases starts_of_next h with hc | ⟨rfl, hhead⟩ | ⟨rfl, hhead⟩
  · rw [next_blank hc]
    exact .blank _ hc
  · rw [next_line hhead]
    rcases through_cases (List.cons_ne_nil '\n' []) cs with
      ⟨body, rest, rfl, hlength, hbody⟩ | ⟨hlength, hcs⟩
    · rw [List.singleton_infix_iff] at hbody
      rw [hlength, List.take_left, List.drop_left]
      -- the second dash is before the line break
      obtain ⟨body, rfl⟩ : ∃ body', body = '-' :: body' := by
        cases body with
        | nil => simp at hhead
        | cons d body => exact ⟨body, by simpa using hhead⟩
      exact .line rest (List.not_mem_of_not_mem_cons hbody)
    · rw [List.singleton_infix_iff] at hcs
      rw [hlength, List.take_length, List.drop_length]
      obtain ⟨cs, rfl⟩ := List.head?_eq_some_iff.mp hhead
      exact .lastLine (List.not_mem_of_not_mem_cons hcs)
  · obtain ⟨cs, rfl⟩ := List.head?_eq_some_iff.mp hhead
    rw [next_block, List.take_succ_cons, List.drop_succ_cons]
    rcases through_cases (List.cons_ne_nil '*' ['/']) cs with
      ⟨body, rest, rfl, hlength, hbody⟩ | ⟨hlength, hcs⟩
    · rw [hlength, List.take_left, List.drop_left]
      exact .block rest hbody
    · rw [hlength, List.take_length, List.drop_length]
      exact .openBlock hcs

/-- **A unit of layout** is a piece, and no token. -/
theorem next_of_isLayoutUnit (h : IsLayoutUnit rest (c :: tail)) :
    next before c (tail ++ rest) = (none, tail.length) := by
  cases h with
  | blank _ hc => exact next_blank hc before rest
  | @line body _ hbody =>
    have hline : ¬ ['\n'] <:+: '-' :: body := by simpa [List.singleton_infix_iff] using hbody
    rw [next_line rfl, Prod.mk.injEq, through_eq_length_iff List.not_mem_nil]
    exact ⟨rfl, .inl ⟨'-' :: body, rfl, hline⟩⟩
  | @lastLine body hbody =>
    have hline : ¬ ['\n'] <:+: '-' :: body := by simpa [List.singleton_infix_iff] using hbody
    rw [next_line rfl, Prod.mk.injEq, through_eq_length_iff List.not_mem_nil]
    exact ⟨rfl, .inr ⟨rfl, hline⟩⟩
  | @block body _ hbody =>
    rw [List.cons_append, next_block,
      (through_eq_length_iff (by decide)).mpr (.inl ⟨_, rfl, hbody⟩)]
    rfl
  | @openBlock body hbody =>
    rw [List.cons_append, next_block, (through_eq_length_iff (by decide)).mpr (.inr ⟨rfl, hbody⟩)]
    rfl

/-- Every piece that is no token is a unit of layout, given the text after it. -/
theorem isLayoutUnit_of_cut (h : cut before skip cs = P ++ ⟨none, text⟩ :: Q) :
    IsLayoutUnit (Q.flatMap Piece.text) text := by
  induction cs generalizing before skip P with
  | nil => cases skip <;> simp [cut] at h
  | cons c cs ih =>
    cases skip with
    | succ k => exact ih h
    | zero =>
      rw [cut] at h
      cases P with
      | nil =>
        obtain ⟨hpiece, rfl⟩ := List.cons.inj h
        obtain ⟨hkind, rfl⟩ := Piece.mk.inj hpiece
        rw [texts_cut]
        exact isLayoutUnit_of_next hkind
      | cons p P => exact ih (List.cons.inj h).2

/-- **Pieces of which none is a token** are layout. -/
theorem isLayout_of_cut (hcut : cut before skip cs = P ++ (G ++ Q))
    (hG : ∀ p ∈ G, p.kind = none) : IsLayout (Q.flatMap Piece.text) (G.flatMap Piece.text) := by
  induction G generalizing P with
  | nil => exact .nil
  | cons p G ih =>
    obtain ⟨kind, text⟩ := p
    obtain rfl : kind = none := hG ⟨kind, text⟩ List.mem_cons_self
    have hunit : IsLayoutUnit ((G ++ Q).flatMap Piece.text) text := isLayoutUnit_of_cut hcut
    rw [List.flatMap_append] at hunit
    refine .cons hunit (@ih (P ++ [⟨none, text⟩]) ?_ fun p hp => hG p (List.mem_cons_of_mem _ hp))
    rw [hcut, List.append_assoc]
    rfl

end Piece

/-! ### Between the tokens -/

section Between

open Token

variable {t : Token} {ts : List Token} {ps : List Piece} {n a b k : Nat}

/-- The characters from `a` up to `b` of a text of `n` characters are **an uncovered stretch**: no
token has any of them, and at each end there is a token or the end of the text. -/
structure Uncovered (ts : List Token) (n a b : Nat) : Prop where
  le : a ≤ b
  le_length : b ≤ n
  outside : ∀ t ∈ ts, t.stop ≤ a ∨ b ≤ t.start
  left : a = 0 ∨ ∃ t ∈ ts, t.stop = a
  right : b = n ∨ ∃ t ∈ ts, t.start = b

/-- A character that belongs to no token lies in an uncovered stretch. -/
theorem exists_uncovered (hk : k < n) (h : ∀ t ∈ ts, t.stop ≤ k ∨ k < t.start) :
    ∃ a b, Uncovered ts n a b ∧ a ≤ k ∧ k < b := by
  classical
  -- the last token that stops before the character, and the first one that starts after it
  let stops a := a = 0 ∨ ∃ t ∈ ts, t.stop = a
  let starts b := k < b ∧ (b = n ∨ ∃ t ∈ ts, t.start = b)
  have hex : ∃ b, starts b := ⟨n, hk, .inl rfl⟩
  have hle : Nat.findGreatest stops k ≤ k := Nat.findGreatest_le k
  obtain ⟨hlt, hstart⟩ := Nat.find_spec hex
  refine ⟨_, _, ⟨by omega, Nat.find_min' hex ⟨hk, .inl rfl⟩, fun t ht => ?_, ?_, hstart⟩, hle, hlt⟩
  · rcases h t ht with hbefore | hafter
    · exact .inl (Nat.le_findGreatest hbefore (.inr ⟨t, ht, rfl⟩))
    · exact .inr (Nat.find_min' hex ⟨hafter, .inr ⟨t, ht, rfl⟩⟩)
  · exact Nat.findGreatest_spec (P := stops) (Nat.zero_le k) (.inl rfl)

/-- A token divides the pieces before it from those after it. -/
theorem exists_pieces_around (h : t ∈ locate 0 0 ps) :
    ∃ P text Q, ps = P ++ ⟨some t.kind, text⟩ :: Q ∧ t.text.toList = text ∧
      t.start = (P.flatMap Piece.text).length ∧ t.stop = t.start + text.length := by
  obtain ⟨us, vs, hsplit⟩ := List.append_of_mem h
  obtain ⟨P, text, Q, hps, -, ht, -⟩ := exists_of_locate hsplit
  rw [Nat.zero_add] at ht
  refine ⟨P, text, Q, hps, ?_, congrArg Token.start ht, ?_⟩
  · rw [congrArg Token.text ht]
    exact String.toList_ofList
  · rw [congrArg Token.stop ht, congrArg Token.start ht]
    rfl

/-- Where an uncovered stretch begins, the pieces are divided. -/
theorem exists_pieces_left (h : a = 0 ∨ ∃ t ∈ locate 0 0 ps, t.stop = a) :
    ∃ P Q, ps = P ++ Q ∧ (P.flatMap Piece.text).length = a := by
  rcases h with rfl | ⟨t, ht, rfl⟩
  · exact ⟨[], ps, rfl, rfl⟩
  · obtain ⟨P, text, Q, rfl, -, hstart, hstop⟩ := exists_pieces_around ht
    refine ⟨P ++ [⟨some t.kind, text⟩], Q, by rw [List.append_assoc]; rfl, ?_⟩
    rw [hstop, hstart, List.flatMap_append, List.flatMap_singleton, List.length_append]

/-- And where it ends. -/
theorem exists_pieces_right
    (h : b = (ps.flatMap Piece.text).length ∨ ∃ t ∈ locate 0 0 ps, t.start = b) :
    ∃ P Q, ps = P ++ Q ∧ (P.flatMap Piece.text).length = b := by
  rcases h with rfl | ⟨t, ht, rfl⟩
  · exact ⟨ps, [], (List.append_nil ps).symm, rfl⟩
  · obtain ⟨P, text, Q, rfl, -, hstart, -⟩ := exists_pieces_around ht
    exact ⟨P, _, rfl, hstart.symm⟩

/-- **An uncovered stretch** is made of the pieces between its ends, none of them a token. -/
theorem Uncovered.exists_pieces (hps : ∀ p ∈ ps, p.text ≠ [])
    (h : Uncovered (locate 0 0 ps) (ps.flatMap Piece.text).length a b) :
    ∃ P G Q, ps = P ++ (G ++ Q) ∧ (P.flatMap Piece.text).length = a ∧
      a + (G.flatMap Piece.text).length = b ∧ ∀ p ∈ G, p.kind = none := by
  obtain ⟨P, R, hleft, ha⟩ := exists_pieces_left h.left
  obtain ⟨P', Q, hright, hb⟩ := exists_pieces_right h.right
  obtain ⟨G, rfl, rfl⟩ : ∃ G, P' = P ++ G ∧ R = G ++ Q := by
    rcases List.append_eq_append_iff.mp (hleft.symm.trans hright) with hG | ⟨G, rfl, rfl⟩
    · exact hG
    · -- the end does not come before the beginning
      obtain rfl : G = [] := by
        refine Piece.eq_nil_of_texts (fun p hp => hps p (by simp [hleft, hp])) ?_
        have := h.le
        rw [List.flatMap_append, List.length_append] at ha
        exact List.eq_nil_of_length_eq_zero (by omega)
      exact ⟨[], by simp⟩
  rw [List.flatMap_append, List.length_append, ha] at hb
  refine ⟨P, G, Q, hleft, ha, hb, ?_⟩
  subst hleft
  have hnone : locate a (depthThrough 0 P) G = [] := by
    refine List.eq_nil_iff_forall_not_mem.mpr fun t ht => ?_
    have hmem : t ∈ locate 0 0 (P ++ (G ++ Q)) := by
      rw [locate_append, Nat.zero_add, ha, locate_append]
      exact List.mem_append_right _ (List.mem_append_left _ ht)
    have hlt := (consecutive_locate hps).start_lt t hmem
    have hstart := start_le_of_mem_locate ht
    have hstop := (stop_le_of_mem_locate ht).2
    rcases h.outside t hmem with hout | hout <;> omega
  intro p hp
  have hkinds := kinds_locate a (depthThrough 0 P) G
  rw [hnone, List.map_nil, eq_comm, List.filterMap_eq_nil_iff] at hkinds
  exact hkinds p hp

end Between

/-! ### Coverage -/

/-- **The tokens cover the text**: each is what the text has at its place, they follow each other
without overlap, and whatever is not covered is layout. -/
structure Covers (ts : List Token) (cs : List Char) : Prop where
  consecutive : Token.Consecutive ts
  stop_le_length : ∀ t ∈ ts, t.stop ≤ cs.length
  text_eq : ∀ t ∈ ts, t.text.toList = slice cs t.start t.stop
  /-- No character is left out. -/
  covered : ∀ k < cs.length, (∃ t ∈ ts, t.start ≤ k ∧ k < t.stop) ∨
    ∃ a b, Uncovered ts cs.length a b ∧ a ≤ k ∧ k < b
  isLayout : ∀ a b, Uncovered ts cs.length a b → IsLayout (cs.drop b) (slice cs a b)

theorem slice_append_append (u v w : List Char) :
    slice (u ++ (v ++ w)) u.length (u.length + v.length) = v := by
  rw [slice, List.drop_left, Nat.add_sub_cancel_left, List.take_left]

/-- **Coverage.** The tokens of every text cover it. They come from consecutive pieces, none of them
empty, that make up the text. -/
theorem tokens_cover_text (sql : String) :
    Covers (tokenize sql) sql.toList ∧
      (Piece.ofText sql.toList).flatMap Piece.text = sql.toList ∧
      ∀ p ∈ Piece.ofText sql.toList, p.text ≠ [] := by
  have htexts : (Piece.ofText sql.toList).flatMap Piece.text = sql.toList := Piece.texts_ofText _
  have hne : ∀ p ∈ Piece.ofText sql.toList, p.text ≠ [] := fun p hp =>
    Piece.text_ne_nil_of_mem_cut hp
  have hstop : ∀ t ∈ tokenize sql, t.stop ≤ sql.toList.length := fun t ht => by
    have := (Token.stop_le_of_mem_locate ht).2
    rwa [htexts, Nat.zero_add] at this
  refine ⟨⟨Token.consecutive_tokenize sql, hstop, fun t ht => ?_, fun k hk => ?_,
    fun a b h => ?_⟩, htexts, hne⟩
  · obtain ⟨P, text, Q, hps, htext, hstart, hstop⟩ := exists_pieces_around ht
    rw [htext, hstop, hstart, Piece.eq_texts_of_ofText hps, List.flatMap_cons, slice_append_append]
  · by_cases hcover : ∃ t ∈ tokenize sql, t.start ≤ k ∧ k < t.stop
    · exact .inl hcover
    · refine .inr (exists_uncovered hk fun t ht => ?_)
      by_contra hno
      exact hcover ⟨t, ht, by omega⟩
  · rw [← htexts] at h
    obtain ⟨P, G, Q, hps, rfl, rfl, hG⟩ := h.exists_pieces hne
    have hcut : Piece.cut none 0 sql.toList = P ++ (G ++ Q) := hps
    rw [Piece.eq_texts_of_ofText hps, List.flatMap_append, slice_append_append,
      ← List.append_assoc, ← List.length_append, List.drop_left]
    exact Piece.isLayout_of_cut hcut hG

end IndexAdvice
