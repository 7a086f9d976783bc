import IndexAdvice.Proofs.PieceEnds

/-!
# Cutting a text in parts

Query text is cut piece by piece from the left, so where one piece ends is also where the cutting
of the rest begins: a text that is divided between two pieces may be cut in two parts
(`cut_append`). Blanks at the start of a text are pieces of their own, and blanks at its end make a
difference only to a last piece that is not closed (`cut_append_blank`). Together these say what is
left of the pieces of a text when a part of it is taken out, trimmed and cut again.
-/

namespace IndexAdvice.Piece

open Text

variable {before b b' : Option Char} {skip : Nat} {u v cs : List Char} {P Q : List Piece}

/-! ### Pieces and their texts -/

theorem next_le (before : Option Char) (c : Char) (cs : List Char) :
    (next before c cs).2 ≤ cs.length := by
  rw [next_eq_of_break breaks_rparen before c cs []]
  exact Nat.min_le_right _ _

/-- The pieces of a text, put together, are the text. -/
theorem texts_ofText (cs : List Char) : (ofText cs).flatMap text = cs :=
  texts_cut none 0 cs

/-- Where the pieces of a text are divided, the text is. -/
theorem eq_texts_of_ofText (h : ofText cs = P ++ Q) : cs = P.flatMap text ++ Q.flatMap text := by
  rw [← List.flatMap_append, ← h, texts_ofText]

/-- A piece comes from a step of the cutting. -/
theorem exists_step_of_mem_cut {p : Piece} (h : p ∈ cut before skip cs) :
    ∃ b c ds, p = ⟨(next b c ds).1, c :: ds.take (next b c ds).2⟩ := by
  induction cs generalizing before skip with
  | nil => cases skip <;> simp [cut] at h
  | cons c cs ih =>
    cases skip with
    | succ k => exact ih h
    | zero =>
      rcases List.mem_cons.mp h with rfl | h
      · exact ⟨before, c, cs, rfl⟩
      · exact ih h

/-- The texts of pieces of which none is empty. -/
theorem eq_nil_of_texts (hP : ∀ p ∈ P, p.text ≠ []) (h : P.flatMap text = []) : P = [] := by
  cases P with
  | nil => rfl
  | cons p P => exact absurd (List.append_eq_nil_iff.mp h).1 (hP p (by simp))

theorem cut_eq_nil (h : cs.length ≤ skip) : cut before skip cs = [] := by
  refine eq_nil_of_texts (fun p hp => text_ne_nil_of_mem_cut hp) ?_
  rw [texts_cut, List.drop_eq_nil_of_le h]

/-- **Cutting in two parts.** Pieces that make up the first part of a text are the pieces of that
part, and the others are the pieces of the second part. -/
theorem cut_append (hskip : skip ≤ u.length) (hcut : cut before skip (u ++ v) = P ++ Q)
    (htexts : P.flatMap text = u.drop skip) :
    cut before skip u = P ∧ cut (u.getLast?.or before) 0 v = Q := by
  -- a piece of the first text ends in it, as the pieces taken make up no more than this text
  induction u generalizing before skip P with
  | nil =>
    obtain rfl : skip = 0 := Nat.le_zero.mp hskip
    obtain rfl : P = [] :=
      eq_nil_of_texts (fun p hp => text_ne_nil_of_mem_cut (hcut ▸ List.mem_append_left Q hp)) htexts
    exact ⟨rfl, hcut⟩
  | cons c u ih =>
    have hlast : (c :: u).getLast?.or before = u.getLast?.or (some c) := by
      rw [List.getLast?_cons]
      cases u.getLast? <;> rfl
    rw [hlast]
    cases skip with
    | succ k => exact ih (Nat.le_of_succ_le_succ hskip) hcut htexts
    | zero =>
      cases P with
      | nil => simp at htexts
      | cons p P =>
        obtain ⟨kind, n, hnext⟩ : ∃ kind n, next before c (u ++ v) = (kind, n) := ⟨_, _, rfl⟩
        have hle := next_le before c (u ++ v)
        rw [List.cons_append, cut, hnext, List.cons_append, List.cons.injEq] at hcut
        obtain ⟨rfl, hcut⟩ := hcut
        rw [List.flatMap_cons, List.drop_zero, List.cons_append, List.cons.injEq] at htexts
        have hn : n ≤ u.length := by
          have := congrArg List.length htexts.2
          simp only [hnext, List.length_append, List.length_take] at this hle
          omega
        rw [cut, next_of_append hnext hn]
        rw [List.take_append_of_le_length hn] at htexts ⊢
        obtain ⟨hP, hQ⟩ := ih hn hcut <| by
          rw [← List.append_right_inj (u.take n), List.take_append_drop]
          exact htexts.2
        exact ⟨by rw [hP], hQ⟩

/-- The character before a text matters only if it is a colon. -/
theorem cut_before (hb : b ≠ some ':') (cs : List Char) : cut b 0 cs = ofText cs := by
  cases cs with
  | nil => rfl
  | cons c cs => rw [ofText, cut, cut, next_before hb (Option.some_ne_none _).symm]

/-! ### Blanks at the ends -/

theorem next_blank {c : Char} (hc : isBlank c = true) (before : Option Char) (cs : List Char) :
    next before c cs = (none, 0) := by
  simp [next, hc]

/-- A blank between pieces is a piece. -/
theorem cut_blank {c : Char} (hc : isBlank c = true) (before : Option Char) (cs : List Char) :
    cut before 0 (c :: cs) = ⟨none, [c]⟩ :: ofText cs := by
  rw [cut, next_blank hc, List.take_zero, cut_before]
  rintro ⟨⟩
  exact absurd hc (by decide)

/-- **A blank at the end** of a text is a piece, or it belongs to a comment, string or quoted name
that is not closed, which then reaches to the end of the text without the blank. -/
theorem cut_append_blank {r : Char} (hr : isBlank r = true) (hskip : skip ≤ u.length) :
    cut before skip (u ++ [r]) = cut before skip u ++ [⟨none, [r]⟩] ∨
      ∃ X kind w, w ≠ [] ∧ (kind = none ∨ kind = some .string ∨ kind = some .quoted) ∧
        cut before skip u = X ++ [⟨kind, w⟩] ∧
        cut before skip (u ++ [r]) = X ++ [⟨kind, w ++ [r]⟩] := by
  induction u generalizing before skip with
  | nil =>
    obtain rfl : skip = 0 := Nat.le_zero.mp hskip
    exact .inl (cut_blank hr before [])
  | cons c u ih =>
    cases skip with
    | succ k => exact ih (Nat.le_of_succ_le_succ hskip)
    | zero =>
      obtain ⟨kind, n, hnext⟩ : ∃ kind n, next before c (u ++ [r]) = (kind, n) := ⟨_, _, rfl⟩
      have hshort := next_eq_of_break (breaks_of_isBlank hr) before c u []
      have hle := next_le before c (u ++ [r])
      rw [hnext] at hshort hle
      simp only [List.length_append, List.length_singleton] at hle
      rw [List.cons_append, cut, cut, hnext, hshort]
      by_cases hn : n ≤ u.length
      · rw [Nat.min_eq_left hn, List.take_append_of_le_length hn]
        rcases @ih (some c) n hn with h | ⟨X, kind', w, hw, hkind, hcut, hcut'⟩
        · exact .inl (by rw [h]; rfl)
        · exact .inr ⟨_ :: X, kind', w, hw, hkind, by rw [hcut]; rfl, by rw [hcut']; rfl⟩
      · -- the piece takes the blank up, which only an open comment, string or name does
        obtain rfl : n = (u ++ [r]).length := by
          simp only [List.length_append, List.length_singleton]
          omega
        have hmin : min (u ++ [r]).length u.length = u.length := by simp
        rw [hmin, List.take_length, List.take_length]
        rw [cut_eq_nil (Nat.le_refl _), cut_eq_nil (Nat.le_refl _)]
        refine .inr ⟨[], kind, c :: u, by simp, ?_, rfl, rfl⟩
        cases kind with
        | none => exact .inl rfl
        | some k =>
          by_cases hk : k = .string ∨ k = .quoted
          · rcases hk with rfl | rfl <;> simp
          · refine absurd (breaks_of_isBlank hr)
              (not_breaks_of_next hnext (fun h => absurd h hk) ?_)
            rw [List.take_length, List.getLast?_concat]

/-- A blank at the end is a piece of its own, unless the last piece is layout, or a string or quoted
name that is still open. -/
theorem ofText_append_blank {r : Char} (hr : isBlank r = true) (u : List Char) :
    ofText (u ++ [r]) = ofText u ++ [⟨none, [r]⟩] ∨
      ∃ X kind w, w ≠ [] ∧ (kind = none ∨ kind = some .string ∨ kind = some .quoted) ∧
        ofText u = X ++ [⟨kind, w⟩] ∧ ofText (u ++ [r]) = X ++ [⟨kind, w ++ [r]⟩] :=
  cut_append_blank hr (Nat.zero_le _)

/-- Whether every token among the pieces ends with a character that is no blank. -/
def Closed (P : List Piece) : Prop :=
  ∀ p ∈ P, p.kind ≠ none → ∀ x ∈ p.text.getLast?, isBlank x = false

/-- Pieces before another piece are closed. -/
theorem closed_of_cut {q : Piece} (h : cut before skip cs = P ++ q :: Q) : Closed P := by
  induction cs generalizing before skip P with
  | nil => cases skip <;> simp [cut] at h
  | cons c cs ih =>
    cases skip with
    | succ k => exact ih h
    | zero =>
      cases P with
      | nil => exact fun p hp => absurd hp (by simp)
      | cons p P =>
        rw [cut, List.cons_append, List.cons.injEq] at h
        obtain ⟨rfl, h⟩ := h
        intro p hp hkind x hx
        rcases List.mem_cons.mp hp with rfl | hp
        · obtain ⟨k, hk⟩ := Option.ne_none_iff_exists'.mp hkind
          -- the piece does not reach the end, as another one comes after it
          have hlt : (next before c cs).2 < cs.length := by
            refine Nat.lt_of_not_le fun hle => ?_
            rw [cut_eq_nil hle] at h
            simp at h
          rw [List.getLast?_cons] at hx
          cases htake : (cs.take (next before c cs).2).getLast? with
          | some y =>
            obtain rfl : y = x := by simpa [htake] using hx
            exact Bool.eq_false_iff.mpr fun hy => not_breaks_of_next (Prod.ext hk rfl)
              (fun _ => hlt) htake (breaks_of_isBlank hy)
          | none =>
            obtain rfl : c = x := by simpa [htake] using hx
            exact Bool.eq_false_iff.mpr fun hc => hkind (by simp [next_blank hc])
        · exact ih h p hp hkind x hx

end IndexAdvice.Piece
