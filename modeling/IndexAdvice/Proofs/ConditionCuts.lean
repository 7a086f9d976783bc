import IndexAdvice.Proofs.PrintedTokens

/-!
# Cutting printed conditions

A list of tokens is cut at the separators of its least depth. Tokens are `Solid` for a kind of
separator if no cut falls among them and they leave no `BETWEEN` waiting; a printed conjunction is
solid for `OR`, a printed factor for `AND` as well. So a disjunction is cut into its operands
(`Disjunction.alternatives_or`) and a conjunction into its factors (`Conjunction.conjuncts_and`),
wherever they stand.
-/

namespace IndexAdvice

namespace Token

variable {base s d : Nat} {sep : Token → Bool} {b w : Bool} {t : Token} {ts us rest : List Token}
  {ps qs : List Piece}

/-! ### Solid tokens -/

/-- Tokens that stay together when tokens of depth `base` are cut at separators. -/
def Solid (base : Nat) (sep : Token → Bool) (b : Bool) (ts : List Token) : Prop :=
  ∀ part rest, cutFrom base sep b false part (ts ++ rest) =
    cutFrom base sep b false (ts.reverse ++ part) rest

namespace Solid

/-- Two runs without a separator make one. -/
theorem append (h : Solid base sep b ts) (h' : Solid base sep b us) :
    Solid base sep b (ts ++ us) := by
  intro part rest
  rw [List.append_assoc, h, h', List.reverse_append, List.append_assoc]

/-- Solid tokens alone are one part. -/
theorem cutFrom_eq (h : Solid base sep b ts) (hne : ts ≠ []) :
    cutFrom base sep b false [] ts = [ts] := by
  have := h [] []
  rw [List.append_nil, List.append_nil] at this
  rw [this, cutFrom, flush, if_neg (by simp [hne]), List.reverse_reverse]

/-- Solid tokens before a separator are one part, and the tokens after it are cut anew. -/
theorem cutFrom_append (h : Solid base sep b ts) (hne : ts ≠ []) (hdepth : t.depth = base)
    (hbetween : t.isKeyword ["BETWEEN"] = false) (hsep : sep t = true) (rest : List Token) :
    cutFrom base sep b false [] (ts ++ t :: rest) =
      ts :: cutFrom base sep b false [] rest := by
  have hflush : flush ts.reverse = [ts] := by
    rw [flush, if_neg (by simpa using hne), List.reverse_reverse]
  rw [h, List.append_nil, cutFrom, hbetween, hsep, hdepth, hflush]
  simp

end Solid

/-! ### One token -/

/-- A `BETWEEN` waits for its `AND`. -/
theorem cutFrom_between (hdepth : t.depth = base) (ht : t.isKeyword ["BETWEEN"] = true)
    (w : Bool) (part rest : List Token) :
    cutFrom base sep b w part (t :: rest) = cutFrom base sep b true (t :: part) rest := by
  rw [cutFrom, hdepth, ht]
  simp

/-- The separator that a waiting `BETWEEN` takes divides nothing. -/
theorem cutFrom_waiting_sep (ht : t.isKeyword ["BETWEEN"] = false) (hsep : sep t = true)
    (hdepth : t.depth = base) (part rest : List Token) :
    cutFrom base sep true true part (t :: rest) =
      cutFrom base sep true false (t :: part) rest := by
  rw [cutFrom, hdepth, ht, hsep]
  simp

/-- A token that is neither divides nothing. -/
theorem cutFrom_other (h : t.depth = base → t.isKeyword ["BETWEEN"] = false ∧ sep t = false)
    (w : Bool) (part rest : List Token) :
    cutFrom base sep b w part (t :: rest) = cutFrom base sep b w (t :: part) rest := by
  rw [cutFrom]
  by_cases hdepth : t.depth = base
  · rw [(h hdepth).1, (h hdepth).2]
    simp
  · simp [hdepth]

/-- A waiting `BETWEEN` matters to conjuncts alone. -/
theorem cutFrom_waiting (base : Nat) (sep : Token → Bool) (w w' : Bool) (part ts : List Token) :
    cutFrom base sep false w part ts = cutFrom base sep false w' part ts := by
  induction ts generalizing w w' part with
  | nil => rfl
  | cons t ts ih =>
    rw [cutFrom, cutFrom]
    simp only [Bool.false_and, Bool.false_eq_true, if_false]
    rw [ih w w' (t :: part), ih w w' []]

/-! ### Many tokens -/

/-- Tokens are solid if none of the outermost ones is a separator or a `BETWEEN`. -/
theorem solid_of_forall (h : ∀ t ∈ ts, t.depth = base →
      t.isKeyword ["BETWEEN"] = false ∧ sep t = false) :
    Solid base sep b ts := by
  intro part rest
  induction ts generalizing part with
  | nil => rfl
  | cons t ts ih =>
    rw [List.cons_append, cutFrom_other (h t List.mem_cons_self),
      ih fun u hu => h u (List.mem_cons_of_mem t hu), List.reverse_cons, List.append_assoc]
    rfl

/-- Where a `BETWEEN` does not matter, tokens are solid if none of the outermost ones is a
separator. -/
theorem solid_of_forall_sep (h : ∀ t ∈ ts, t.depth = base → sep t = false) :
    Solid base sep false ts := by
  intro part rest
  induction ts generalizing part with
  | nil => rfl
  | cons t ts ih =>
    have hstep : cutFrom base sep false false part (t :: (ts ++ rest)) =
        cutFrom base sep false false (t :: part) (ts ++ rest) := by
      by_cases ht : t.depth = base ∧ t.isKeyword ["BETWEEN"] = true
      · rw [cutFrom_between ht.1 ht.2]
        exact cutFrom_waiting _ _ _ _ _ _
      · refine cutFrom_other (fun hdepth => ⟨?_, h t List.mem_cons_self hdepth⟩) _ _ _
        exact Bool.eq_false_iff.mpr fun hbetween => ht ⟨hdepth, hbetween⟩
    rw [List.cons_append, hstep, ih fun u hu => h u (List.mem_cons_of_mem t hu), List.reverse_cons,
      List.append_assoc]
    rfl

theorem isKeyword_between_of_and (h : t.isKeyword ["AND"] = true) :
    t.isKeyword ["BETWEEN"] = false := by
  simp only [isKeyword, Bool.and_eq_true, List.contains_cons, List.contains_nil, Bool.or_false,
    beq_iff_eq] at h
  simp [isKeyword, h.2]

/-- Tokens whose outermost `BETWEEN`s and `AND`s are there by turns are solid for `AND`. -/
theorem solid_of_alternate (h : alternate false (betweens base ts) = true) :
    Solid base (·.isKeyword ["AND"]) true ts := by
  -- generalized to tokens before which a `BETWEEN` may be waiting
  suffices general : ∀ w, alternate w (betweens base ts) = true → ∀ part rest,
      cutFrom base (·.isKeyword ["AND"]) true w part (ts ++ rest) =
        cutFrom base (·.isKeyword ["AND"]) true false (ts.reverse ++ part) rest from
    general false h
  clear h
  induction ts with
  | nil =>
    intro w h part rest
    obtain rfl : w = false := by simpa [betweens, alternate] using h
    rfl
  | cons t ts ih =>
    intro w h part rest
    rw [List.cons_append, List.reverse_cons, List.append_assoc, List.singleton_append]
    rw [betweens, List.filter_cons] at h
    by_cases hkey : (t.depth == base && t.isKeyword ["BETWEEN", "AND"]) = true
    · rw [if_pos hkey, alternate, Bool.and_eq_true] at h
      have hdepth : t.depth = base := by simpa using (Bool.and_eq_true_iff.mp hkey).1
      have hnext := ih (!w) h.2 (t :: part) rest
      cases w with
      | true =>
        have hand : t.isKeyword ["AND"] = true := h.1
        rw [cutFrom_waiting_sep (isKeyword_between_of_and hand) hand hdepth]
        exact hnext
      | false =>
        rw [cutFrom_between hdepth h.1]
        exact hnext
    · rw [if_neg hkey] at h
      rw [cutFrom_other fun hdepth => ?_]
      · exact ih w h (t :: part) rest
      · have hno : t.isKeyword ["BETWEEN", "AND"] = false := by simpa [hdepth] using hkey
        exact ⟨isKeyword_eq_false_of_subset (by simp) hno,
          isKeyword_eq_false_of_subset (by simp) hno⟩

/-! ### The cuts of a conjunction and a disjunction -/

/-- Pieces joined by a word are cut at the word. -/
theorem cutFrom_join {keyword : String} {w : Word} (h : IsBalanced ps) (hne : locate s d ps ≠ [])
    (hsolid : Solid d (·.isKeyword [keyword]) b (locate s d ps)) (hw : w.kind = .word)
    (hbetween : ["BETWEEN"].contains (Text.upper (String.ofList w.text)) = false)
    (hsep : [keyword].contains (Text.upper (String.ofList w.text)) = true) (qs : List Piece) :
    cutFrom d (·.isKeyword [keyword]) b false [] (locate s d (Piece.join ps w qs)) =
      locate s d ps :: cutFrom d (·.isKeyword [keyword]) b false []
        (locate (s + (ps.flatMap Piece.text).length + 1 + w.text.length + 1) d qs) := by
  rw [locate_join h hw]
  refine hsolid.cutFrom_append hne rfl ?_ ?_ _
  · rw [isKeyword_ofPiece, hbetween]
  · rw [isKeyword_ofPiece, hsep]

/-- The outermost tokens of a group are its parentheses. -/
theorem kind_of_mem_group (h : IsBalanced ps) {pad : Nat}
    (ht : t ∈ locate s d (Piece.group pad ps)) (hdepth : t.depth = d) : t.kind ≠ .word := by
  rw [locate_group h] at ht
  rcases List.mem_cons.mp ht with rfl | ht
  · exact fun hkind => by simp [ofPiece] at hkind
  · rcases List.mem_append.mp ht with ht | ht
    · have := h.le_depth ht
      omega
    · obtain rfl := List.mem_singleton.mp ht
      exact fun hkind => by simp [ofPiece] at hkind

/-- A group is never cut, since its tokens are deeper than the condition. -/
theorem solid_group (h : IsBalanced ps) (pad : Nat) (keywords : List String) :
    Solid d (·.isKeyword keywords) b (locate s d (Piece.group pad ps)) := by
  refine solid_of_forall fun t ht hdepth => ?_
  have hkind := kind_of_mem_group h ht hdepth
  exact ⟨isKeyword_eq_false hkind _, isKeyword_eq_false hkind keywords⟩

/-- Which AND belongs to a BETWEEN does not depend on where the tokens are. -/
theorem betweens_shift (s d : Nat) (ts : List Token) :
    betweens d (ts.map (shift s d)) = (betweens 0 ts).map (shift s d) := by
  rw [betweens, betweens, List.filter_map]
  congr 1
  refine List.filter_congr fun t _ => ?_
  have hdepth := beq_depth_shift s d t 0
  rw [Nat.zero_add] at hdepth
  rw [Function.comp_apply, hdepth, isKeyword_shift]

theorem alternate_shift (s d : Nat) (w : Bool) (ts : List Token) :
    alternate w (ts.map (shift s d)) = alternate w ts := by
  induction ts generalizing w with
  | nil => rfl
  | cons t ts ih => rw [List.map_cons, alternate, alternate, isKeyword_shift, ih]

end Token

open Token

/-- No OR of a condition stands at the condition's own depth. -/
theorem Atom.isKeyword_or (a : Atom) {s d : Nat} {t : Token} (ht : t ∈ locate s d a.pieces)
    (hdepth : t.depth = d) : t.isKeyword ["OR"] = false := by
  rw [(Piece.Printed.atom a).balanced.locate_eq] at ht
  obtain ⟨u, hu, rfl⟩ := List.mem_map.mp ht
  have hzero : u.depth = 0 := by
    rw [depth_shift] at hdepth
    omega
  rw [isKeyword_shift]
  exact isKeyword_eq_false_of_subset (by simp) (a.isAtomic.undivided u hu hzero)

namespace Factor

variable (f : Factor) (pad s d : Nat)

/-- A factor is never cut at an AND. -/
theorem solid_and : Solid d (·.isKeyword ["AND"]) true (locate s d (f.pieces pad)) := by
  rcases f with a | e
  · rw [Factor.pieces, (Piece.Printed.atom a).balanced.locate_eq]
    refine solid_of_alternate ?_
    rw [betweens_shift, alternate_shift]
    exact a.isAtomic.alternating
  · exact solid_group (e.printed pad).balanced pad _

/-- A factor is never cut at an OR. -/
theorem solid_or : Solid d (·.isKeyword ["OR"]) false (locate s d (f.pieces pad)) := by
  rcases f with a | e
  · exact solid_of_forall_sep fun t ht hdepth => a.isKeyword_or ht hdepth
  · exact solid_group (e.printed pad).balanced pad _

end Factor

theorem Conjunction.solid_or (pad s d : Nat) (c : Conjunction) :
    Solid d (·.isKeyword ["OR"]) false (locate s d (c.pieces pad)) := by
  cases c with
  | single f => exact f.solid_or pad s d
  | and f rest =>
    rw [Conjunction.pieces, locate_join (f.printed pad).balanced rfl]
    have hand (start : Nat) :
        Solid d (·.isKeyword ["OR"]) false [ofPiece .word Word.conj.text start d] := by
      refine solid_of_forall_sep fun t ht _ => ?_
      obtain rfl := List.mem_singleton.mp ht
      rw [isKeyword_ofPiece]
      decide
    exact (f.solid_or pad s d).append ((hand _).append (rest.solid_or pad _ d))

/-- The tokens of a factor are one conjunct. -/
theorem Conjunction.conjuncts_single (f : Factor) (pad s d : Nat) :
    conjuncts (locate s d (f.pieces pad)) = [locate s d (f.pieces pad)] := by
  have hprinted := f.printed pad
  rw [conjuncts, hprinted.balanced.baseDepth_eq (hprinted.ne_nil s d)]
  exact (f.solid_and pad s d).cutFrom_eq (hprinted.ne_nil s d)

/-- **A conjunction** is cut at its first `AND`. -/
theorem Conjunction.conjuncts_and (f : Factor) (rest : Conjunction) (pad s d : Nat) :
    conjuncts (locate s d ((Conjunction.and f rest).pieces pad)) = locate s d (f.pieces pad) ::
      conjuncts (locate (s + (f.text pad).length + 5) d (rest.pieces pad)) := by
  have hprinted := f.printed pad
  have hrest := rest.printed pad
  have hboth := (Conjunction.and f rest).printed pad
  -- the whole and the rest have the same outermost depth, so the rest is cut as it would be alone
  rw [conjuncts, conjuncts, hboth.balanced.baseDepth_eq (hboth.ne_nil s d),
    hrest.balanced.baseDepth_eq (hrest.ne_nil _ d), Conjunction.pieces,
    cutFrom_join hprinted.balanced (hprinted.ne_nil s d) (f.solid_and pad s d) rfl
      (by decide) (by decide), f.texts_pieces]
  rfl

/-- The tokens of a conjunction are one alternative. -/
theorem Disjunction.alternatives_single (c : Conjunction) (pad s d : Nat) :
    alternatives (locate s d (c.pieces pad)) = [locate s d (c.pieces pad)] := by
  have hprinted := c.printed pad
  rw [alternatives, hprinted.balanced.baseDepth_eq (hprinted.ne_nil s d)]
  exact (c.solid_or pad s d).cutFrom_eq (hprinted.ne_nil s d)

/-- **A disjunction** is cut at its first `OR`. -/
theorem Disjunction.alternatives_or (c : Conjunction) (rest : Disjunction) (pad s d : Nat) :
    alternatives (locate s d ((Disjunction.or c rest).pieces pad)) = locate s d (c.pieces pad) ::
      alternatives (locate (s + (c.text pad).length + 4) d (rest.pieces pad)) := by
  have hprinted := c.printed pad
  have hrest := rest.printed pad
  have hboth := (Disjunction.or c rest).printed pad
  -- as for `conjuncts_and`
  rw [alternatives, alternatives, hboth.balanced.baseDepth_eq (hboth.ne_nil s d),
    hrest.balanced.baseDepth_eq (hrest.ne_nil _ d), Disjunction.pieces,
    cutFrom_join hprinted.balanced (hprinted.ne_nil s d) (c.solid_or pad s d) rfl
      (by decide) (by decide), c.texts_pieces]
  rfl

end IndexAdvice
