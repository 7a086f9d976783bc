import IndexAdvice.Proofs.Grafting
import IndexAdvice.Proofs.Passages

/-!
# Which parenthesis closes which

`Token.WellNested` says by a grammar which tokens are balanced, and `Token.Closes` with it which
parenthesis closes which one, without counting anything. The tokens of a text carry depths, and the
parenthesis that closes one is found by comparing these. Both come to the same:

* `closes_iff`: the first parenthesis that closes more than was opened since is the one that closes.
* `foldl_depthAfter`: the depth after some tokens is the number of parentheses that they leave open,
  where a surplus closing one counts for nothing.
* `depths_follow_matching`: the depths of tokens and `matchingParen` are those of the matching, for
  every text, whether or not its parentheses match. Parentheses are those that the passages of the
  text make code.

Surplus closing parentheses are what makes the depth of a text differ from a plain count. With
`d` parentheses open, a list of tokens whose surplus is `s` ends at `d - s` plus those that it
leaves open itself.
-/

namespace IndexAdvice

open Text

namespace Token

variable {n i j d : Nat} {l r t : Token} {ts us vs rest : List Token} {ps : List Piece}

/-! ### Well-nested tokens -/

/-- **Well-nested tokens**: every parenthesis among them opens or closes a group of them. -/
inductive WellNested : List Token → Prop
  | nil : WellNested []
  | skip {t : Token} {ts : List Token} (hl : t.kind ≠ .lparen) (hr : t.kind ≠ .rparen)
    (hts : WellNested ts) : WellNested (t :: ts)
  | group {l r : Token} {body ts : List Token} (hl : l.kind = .lparen) (hbody : WellNested body)
    (hr : r.kind = .rparen) (hts : WellNested ts) : WellNested (l :: (body ++ r :: ts))

theorem nestingStep_skip (hl : t.kind ≠ .lparen) (hr : t.kind ≠ .rparen) (n : Nat) :
    nestingStep n t = some n := by
  unfold nestingStep
  split <;> simp_all

theorem WellNested.nesting_eq (h : WellNested ts) : nesting 0 ts = some 0 := by
  induction h with
  | nil => rfl
  | skip hl hr _ ih => rw [nesting, nestingStep_skip hl hr, Option.bind_some, ih]
  | @group l r body ts hl _ hr _ ihbody ihts =>
    rw [show l :: (body ++ r :: ts) = (l :: (body ++ [r])) ++ ts by simp, nesting_append,
      nesting_group l r hl hr ihbody, Option.bind_some, ihts]

/-- Tokens that count out at zero can be put together from groups. -/
theorem wellNested_of_nesting (h : nesting 0 ts = some 0) : WellNested ts := by
  induction hn : ts.length using Nat.strong_induction_on generalizing ts with
  | _ n ih =>
    cases ts with
    | nil => exact .nil
    | cons t ts =>
      by_cases hl : t.kind = .lparen
      · have hsplit : nesting 0 ([] ++ t :: ts) = some 0 := h
        obtain ⟨k, hk⟩ := Option.isSome_iff_exists.mp (isSome_closeOf_of_balanced hsplit hl)
        obtain ⟨body, r, rest, rfl, -, hbody, hr⟩ := closeOf_eq_some_iff.mp hk
        rw [show t :: (body ++ r :: rest) = (t :: (body ++ [r])) ++ rest by simp, nesting_append,
          nesting_group t r hl hr hbody, Option.bind_some] at h
        simp only [List.length_cons, List.length_append] at hn
        exact .group hl (ih body.length (by omega) hbody rfl) hr (ih rest.length (by omega) h rfl)
      · have hr : t.kind ≠ .rparen := fun hr => by
          rw [nesting, nestingStep_eq_none_iff.mpr ⟨hr, rfl⟩] at h
          simp at h
        rw [nesting, nestingStep_skip hl hr, Option.bind_some] at h
        exact .skip hl hr (ih ts.length (by simp [← hn]) h rfl)

/-- The grammar and the count agree. -/
theorem wellNested_iff : WellNested ts ↔ nesting 0 ts = some 0 :=
  ⟨WellNested.nesting_eq, wellNested_of_nesting⟩

instance (ts : List Token) : Decidable (WellNested ts) :=
  decidable_of_iff _ wellNested_iff.symm

/-! ### Matching -/

/-- **The parenthesis at index `j` closes the one at index `i`**: what is between them is
well-nested. -/
structure Closes (ts : List Token) (i j : Nat) : Prop where
  lt : i < j
  lparen : ts[i]?.map kind = some .lparen
  rparen : ts[j]?.map kind = some .rparen
  wellNested : WellNested (between ts i j)

/-- What closes a parenthesis is the first one that closes more than was opened since. -/
theorem closes_iff :
    Closes ts i j ↔ ts[i]?.map kind = some .lparen ∧ closedAt? ts i = some j := by
  have hbetween (j : Nat) : between ts i j = (ts.drop (i + 1)).take (j - (i + 1)) := by
    rw [between, List.drop_take]
  constructor
  · rintro ⟨hlt, hl, hr, hnested⟩
    refine ⟨hl, Option.map_eq_some_iff.mpr ⟨j - (i + 1), ?_, by omega⟩⟩
    obtain ⟨r, hj, hkind⟩ := Option.map_eq_some_iff.mp hr
    obtain ⟨hjlt, rfl⟩ := List.getElem?_eq_some_iff.mp hj
    refine closeOf_eq_some_iff.mpr ⟨between ts i j, ts[j], ts.drop (j + 1), ?_, ?_,
      hnested.nesting_eq, hkind⟩
    · rw [between, ← List.drop_append_of_le_length (by simp; omega), List.getElem_cons_drop,
        List.take_append_drop]
    · simp [between]
      omega
  · rintro ⟨hl, hclosed⟩
    obtain ⟨k, hk, rfl⟩ := Option.map_eq_some_iff.mp hclosed
    obtain ⟨us, r, vs, hsplit, rfl, hus, hr⟩ := closeOf_eq_some_iff.mp hk
    refine ⟨by omega, hl, ?_, wellNested_of_nesting ?_⟩
    · rw [← List.getElem?_drop, hsplit, List.getElem?_append_right (Nat.le_refl _), Nat.sub_self]
      simp [hr]
    · rwa [hbetween, hsplit, Nat.add_sub_cancel_left, List.take_left]

/-- Whether the token at index `i` is an opening parenthesis that no token closes. -/
def IsUnclosed (ts : List Token) (i : Nat) : Prop :=
  ts[i]?.map kind = some .lparen ∧ ∀ j, ¬ Closes ts i j

theorem isUnclosed_iff :
    IsUnclosed ts i ↔ ts[i]?.map kind = some .lparen ∧ closedAt? ts i = none := by
  refine and_congr_right fun hl => ?_
  rw [Option.eq_none_iff_forall_ne_some]
  exact forall_congr' fun j => not_congr (closes_iff.trans (and_iff_right hl))

instance (ts : List Token) (i : Nat) : Decidable (IsUnclosed ts i) :=
  decidable_of_iff _ isUnclosed_iff.symm

/-- The indices of the parentheses that some tokens leave open. -/
def unclosed (ts : List Token) : List Nat :=
  (List.range ts.length).filter (IsUnclosed ts ·)

/-! ### Depths count the open parentheses -/

theorem isUnclosed_zero : IsUnclosed (t :: ts) 0 ↔ t.kind = .lparen ∧ closeOf 0 ts = none := by
  rw [isUnclosed_iff]
  simp [closedAt?]

theorem isUnclosed_succ : IsUnclosed (t :: ts) (i + 1) ↔ IsUnclosed ts i := by
  rw [isUnclosed_iff, isUnclosed_iff]
  simp [closedAt?]

/-- The unclosed parentheses of a list are those of its rest and maybe its first token. -/
theorem unclosed_cons (t : Token) (ts : List Token) :
    unclosed (t :: ts) = (if t.kind = .lparen ∧ closeOf 0 ts = none then [0] else []) ++
      (unclosed ts).map Nat.succ := by
  have hrest : (List.range ts.length).filter ((fun i => decide (IsUnclosed (t :: ts) i)) ∘ Nat.succ)
      = unclosed ts :=
    List.filter_congr fun i _ => decide_eq_decide.mpr isUnclosed_succ
  rw [unclosed, List.length_cons, List.range_succ_eq_map, List.filter_cons, List.filter_map, hrest]
  simp only [decide_eq_true_eq, isUnclosed_zero]
  split <;> rfl

/-- Tokens that leave nothing open close what the first of them opens. -/
theorem unclosed_cons_eq_nil (h : unclosed (t :: ts) = []) :
    (t.kind = .lparen → (closeOf 0 ts).isSome) ∧ unclosed ts = [] := by
  rw [unclosed_cons, List.append_eq_nil_iff, List.map_eq_nil_iff] at h
  refine ⟨fun hl => ?_, h.2⟩
  rw [Option.isSome_iff_ne_none]
  intro hnone
  simp [hl, hnone] at h

/-- How many parentheses some tokens close that they do not open. -/
def surplus : List Token → Nat
  | [] => 0
  | t :: ts =>
    match t.kind with
    | .lparen => surplus ts - 1
    | .rparen => surplus ts + 1
    | _ => surplus ts

/-- A depth is not left if no more than that many parentheses are closed on balance. -/
theorem closeOf_eq_none_iff_surplus : closeOf n ts = none ↔ surplus ts ≤ n := by
  induction ts generalizing n with
  | nil => simp [closeOf, surplus]
  | cons t ts ih =>
    rw [closeOf, surplus, nestingStep]
    cases t.kind with
    | lparen =>
      simp only [Option.map_eq_none_iff, ih]
      omega
    | rparen =>
      cases n with
      | zero => simp
      | succ n => simp [ih]
    | _ => simp [ih]

/-- **The depth after some tokens** is what they leave of the depth before, and the parentheses that
they leave open. -/
theorem foldl_depthAfter (d : Nat) (ts : List Token) :
    (ts.map kind).foldl depthAfter d = (d - surplus ts) + (unclosed ts).length := by
  induction ts generalizing d with
  | nil => simp [surplus, unclosed]
  | cons t ts ih =>
    rw [List.map_cons, List.foldl_cons, ih, unclosed_cons, List.length_append, List.length_map]
    simp only [closeOf_eq_none_iff_surplus, surplus]
    cases t.kind with
    | lparen =>
      simp only [depthAfter, true_and]
      split <;> simp only [List.length_singleton, List.length_nil] <;> omega
    | rparen =>
      simp [depthAfter]
      omega
    | _ => simp [depthAfter]

/-- **Depth counts the open parentheses**: counted from zero, it is the number of those not closed
so far. -/
theorem foldl_depthAfter_zero (ts : List Token) :
    (ts.map kind).foldl depthAfter 0 = (unclosed ts).length := by
  rw [foldl_depthAfter, Nat.zero_sub, Nat.zero_add]

/-- The depth behind some pieces is counted over the kinds of their tokens. -/
theorem depthThrough_eq_foldl (d start depth : Nat) (ps : List Piece) :
    depthThrough d ps = ((locate start depth ps).map kind).foldl depthAfter d := by
  rw [kinds_locate]
  induction ps generalizing d with
  | nil => rfl
  | cons p ps ih =>
    obtain ⟨_ | kind, text⟩ := p
    · exact ih d
    · exact ih (depthAfter d kind)

/-- **Depths.** A token carries the number of parentheses open before it, a closing parenthesis
those open after it. -/
theorem depth_eq_of_locate (h : locate 0 0 ps = us ++ t :: vs) :
    t.depth = (unclosed (if t.kind = .rparen then us ++ [t] else us)).length := by
  obtain ⟨front, text, back, -, hus, ht, -⟩ := exists_of_locate h
  have hdepth : depthThrough 0 front = (unclosed us).length := by
    rw [depthThrough_eq_foldl 0 0 0, ← hus, foldl_depthAfter_zero]
  have hself : t.depth = if t.kind = .rparen then depthThrough 0 front - 1
      else depthThrough 0 front :=
    congrArg Token.depth ht
  rw [hself]
  split
  · next hkind =>
    rw [hdepth, ← foldl_depthAfter_zero (us ++ [t]), List.map_append, List.foldl_append,
      foldl_depthAfter_zero us, List.map_singleton, hkind]
    rfl
  · exact hdepth

/-! ### Matching by depth -/

/-- Part of a located list is located. -/
theorem Located.part (h : Located ts) (hpart : us <:+: ts) : Located us := by
  obtain ⟨front, back, rfl⟩ := hpart
  exact h.left.right

/-- **Matching by depth** finds what closes a parenthesis; if nothing does, it stops at the last
token. -/
theorem Located.matchingParen_eq (h : Located ts) (hi : ts[i]?.map kind = some .lparen) :
    matchingParen ts i = (closedAt? ts i).getD (ts.length - 1) := by
  obtain ⟨l, hget, hl⟩ := Option.map_eq_some_iff.mp hi
  obtain ⟨hlt, hil⟩ := List.getElem?_eq_some_iff.mp hget
  have hlocated : Located (l :: ts.drop (i + 1)) := by
    rw [← hil, List.getElem_cons_drop]
    exact h.part (List.drop_suffix i ts).isInfix
  rw [matchingParen, hget]
  simp only [hlocated.closing?_eq hl, closedAt?]
  cases closeOf 0 (ts.drop (i + 1)) <;> rfl

/-- What the depths of tokens say about the parenthesis `l` at index `i`. -/
structure MatchedByDepth (ts : List Token) (i : Nat) (l : Token) : Prop where
  closed : ∀ j, Closes ts i j → matchingParen ts i = j ∧
    ∀ k u, i < k → k < j → ts[k]? = some u → l.depth < u.depth
  unclosed : (∀ j, ¬ Closes ts i j) → matchingParen ts i = ts.length - 1 ∧
    ∀ k u, i < k → ts[k]? = some u → l.depth < u.depth

/-- **A parenthesis among located tokens** is matched by depth. -/
theorem Located.matchedByDepth (h : Located ts) (hi : ts[i]? = some l) (hl : l.kind = .lparen) :
    MatchedByDepth ts i l := by
  have hkind : ts[i]?.map kind = some .lparen := by rw [hi, Option.map_some, hl]
  obtain ⟨hlt, hil⟩ := List.getElem?_eq_some_iff.mp hi
  have hlocated : Located (l :: ts.drop (i + 1)) := by
    rw [← hil, List.getElem_cons_drop]
    exact h.part (List.drop_suffix i ts).isInfix
  -- the token at a later index is deeper as long as nothing up to it closes the parenthesis
  have hdeeper {k : Nat} {u : Token} (hk : i < k) (hu : ts[k]? = some u)
      (hopen : closeOf 0 (between ts i (k + 1)) = none) : l.depth < u.depth := by
    obtain ⟨hklt, rfl⟩ := List.getElem?_eq_some_iff.mp hu
    have hsplit : ts.drop (i + 1) = between ts i k ++ ts[k] :: ts.drop (k + 1) := by
      rw [between, ← List.drop_append_of_le_length (by simp; omega), List.getElem_cons_drop,
        List.take_append_drop]
    rw [hsplit] at hlocated
    refine hlocated.lt_depth hl ?_
    rwa [between, List.take_succ_eq_append_getElem hklt,
      List.drop_append_of_le_length (by simp; omega)] at hopen
  constructor
  · intro j hj
    refine ⟨?_, fun k u hik hkj hu => hdeeper hik hu ?_⟩
    · rw [h.matchingParen_eq hkind, (closes_iff.mp hj).2, Option.getD_some]
    · have hinside : closeOf 0 (between ts i j) = none :=
        closeOf_eq_none_iff.mpr ⟨0, hj.wellNested.nesting_eq⟩
      obtain ⟨more, hmore⟩ : between ts i (k + 1) <+: between ts i j :=
        (List.take_prefix_take_left (Nat.succ_le_of_lt hkj)).drop (i + 1)
      exact closeOf_eq_none_of_append (hmore ▸ hinside)
  · intro hno
    have hclosed : closedAt? ts i = none := (isUnclosed_iff.mp ⟨hkind, hno⟩).2
    refine ⟨by rw [h.matchingParen_eq hkind, hclosed, Option.getD_none], fun k u hik hu =>
      hdeeper hik hu ?_⟩
    obtain ⟨more, hmore⟩ : between ts i (k + 1) <+: ts.drop (i + 1) :=
      (List.take_prefix (k + 1) ts).drop (i + 1)
    exact closeOf_eq_none_of_append (hmore ▸ Option.map_eq_none_iff.mp hclosed)

end Token

/-! ### The tokens of a text -/

/-- **Depths and matching.** In every text a token carries the number of parentheses open around it,
and parentheses are matched by depth as they are by nesting. The text is divided in one way into
code, strings, quoted names and layout, and of its parentheses those of code count and no others. -/
theorem depths_follow_matching (sql : String) :
    (∀ i t, (tokenize sql)[i]? = some t → t.depth =
      (Token.unclosed ((tokenize sql).take (if t.kind = .rparen then i + 1 else i))).length) ∧
    (∀ i l, (tokenize sql)[i]? = some l → l.kind = .lparen →
      Token.MatchedByDepth (tokenize sql) i l) ∧
    (∀ t ∈ tokenize sql, (t.kind = .lparen → t.text = "(") ∧ (t.kind = .rparen → t.text = ")")) ∧
    (∃! ps, IsDivided none sql.toList ps) ∧
    ∀ ps, IsDivided none sql.toList ps → ∀ p c, sql.toList[p]? = some c → c = '(' ∨ c = ')' →
      (IsParenAt (tokenize sql) p c ↔ (readings ps)[p]? = some .code) := by
  refine ⟨fun i t hi => ?_, fun i l hi hl => (Token.located_tokenize sql).matchedByDepth hi hl,
    fun t ht => ?_, existsUnique_isDivided none _, fun ps hps p c => paren_iff hps⟩
  · obtain ⟨hlt, rfl⟩ := List.getElem?_eq_some_iff.mp hi
    have hsplit : Token.locate 0 0 (Piece.ofText sql.toList) =
        (tokenize sql).take i ++ (tokenize sql)[i] :: (tokenize sql).drop (i + 1) := by
      rw [List.getElem_cons_drop, List.take_append_drop]
      rfl
    rw [Token.depth_eq_of_locate hsplit]
    split
    · rw [List.take_succ_eq_append_getElem hlt]
    · rfl
  · obtain ⟨⟨kind, text⟩, hp, hpkind, htext⟩ := Token.exists_piece_of_mem_locate ht
    obtain rfl : kind = some t.kind := hpkind
    refine ⟨(Token.located_tokenize sql).text t ht, fun hkind => ?_⟩
    rw [hkind] at hp
    rw [htext, Piece.text_of_rparen hp]

end IndexAdvice
