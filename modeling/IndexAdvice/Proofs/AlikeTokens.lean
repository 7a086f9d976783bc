import IndexAdvice.Clause.Condition
import IndexAdvice.Proofs.Openings
import IndexAdvice.Proofs.RelatedLists
import IndexAdvice.Proofs.ShiftedTokens

/-!
# Alike tokens

Two texts can say the same in different words: layout leaves the same tokens at other places, and
inside a nested query anything may differ without a difference around it. Both are one relation,
`Token.Alike`. Tokens are twins one by one (`Token.Twin`), places being related by any `R`, and
where one list has a nested query the other one may have another.

A parenthesis that is never closed has no end to tell from the parentheses inside a nested query, so
it allows twins alone after it. That makes three ways of being alike, `Likeness`: `plain` lists are
twins throughout, in `closed` lists parentheses match, and a `mixed` list is of the second kind up
to some place and of the first kind from there on. What is proved of all three holds of malformed
text as well.

This module has what does not depend on clauses: ends of lists, depths, and groups.
-/

namespace IndexAdvice.Token

/-- Tokens that say the same, at places that `R` relates. -/
structure Twin (R : Nat → Nat → Prop) (t t' : Token) : Prop where
  kind : t.kind = t'.kind
  text : t.text = t'.text
  depth : t.depth = t'.depth
  start : R t.start t'.start
  /-- The same places lie before their ends. -/
  stop : ∀ a a', R a a' → (a < t.stop ↔ a' < t'.stop)

/-- Parentheses of one depth around something, in either text. -/
structure Around (R : Nat → Nat → Prop) (l r l' r' : Token) : Prop where
  opens : Twin R l l'
  closes : Twin R r r'
  lparen : l.kind = .lparen
  text : l.text = "("
  rparen : r.kind = .rparen
  depth : r.depth = l.depth

/-- The tokens inside the parentheses of a nested query, all of which `H` holds of. -/
structure Hidden (H : Token → Prop) (depth : Nat) (body : List Token) : Prop where
  head : body.head?.any (·.isKeyword Keyword.nested) = true
  deeper : ∀ t ∈ body, depth < t.depth
  covered : ∀ t ∈ body, H t

/-- The ways in which lists of tokens are alike. -/
inductive Likeness where
  /-- Token by token, whether or not the parentheses match. -/
  | plain
  /-- With matching parentheses, among which nested queries may differ. -/
  | closed
  /-- The second way up to some place, and the first way from there. -/
  | mixed
deriving DecidableEq

/-- **Alike tokens** of two texts, where `H` and `H'` hold of the tokens inside the nested queries
that differ. -/
inductive Alike (R : Nat → Nat → Prop) (H H' : Token → Prop) :
    Likeness → List Token → List Token → Prop
  | nil {s : Likeness} : Alike R H H' s [] []
  | token {s : Likeness} {t t' : Token} {ts ts' : List Token} (twin : Twin R t t')
      (single : t.kind = .lparen → s = .plain) (rest : Alike R H H' s ts ts') :
      Alike R H H' s (t :: ts) (t' :: ts')
  | group {s : Likeness} {l r l' r' : Token} {inner inner' ts ts' : List Token} (hs : s ≠ .plain)
      (around : Around R l r l' r') (deeper : ∀ t ∈ inner, l.depth < t.depth)
      (inside : Alike R H H' .closed inner inner') (rest : Alike R H H' s ts ts') :
      Alike R H H' s (l :: (inner ++ r :: ts)) (l' :: (inner' ++ r' :: ts'))
  | hidden {s : Likeness} {l r l' r' : Token} {inner inner' ts ts' : List Token} (hs : s ≠ .plain)
      (around : Around R l r l' r') (inside : Hidden H l.depth inner)
      (inside' : Hidden H' l.depth inner') (rest : Alike R H H' s ts ts') :
      Alike R H H' s (l :: (inner ++ r :: ts)) (l' :: (inner' ++ r' :: ts'))
  | plain {ts ts' : List Token} (h : Alike R H H' .plain ts ts') : Alike R H H' .mixed ts ts'

variable {R : Nat → Nat → Prop} {H H' : Token → Prop} {s : Likeness}
  {t t' l l' r r' : Token} {ts ts' us us' inner : List Token} {d : Nat}

/-! ### Twins -/

namespace Twin

theorem isKeyword (h : Twin R t t') (keywords : List String) :
    t.isKeyword keywords = t'.isKeyword keywords := by
  simp only [Token.isKeyword, Token.upper, h.kind, h.text]

theorem some_any_isKeyword (h : Twin R t t') (keywords : List String) :
    (some t).any (·.isKeyword keywords) = (some t').any (·.isKeyword keywords) :=
  h.isKeyword keywords

theorem isIdentifier (h : Twin R t t') : t.isIdentifier = t'.isIdentifier := by
  simp only [Token.isIdentifier, h.kind]

theorem name (h : Twin R t t') : t.name = t'.name := by
  simp only [Token.name, h.kind, h.text]

theorem upper (h : Twin R t t') : t.upper = t'.upper :=
  congrArg Text.upper h.text

end Twin

theorem kind_ne_lparen_of_isKeyword {keywords : List String} (h : t.isKeyword keywords = true) :
    t.kind ≠ .lparen := by
  rw [kind_of_isKeyword h]
  decide

namespace Around

theorem lparen' (h : Around R l r l' r') : l'.kind = .lparen :=
  h.opens.kind ▸ h.lparen

theorem rparen' (h : Around R l r l' r') : r'.kind = .rparen :=
  h.closes.kind ▸ h.rparen

theorem depth' (h : Around R l r l' r') : r'.depth = l'.depth := by
  rw [← h.closes.depth, h.depth, h.opens.depth]

end Around

namespace Alike

/-! ### Lists at their front -/

/-- Every likeness is a mixed one. -/
theorem mixed (h : Alike R H H' s ts ts') : Alike R H H' .mixed ts ts' := by
  cases s with
  | mixed => exact h
  | plain => exact .plain h
  | closed =>
    generalize hs : Likeness.closed = s at h
    induction h with
    | nil => exact .nil
    | token twin single rest ih =>
      refine .token twin (fun hl => ?_) (ih hs)
      rw [single hl] at hs
      exact absurd hs (by decide)
    | group _ around deeper inside rest _ ih =>
      exact .group (by decide) around deeper inside (ih hs)
    | hidden _ around inside inside' rest ih =>
      exact .hidden (by decide) around inside inside' (ih hs)
    | plain h => exact .plain h

/-- Against a token stands its twin. What follows is alike unless a group has been opened. -/
theorem exists_cons (h : Alike R H H' s (t :: ts) us) :
    ∃ t' ts', us = t' :: ts' ∧ Twin R t t' ∧ (t.kind ≠ .lparen → Alike R H H' s ts ts') := by
  generalize hus : t :: ts = vs at h
  induction h with
  | nil => cases hus
  | token twin single rest =>
    cases hus
    exact ⟨_, _, rfl, twin, fun _ => rest⟩
  | group hs around deeper inside rest =>
    cases hus
    exact ⟨_, _, rfl, around.opens, fun h => absurd around.lparen h⟩
  | hidden hs around inside inside' rest =>
    cases hus
    exact ⟨_, _, rfl, around.opens, fun h => absurd around.lparen h⟩
  | plain h ih =>
    obtain ⟨t', ts', rfl, htwin, hrest⟩ := ih hus
    exact ⟨t', ts', rfl, htwin, fun hne => .plain (hrest hne)⟩

theorem nil_iff (h : Alike R H H' s ts ts') : ts = [] ↔ ts' = [] := by
  induction h with
  | nil => simp
  | plain _ ih => exact ih
  | _ => simp

/-- Alike lists are empty together, or start with twins. -/
theorem nil_or_cons (h : Alike R H H' s ts ts') : (ts = [] ∧ ts' = []) ∨
    ∃ t us t' us', ts = t :: us ∧ ts' = t' :: us' ∧ Twin R t t' ∧
      (t.kind ≠ .lparen → Alike R H H' s us us') := by
  cases ts with
  | nil => exact .inl ⟨rfl, h.nil_iff.mp rfl⟩
  | cons t us =>
    obtain ⟨t', us', rfl, htwin, hrest⟩ := h.exists_cons
    exact .inr ⟨t, us, t', us', rfl, rfl, htwin, hrest⟩

theorem isEmpty_eq (h : Alike R H H' s ts ts') : ts.isEmpty = ts'.isEmpty := by
  rw [Bool.eq_iff_iff, List.isEmpty_iff, List.isEmpty_iff, h.nil_iff]

/-- The first tokens are twins. -/
theorem head? (h : Alike R H H' s ts ts') : Option.Rel (Twin R) ts.head? ts'.head? := by
  rcases h.nil_or_cons with ⟨rfl, rfl⟩ | ⟨t, us, t', us', rfl, rfl, htwin, -⟩
  · exact .none
  · exact .some htwin

/-- What twins have in common is the same for the first tokens. -/
theorem head?_any (h : Alike R H H' s ts ts') {p : Token → Bool}
    (hp : ∀ t t', Twin R t t' → p t = p t') : ts.head?.any p = ts'.head?.any p := by
  have := h.head?
  revert this
  generalize ts.head? = o, ts'.head? = o'
  rintro (htwin | _)
  · exact hp _ _ htwin
  · rfl

/-- From the closing parenthesis of a group on, tokens are alike. -/
theorem closer (around : Around R l r l' r') (rest : Alike R H H' s ts ts') :
    Alike R H H' s (r :: ts) (r' :: ts') :=
  .token around.closes (fun h => by simp [around.rparen] at h) rest

/-- Closed lists may be put in front of alike ones. -/
theorem append (h : Alike R H H' .closed ts ts') (hs : s ≠ .plain) (h' : Alike R H H' s us us') :
    Alike R H H' s (ts ++ us) (ts' ++ us') := by
  generalize hclosed : Likeness.closed = c at h
  induction h with
  | nil => exact h'
  | token twin single rest ih =>
    exact .token twin (fun hl => absurd (hclosed.trans (single hl)) (by decide)) (ih hclosed)
  | group _ around deeper inside _ _ ih =>
    rw [List.cons_append, List.cons_append, List.append_assoc, List.append_assoc]
    exact .group hs around deeper inside (ih hclosed)
  | hidden _ around inside inside' _ ih =>
    rw [List.cons_append, List.cons_append, List.append_assoc, List.append_assoc]
    exact .hidden hs around inside inside' (ih hclosed)
  | plain => exact absurd hclosed (by decide)

/-- Tokens that are alike one by one are as many. -/
theorem forall₂ (h : Alike R H H' .plain ts ts') : List.Forall₂ (Twin R) ts ts' := by
  generalize hplain : Likeness.plain = c at h
  induction h with
  | nil => exact .nil
  | token twin _ _ ih => exact .cons twin (ih hplain)
  | group hs => exact absurd hplain.symm hs
  | hidden hs => exact absurd hplain.symm hs
  | plain => exact absurd hplain (by decide)

theorem of_forall₂ (h : List.Forall₂ (Twin R) ts ts') : Alike R H H' .plain ts ts' := by
  induction h with
  | nil => exact .nil
  | cons twin _ ih => exact .token twin (fun _ => rfl) ih

/-! ### Depths -/

/-- Nothing but the insides of nested queries differs, and they are deeper than their
parentheses. -/
theorem le_depth_iff (h : Alike R H H' s ts ts') (d : Nat) :
    (∀ t ∈ ts, d ≤ t.depth) ↔ ∀ t ∈ ts', d ≤ t.depth := by
  have hall {inner : List Token} {l r : Token} (hr : r.depth = l.depth) (ts : List Token) :
      (∀ t ∈ l :: (inner ++ r :: ts), d ≤ t.depth) ↔
        d ≤ l.depth ∧ (∀ t ∈ inner, d ≤ t.depth) ∧ ∀ t ∈ ts, d ≤ t.depth := by
    simp only [List.forall_mem_cons, List.forall_mem_append, hr]
    tauto
  induction h with
  | nil => exact Iff.rfl
  | token twin _ _ ih =>
    rw [List.forall_mem_cons, List.forall_mem_cons, twin.depth]
    exact and_congr_right fun _ => ih
  | group _ around _ _ _ ihi ih =>
    rw [hall around.depth, hall around.depth', around.opens.depth]
    exact and_congr_right fun _ => and_congr ihi ih
  | hidden _ around inside inside' _ ih =>
    rw [hall around.depth, hall around.depth', ← around.opens.depth]
    refine and_congr_right fun hd => and_congr ?_ ih
    exact iff_of_true (fun t ht => Nat.le_trans hd (Nat.le_of_lt (inside.deeper t ht)))
      (fun t ht => Nat.le_trans hd (Nat.le_of_lt (around.opens.depth ▸ inside'.deeper t ht)))
  | plain _ ih => exact ih

theorem baseDepth_eq (h : Alike R H H' s ts ts') : baseDepth ts = baseDepth ts' := by
  by_cases hne : ts = []
  · rw [hne, h.nil_iff.mp hne]
  · have hle {us : List Token} (hus : us ≠ []) (d : Nat) :
        d ≤ baseDepth us ↔ ∀ t ∈ us, d ≤ t.depth := by
      obtain ⟨⟨t, ht, hd⟩, hmin⟩ := (baseDepth_eq_iff hus).mp rfl
      exact ⟨fun hd u hu => Nat.le_trans hd (hmin u hu), fun hall => hd ▸ hall t ht⟩
    have hle' := hle fun h' => hne (h.nil_iff.mpr h')
    refine Nat.le_antisymm ((hle' _).mpr ?_) ((hle hne _).mpr ?_)
    · exact (h.le_depth_iff _).mp ((hle hne _).mp (Nat.le_refl _))
    · exact (h.le_depth_iff _).mpr ((hle' _).mp (Nat.le_refl _))

/-! ### Lists at their end -/

/-- Where the tokens `front` and then `us` end in a token, they do so before it, or in it alone. -/
private theorem eq_or_of_concat (front : List Token) {us : List Token}
    (h : ts ++ [t] = front ++ r :: us) :
    (us = [] ∧ ts = front ∧ t = r) ∨ ∃ vs, us = vs ++ [t] ∧ ts = front ++ r :: vs := by
  rcases List.eq_nil_or_concat us with rfl | ⟨vs, v, rfl⟩
  · obtain ⟨rfl, hlast⟩ := List.append_inj' h rfl
    exact .inl ⟨rfl, rfl, List.singleton_inj.mp hlast⟩
  · rw [List.concat_eq_append, ← List.cons_append, ← List.append_assoc] at h
    obtain ⟨rfl, hlast⟩ := List.append_inj' h rfl
    exact .inr ⟨vs, by rw [List.singleton_inj.mp hlast, List.concat_eq_append], rfl⟩

/-- The last tokens are twins, and unless they close a group the tokens before them are alike. -/
theorem exists_concat (h : Alike R H H' s (ts ++ [t]) us) :
    ∃ ts' t', us = ts' ++ [t'] ∧ Twin R t t' ∧ (t.kind ≠ .rparen → Alike R H H' s ts ts') := by
  generalize hus : ts ++ [t] = vs at h
  -- in each case the last token is in the rest, unless there is none
  induction h generalizing ts with
  | nil => simp at hus
  | @token s u u' us us' twin single rest ih =>
    rcases eq_or_of_concat [] hus with ⟨rfl, rfl, rfl⟩ | ⟨vs, rfl, rfl⟩
    · obtain rfl := rest.nil_iff.mp rfl
      exact ⟨[], u', rfl, twin, fun _ => .nil⟩
    · obtain ⟨ts', t', rfl, htwin, hinit⟩ := ih rfl
      exact ⟨u' :: ts', t', rfl, htwin, fun hne => .token twin single (hinit hne)⟩
  | @group s l r l' r' inner inner' us us' hs around deeper inside rest _ ih =>
    rcases eq_or_of_concat (l :: inner) hus with ⟨rfl, rfl, rfl⟩ | ⟨vs, rfl, rfl⟩
    · obtain rfl := rest.nil_iff.mp rfl
      exact ⟨l' :: inner', r', rfl, around.closes, fun hne => absurd around.rparen hne⟩
    · obtain ⟨ts', t', rfl, htwin, hinit⟩ := ih rfl
      exact ⟨l' :: (inner' ++ r' :: ts'), t', by simp, htwin, fun hne =>
        .group hs around deeper inside (hinit hne)⟩
  | @hidden s l r l' r' inner inner' us us' hs around inside inside' rest ih =>
    rcases eq_or_of_concat (l :: inner) hus with ⟨rfl, rfl, rfl⟩ | ⟨vs, rfl, rfl⟩
    · obtain rfl := rest.nil_iff.mp rfl
      exact ⟨l' :: inner', r', rfl, around.closes, fun hne => absurd around.rparen hne⟩
    · obtain ⟨ts', t', rfl, htwin, hinit⟩ := ih rfl
      exact ⟨l' :: (inner' ++ r' :: ts'), t', by simp, htwin, fun hne =>
        .hidden hs around inside inside' (hinit hne)⟩
  | plain h ih =>
    obtain ⟨ts', t', rfl, htwin, hinit⟩ := ih hus
    exact ⟨ts', t', rfl, htwin, fun hne => .plain (hinit hne)⟩

/-- Alike lists are empty together, or end in twins. -/
theorem nil_or_concat (h : Alike R H H' s ts ts') : (ts = [] ∧ ts' = []) ∨
    ∃ us t us' t', ts = us ++ [t] ∧ ts' = us' ++ [t'] ∧ Twin R t t' ∧
      (t.kind ≠ .rparen → Alike R H H' s us us') := by
  rcases List.eq_nil_or_concat ts with rfl | ⟨us, t, rfl⟩
  · exact .inl ⟨rfl, h.nil_iff.mp rfl⟩
  · rw [List.concat_eq_append] at h ⊢
    obtain ⟨us', t', rfl, htwin, hinit⟩ := h.exists_concat
    exact .inr ⟨us, t, us', t', rfl, rfl, htwin, hinit⟩

/-! ### Groups -/

/-- Two groups with the same parentheses, and alike tokens after them. -/
inductive Opened (R : Nat → Nat → Prop) (H H' : Token → Prop) (s : Likeness) :
    List Token → List Token → Prop
  | intro {l r l' r' : Token} {inner inner' ts ts' : List Token} (hs : s ≠ .plain)
      (around : Around R l r l' r') (deeper : ∀ t ∈ inner, l.depth < t.depth)
      (deeper' : ∀ t ∈ inner', l'.depth < t.depth)
      (inside : Alike R H H' .closed inner inner' ∨
        Hidden H l.depth inner ∧ Hidden H' l.depth inner')
      (rest : Alike R H H' s ts ts') :
      Opened R H H' s (l :: (inner ++ r :: ts)) (l' :: (inner' ++ r' :: ts'))

/-- A parenthesis opens a group in both lists, unless they are alike token by token. -/
theorem of_lparen (h : Alike R H H' s (l :: ts) us) (hl : l.kind = .lparen) :
    Alike R H H' .plain (l :: ts) us ∨ Opened R H H' s (l :: ts) us := by
  generalize hus : l :: ts = vs at h
  induction h with
  | nil => cases hus
  | token twin single rest =>
    cases hus
    obtain rfl := single hl
    exact .inl (.token twin single rest)
  | @group s l r l' r' inner inner' ts ts' hs around deeper inside rest =>
    refine .inr (.intro hs around deeper ?_ (.inl inside) rest)
    exact (inside.le_depth_iff _).mp (around.opens.depth ▸ deeper)
  | hidden hs around inside inside' rest =>
    refine .inr (.intro hs around inside.deeper ?_ (.inr ⟨inside, inside'⟩) rest)
    exact around.opens.depth ▸ inside'.deeper
  | plain h ih =>
    rcases ih hus with h | h
    · exact .inl h
    · cases h with
      | intro hs => exact absurd rfl hs

end Alike

/-- Among deeper tokens no group of this depth closes. -/
theorem closing?_eq_none_of_deeper (h : ∀ t ∈ ts, d < t.depth) : closing? d ts = none := by
  rw [closing?, List.findIdx?_eq_none_iff]
  intro t ht
  have := h t ht
  simp only [Bool.and_eq_false_iff, beq_eq_false_iff_ne]
  exact .inr (by omega)

/-- The first token back at the depth of a group closes it. -/
theorem closing?_group (h : ∀ t ∈ inner, d < t.depth) (hr : r.kind = .rparen) (hd : r.depth = d)
    (ts : List Token) : closing? d (inner ++ r :: ts) = some inner.length := by
  have hnone := closing?_eq_none_of_deeper h
  rw [closing?] at hnone ⊢
  rw [List.findIdx?_append, hnone, List.findIdx?_cons, hr, hd]
  simp

/-- A list is one group if it starts with a parenthesis that only its last token closes. -/
theorem isWrapped_concat (l r : Token) (inner : List Token) :
    isWrapped (l :: (inner ++ [r])) =
      (l.kind == .lparen && (closing? l.depth inner).isNone && r.kind == .rparen) := by
  obtain ⟨u, us, hus⟩ := List.exists_cons_of_ne_nil (List.concat_ne_nil r inner)
  have hlength : us.length = inner.length := by simpa using (congrArg List.length hus).symm
  have hlast : (u :: us).getLast?.any (·.kind == .rparen) = (r.kind == .rparen) := by
    rw [← hus, List.getLast?_concat, Option.any_some]
  have hmatch : (matchingParen (l :: (inner ++ [r])) 0 == (l :: (inner ++ [r])).length - 1) =
      (closing? l.depth inner).isNone := by
    simp only [matchingParen, List.getElem?_cons_zero, Nat.zero_add, List.drop_one, List.tail_cons,
      List.length_cons, List.length_append, List.length_nil, Nat.add_sub_cancel]
    rw [closing?, List.findIdx?_append, ← closing?]
    cases hclose : closing? l.depth inner with
    | none => cases h : r.kind == .rparen && r.depth == l.depth <;> simp [h, Nat.add_comm]
    | some j =>
      have hj := (List.findIdx?_eq_some_iff_getElem.mp hclose).1
      simp
      omega
  rw [hus] at hmatch ⊢
  simp only [isWrapped]
  rw [hmatch, hlast]

theorem isWrapped_of_ne (h : l.kind ≠ .lparen) (ts : List Token) : isWrapped (l :: ts) = false := by
  cases ts with
  | nil => rfl
  | cons u us => simp [isWrapped, h]

theorem isWrapped_group (hd : r.depth = l.depth) (hl : l.kind = .lparen) (hr : r.kind = .rparen)
    (deeper : ∀ t ∈ inner, l.depth < t.depth) (ts : List Token) :
    isWrapped (l :: (inner ++ r :: ts)) = ts.isEmpty := by
  rcases List.eq_nil_or_concat ts with rfl | ⟨us, u, rfl⟩
  · rw [isWrapped_concat, closing?_eq_none_of_deeper deeper, hl, hr]
    rfl
  · have happend : inner ++ r :: us.concat u = (inner ++ r :: us) ++ [u] := by simp
    rw [happend, isWrapped_concat, closing?_group deeper hr hd]
    simp

namespace Alike

theorem closing?_eq (h : List.Forall₂ (Twin R) ts ts') (d : Nat) :
    closing? d ts = closing? d ts' := by
  induction h with
  | nil => rfl
  | cons twin _ ih =>
    simp only [closing?] at ih ⊢
    rw [List.findIdx?_cons, List.findIdx?_cons, ih, twin.kind, twin.depth]

/-- Alike lists are one group each, or neither is. -/
theorem isWrapped_eq (h : Alike R H H' s ts ts') : isWrapped ts = isWrapped ts' := by
  cases ts with
  | nil => rw [h.nil_iff.mp rfl]
  | cons l ts =>
    by_cases hl : l.kind = .lparen
    · rcases h.of_lparen hl with hplain | hopened
      · obtain ⟨l', ts', rfl, htwin, -⟩ := h.exists_cons
        have hrest := (List.forall₂_cons.mp hplain.forall₂).2
        rcases List.eq_nil_or_concat ts with rfl | ⟨inner, r, rfl⟩
        · rw [List.forall₂_nil_left_iff.mp hrest]
          rfl
        · rw [List.concat_eq_append] at hrest ⊢
          have hrest' : Alike R H H' .plain (inner ++ [r]) ts' := of_forall₂ hrest
          obtain ⟨inner', r', rfl, hr, -⟩ := hrest'.exists_concat
          have hinner := List.forall₂_take inner.length hrest
          have hlength : inner.length = inner'.length := by simpa using hrest.length_eq
          rw [List.take_left, hlength, List.take_left] at hinner
          rw [isWrapped_concat, isWrapped_concat, closing?_eq hinner, htwin.kind, htwin.depth,
            hr.kind]
      · cases hopened with
        | intro hs around deeper deeper' inside rest =>
          rw [isWrapped_group around.depth around.lparen around.rparen deeper,
            isWrapped_group around.depth' around.lparen' around.rparen' deeper', rest.isEmpty_eq]
    · obtain ⟨l', ts', rfl, htwin, -⟩ := h.exists_cons
      rw [isWrapped_of_ne hl, isWrapped_of_ne (htwin.kind ▸ hl)]

/-- **Inside a group** alike tokens are alike, or the insides are nested queries. -/
theorem inside (h : Alike R H H' s ts ts') (hw : isWrapped ts = true) :
    Alike R H H' .mixed ts.tail.dropLast ts'.tail.dropLast ∨
      ∃ d, Hidden H d ts.tail.dropLast ∧ Hidden H' d ts'.tail.dropLast := by
  cases ts with
  | nil => simp [isWrapped] at hw
  | cons l ts =>
    by_cases hl : l.kind = .lparen
    · rcases h.of_lparen hl with hplain | hopened
      · have hinner := List.forall₂_drop 1 hplain.forall₂
        rw [List.drop_one, List.drop_one] at hinner
        have hlength := hinner.length_eq
        have htake := List.forall₂_take ((l :: ts).tail.length - 1) hinner
        rw [← List.dropLast_eq_take, hlength, ← List.dropLast_eq_take] at htake
        exact .inl (.plain (of_forall₂ htake))
      · cases hopened with
        | @intro _ r _ r' inner inner' us us' hs around deeper deeper' inside rest =>
          rw [isWrapped_group around.depth around.lparen around.rparen deeper,
            List.isEmpty_iff] at hw
          obtain rfl := hw
          obtain rfl := rest.nil_iff.mp rfl
          rw [List.tail_cons, List.tail_cons, List.dropLast_concat, List.dropLast_concat]
          rcases inside with inside | inside
          · exact .inl inside.mixed
          · exact .inr ⟨_, inside⟩
    · rw [isWrapped_of_ne hl] at hw
      exact absurd hw (by decide)

/-- After a group, or after an opening parenthesis that is never closed, tokens are alike. -/
theorem afterGroup (h : Alike R H H' s (l :: ts) (l' :: ts')) (hl : l.kind = .lparen) :
    Alike R H H' .mixed (Token.afterGroup l ts) (Token.afterGroup l' ts') := by
  rcases h.of_lparen hl with hplain | hopened
  · obtain ⟨htwin, hrest⟩ := List.forall₂_cons.mp hplain.forall₂
    rw [Token.afterGroup, Token.afterGroup, closing?_eq hrest, htwin.depth]
    cases closing? l'.depth ts' with
    | none => exact .nil
    | some j => exact .plain (of_forall₂ (List.forall₂_drop (j + 1) hrest))
  · have hafter {l r : Token} {inner : List Token} (hd : r.depth = l.depth) (hr : r.kind = .rparen)
        (deeper : ∀ t ∈ inner, l.depth < t.depth) (ts : List Token) :
        Token.afterGroup l (inner ++ r :: ts) = ts := by
      rw [Token.afterGroup, closing?_group deeper hr hd]
      simp
    cases hopened with
    | intro hs around deeper deeper' inside rest =>
      rw [hafter around.depth around.rparen deeper,
        hafter around.depth' around.rparen' deeper']
      exact rest.mixed

end Alike

end IndexAdvice.Token
