import IndexAdvice.Clause.JoinTarget
import IndexAdvice.Proofs.AlikeTokens

/-!
# Parts of alike tokens

Cutting at separators, searching for a token, and reading a reference or an alias give the same
parts of alike tokens. Cutting respects depth, so it never looks into a nested query
(`Alike.cutFrom`); searching does look into them, and finds the same only as long as it finds
nothing there (`Alike.dropWhile`).
-/

namespace IndexAdvice

open Token

namespace Token

variable {R : Nat → Nat → Prop} {H H' : Token → Prop} {s : Likeness}
  {t t' l r : Token} {ts ts' us inner : List Token} {base : Nat}
  {sep : Token → Bool} {b w : Bool}

/-! ### Cutting lists -/

/-- The parts into which tokens are cut, empty ones included. -/
def segments (base : Nat) (sep : Token → Bool) (b w : Bool) : List Token → List (List Token)
  | [] => [[]]
  | t :: ts =>
    if t.depth == base && t.isKeyword ["BETWEEN"] then
      (segments base sep b true ts).modifyHead (t :: ·)
    else if t.depth == base && sep t then
      if b && w then (segments base sep b false ts).modifyHead (t :: ·)
      else [] :: segments base sep b w ts
    else (segments base sep b w ts).modifyHead (t :: ·)

theorem segments_ne_nil (base : Nat) (sep : Token → Bool) (b w : Bool) (ts : List Token) :
    segments base sep b w ts ≠ [] := by
  induction ts generalizing w with
  | nil => exact List.cons_ne_nil _ _
  | cons t ts ih =>
    rw [segments]
    split
    · simpa using ih true
    · split
      · split
        · simpa using ih false
        · exact List.cons_ne_nil _ _
      · simpa using ih w

/-- Cutting leaves the empty parts out. -/
theorem cutFrom_eq_filter (base : Nat) (sep : Token → Bool) (b w : Bool) (part ts : List Token) :
    cutFrom base sep b w part ts =
      ((segments base sep b w ts).modifyHead (part.reverse ++ ·)).filter (!·.isEmpty) := by
  have hgrow (part : List Token) (t : Token) (xs : List (List Token)) :
      xs.modifyHead ((t :: part).reverse ++ ·) =
        (xs.modifyHead (t :: ·)).modifyHead (part.reverse ++ ·) := by
    cases xs <;> simp
  induction ts generalizing w part with
  | nil => cases part <;> simp [cutFrom, segments, flush]
  | cons t ts ih =>
    rw [cutFrom, segments]
    split
    · rw [ih, hgrow]
    · split
      · split
        · rw [ih, hgrow]
        · rw [ih]
          cases part <;> cases segments base sep b w ts <;> simp [flush]
      · rw [ih, hgrow]

/-- Tokens none of which separates anything stay together with the part they stand before. -/
theorem segments_append (h : ∀ t ∈ ts, t.depth = base →
      t.isKeyword ["BETWEEN"] = false ∧ sep t = false) (us : List Token) :
    segments base sep b w (ts ++ us) = (segments base sep b w us).modifyHead (ts ++ ·) := by
  induction ts with
  | nil => cases h : segments base sep b w us <;> simp [h]
  | cons t ts ih =>
    have hstep : segments base sep b w (t :: (ts ++ us)) =
        (segments base sep b w (ts ++ us)).modifyHead (t :: ·) := by
      rw [segments]
      by_cases hdepth : t.depth = base
      · obtain ⟨hbetween, hsep⟩ := h t List.mem_cons_self hdepth
        simp [hbetween, hsep]
      · simp [hdepth]
    rw [List.cons_append, hstep, ih fun u hu => h u (List.mem_cons_of_mem t hu)]
    cases segments base sep b w us <;> simp

/-- The first token stands in the first segment, unless it is a separator. -/
theorem exists_segments_cons (ht : sep t = false) (ts : List Token) :
    ∃ part parts, segments base sep b w (t :: ts) = (t :: part) :: parts := by
  have hgrow (w : Bool) : ∃ part parts,
      (segments base sep b w ts).modifyHead (t :: ·) = (t :: part) :: parts := by
    obtain ⟨part, parts, h⟩ := List.exists_cons_of_ne_nil (segments_ne_nil base sep b w ts)
    exact ⟨part, parts, by rw [h]; rfl⟩
  rw [segments, ht, Bool.and_false]
  split
  · exact hgrow true
  · exact hgrow w

/-- A group stays together, since all in it is deeper than its parentheses. -/
theorem segments_group (hparen : ∀ t : Token, t.kind = .lparen ∨ t.kind = .rparen → sep t = false)
    (hl : l.kind = .lparen) (hr : r.kind = .rparen) (hbase : base ≤ l.depth)
    (deeper : ∀ t ∈ inner, l.depth < t.depth) (ts : List Token) :
    segments base sep b w (l :: (inner ++ r :: ts)) =
      (segments base sep b w ts).modifyHead fun us => l :: (inner ++ r :: us) := by
  have hsplit (us : List Token) : l :: (inner ++ r :: us) = (l :: inner ++ [r]) ++ us := by simp
  simp only [hsplit]
  refine segments_append (fun t ht hdepth => ?_) ts
  have hkind : t.kind = .lparen ∨ t.kind = .rparen := by
    rcases List.mem_append.mp ht with ht | ht
    · rcases List.mem_cons.mp ht with rfl | ht
      · exact .inl hl
      · have := deeper t ht
        omega
    · obtain rfl := List.mem_singleton.mp ht
      exact .inr hr
  refine ⟨isKeyword_eq_false ?_ _, hparen t hkind⟩
  rcases hkind with h | h <;> simp [h]

namespace Alike

variable (hsep : ∀ t t', Twin R t t' → sep t = sep t')
  (hparen : ∀ t : Token, t.kind = .lparen ∨ t.kind = .rparen → sep t = false)

include hsep hparen in
/-- Alike lists are cut into alike segments. -/
theorem segments (hbase : ∀ t ∈ ts, base ≤ t.depth) (h : Alike R H H' s ts ts') :
    List.Forall₂ (Alike R H H' s) (Token.segments base sep b w ts)
      (Token.segments base sep b w ts') := by
  have hrest {l r : Token} {inner ts : List Token}
      (h : ∀ t ∈ l :: (inner ++ r :: ts), base ≤ t.depth) : ∀ t ∈ ts, base ≤ t.depth :=
    fun t ht => h t (List.mem_cons_of_mem _ (List.mem_append_right _ (List.mem_cons_of_mem _ ht)))
  -- a group is in one segment with what is around it, be it left out or not
  induction h generalizing w with
  | nil => exact .cons .nil .nil
  | token twin single rest ih =>
    have ih w := @ih w fun u hu => hbase u (List.mem_cons_of_mem _ hu)
    rw [Token.segments, Token.segments, twin.isKeyword, twin.depth, hsep _ _ twin]
    split
    · exact forall₂_modifyHead (ih true) fun _ _ h => .token twin single h
    · split
      · split
        · exact forall₂_modifyHead (ih false) fun _ _ h => .token twin single h
        · exact .cons .nil (ih w)
      · exact forall₂_modifyHead (ih w) fun _ _ h => .token twin single h
  | group hs around deeper inside rest _ ih =>
    have hl := hbase _ List.mem_cons_self
    rw [segments_group hparen around.lparen around.rparen hl deeper,
      segments_group hparen around.lparen' around.rparen' (around.opens.depth ▸ hl)
        ((inside.le_depth_iff _).mp (around.opens.depth ▸ deeper))]
    exact forall₂_modifyHead (ih (hrest hbase)) fun _ _ h => .group hs around deeper inside h
  | hidden hs around inside inside' rest ih =>
    have hl := hbase _ List.mem_cons_self
    rw [segments_group hparen around.lparen around.rparen hl inside.deeper,
      segments_group hparen around.lparen' around.rparen' (around.opens.depth ▸ hl)
        (around.opens.depth ▸ inside'.deeper)]
    exact forall₂_modifyHead (ih (hrest hbase)) fun _ _ h => .hidden hs around inside inside' h
  | plain h ih => exact (ih hbase).imp fun _ _ h => .plain h

include hsep hparen in
/-- **Cutting.** Alike lists are cut into alike parts. -/
theorem cutFrom (h : Alike R H H' s ts ts') :
    List.Forall₂ (Alike R H H' s) (Token.cutFrom (baseDepth ts) sep b w [] ts)
      (Token.cutFrom (baseDepth ts') sep b w [] ts') := by
  have hbase : ∀ t ∈ ts, baseDepth ts ≤ t.depth := fun t ht =>
    ((baseDepth_eq_iff (List.ne_nil_of_mem ht)).mp rfl).2 t ht
  have hsegments := h.segments hsep hparen hbase (b := b) (w := w)
  rw [← h.baseDepth_eq, cutFrom_eq_filter, cutFrom_eq_filter]
  refine List.rel_filter (fun us us' hus => ?_) (forall₂_modifyHead hsegments fun _ _ h => h)
  simp only [hus.isEmpty_eq]

/-- Parentheses are no keywords, so neither side is split at one. -/
private theorem parens_ne_keyword (keywords : List String) (t : Token)
    (h : t.kind = .lparen ∨ t.kind = .rparen) : t.isKeyword keywords = false :=
  isKeyword_eq_false (by rcases h with h | h <;> simp [h]) keywords

/-- OR divides alike token lists into alike parts. -/
theorem alternatives (h : Alike R H H' s ts ts') :
    List.Forall₂ (Alike R H H' s) (Token.alternatives ts) (Token.alternatives ts') :=
  h.cutFrom (fun _ _ htwin => htwin.isKeyword _) (parens_ne_keyword _)

/-- AND divides alike token lists into alike parts, the one of BETWEEN left in place. -/
theorem conjuncts (h : Alike R H H' s ts ts') :
    List.Forall₂ (Alike R H H' s) (Token.conjuncts ts) (Token.conjuncts ts') :=
  h.cutFrom (fun _ _ htwin => htwin.isKeyword _) (parens_ne_keyword _)

theorem items (h : Alike R H H' s ts ts') :
    List.Forall₂ (Alike R H H' s) (Token.items ts) (Token.items ts') :=
  h.cutFrom (fun _ _ htwin => by rw [htwin.kind]) fun t ht => by
    rcases ht with ht | ht <;> simp [ht]

/-! ### Searching -/

/-- **Searching.** What a search finds outside nested queries, it finds at the same place in alike
lists. -/
theorem dropWhile {p : Token → Bool} (hp : ∀ t t', Twin R t t' → p t = p t')
    (h : Alike R H H' s ts ts') (hfound : ∀ t ∈ (ts.dropWhile p).head?, ¬ H t)
    (hfound' : ∀ t ∈ (ts'.dropWhile p).head?, ¬ H' t) :
    Alike R H H' s (ts.dropWhile p) (ts'.dropWhile p) := by
  have hcons {s : Likeness} {t t' : Token} {ts ts' : List Token} (twin : Twin R t t')
      (hstop : Alike R H H' s (t :: ts) (t' :: ts'))
      (hgo : (∀ t ∈ (ts.dropWhile p).head?, ¬ H t) → (∀ t ∈ (ts'.dropWhile p).head?, ¬ H' t) →
        Alike R H H' s (ts.dropWhile p) (ts'.dropWhile p))
      (hfound : ∀ u ∈ ((t :: ts).dropWhile p).head?, ¬ H u)
      (hfound' : ∀ u ∈ ((t' :: ts').dropWhile p).head?, ¬ H' u) :
      Alike R H H' s ((t :: ts).dropWhile p) ((t' :: ts').dropWhile p) := by
    by_cases hpt : p t = true
    · have hpt' : p t' = true := hp t t' twin ▸ hpt
      rw [List.dropWhile_cons_of_pos hpt] at hfound ⊢
      rw [List.dropWhile_cons_of_pos hpt'] at hfound' ⊢
      exact hgo hfound hfound'
    · rw [List.dropWhile_cons_of_neg hpt, List.dropWhile_cons_of_neg (hp t t' twin ▸ hpt)]
      exact hstop
  -- what is found first inside a group is found first in the group and all after it
  have hfirst {K : Token → Prop} {us vs ws : List Token}
      (h : ∀ t ∈ (if us.isEmpty then vs else us ++ ws).head?, ¬ K t) : ∀ t ∈ us.head?, ¬ K t := by
    cases us with
    | nil => simp
    | cons u us => exact h
  have hnothing {K : Token → Prop} {us : List Token} (hK : ∀ t ∈ us, K t)
      (h : ∀ t ∈ (us.dropWhile p).head?, ¬ K t) : us.dropWhile p = [] := by
    cases hus : us.dropWhile p with
    | nil => rfl
    | cons u vs =>
      have hmem := (List.dropWhile_suffix p).subset (hus ▸ List.mem_cons_self)
      exact absurd (hK u hmem) (h u (by rw [hus]; rfl))
  induction h with
  | nil => exact .nil
  | token twin single rest ih => exact hcons twin (.token twin single rest) ih hfound hfound'
  | @group s l r l' r' inner inner' ts ts' hs around deeper inside rest ihi ih =>
    refine hcons around.opens (.group hs around deeper inside rest) ?_ hfound hfound'
    intro hfound hfound'
    rw [List.dropWhile_append] at hfound hfound' ⊢
    rw [List.dropWhile_append]
    have hinner := ihi (hfirst hfound) (hfirst hfound')
    rw [hinner.isEmpty_eq] at hfound ⊢
    by_cases hempty : (inner'.dropWhile p).isEmpty = true
    · rw [if_pos hempty] at hfound hfound' ⊢
      rw [if_pos hempty]
      exact hcons around.closes (closer around rest) ih hfound hfound'
    · rw [if_neg hempty, if_neg hempty]
      exact hinner.append hs (closer around rest)
  | @hidden s l r l' r' inner inner' ts ts' hs around inside inside' rest ih =>
    refine hcons around.opens (.hidden hs around inside inside' rest) ?_ hfound hfound'
    intro hfound hfound'
    rw [List.dropWhile_append] at hfound hfound' ⊢
    rw [List.dropWhile_append]
    have hnone := hnothing inside.covered (hfirst hfound)
    have hnone' := hnothing inside'.covered (hfirst hfound')
    rw [hnone] at hfound ⊢
    rw [hnone'] at hfound' ⊢
    exact hcons around.closes (closer around rest) ih hfound hfound'
  | plain h ih => exact .plain (ih hfound hfound')

end Alike

/-- Alike lists are alike one by one, or they have at least three tokens. -/
theorem Alike.forall₂_or_three_le (h : Alike R H H' s ts ts') :
    List.Forall₂ (Twin R) ts ts' ∨ 3 ≤ ts.length ∧ 3 ≤ ts'.length := by
  induction h with
  | nil => exact .inl .nil
  | token twin single rest ih =>
    refine ih.imp (fun h => .cons twin h) fun h => ?_
    simp only [List.length_cons]
    omega
  | group hs around deeper inside rest ihi ih =>
    rcases ihi, ih with ⟨ihi | ihi, ih | ih⟩
    · exact .inl (.cons around.opens (List.rel_append ihi (.cons around.closes ih)))
    all_goals
      refine .inr ?_
      simp only [List.length_cons, List.length_append]
      omega
  | hidden hs around inside inside' rest ih =>
    -- a body that is left out has a token, and its parentheses are two more
    have hpos {H : Token → Prop} {d : Nat} {body : List Token} (h : Hidden H d body) :
        0 < body.length := by
      cases body with
      | nil => exact absurd h.head (by decide)
      | cons => exact Nat.succ_pos _
    have := hpos inside
    have := hpos inside'
    refine .inr ?_
    simp only [List.length_cons, List.length_append]
    omega
  | plain h ih => exact ih

end Token

namespace ColumnRef

variable {R : Nat → Nat → Prop} {H H' : Token → Prop} {s : Likeness} {t : Token}
  {ts ts' : List Token}

/-! ### References -/

/-- The names that go on a reference are the same, and so are the tokens that they take. -/
theorem dottedNames_of_alike (h : Alike R H H' s ts ts') :
    ∃ names front after front' after', ts = front ++ after ∧ ts' = front' ++ after' ∧
      dottedNames ts = (names, after) ∧ dottedNames ts' = (names, after') ∧
      List.Forall₂ (Twin R) front front' ∧ Alike R H H' s after after' := by
  have hstop {d : Token} {rest : List Token} (hd : d.kind ≠ .dot) :
      dottedNames (d :: rest) = ([], d :: rest) := by
    cases rest <;> simp [dottedNames, hd]
  -- two tokens at a time, the dot and the name after it
  induction ts using dottedNames.induct generalizing ts' with
  | case1 d t rest hdot ih =>
    obtain ⟨d', rest', rfl, hd, hrest⟩ := h.exists_cons
    have hdot' := hdot
    simp only [Bool.and_eq_true, beq_iff_eq] at hdot'
    obtain ⟨t', rest', rfl, ht, hmore⟩ := (hrest (by simp [hdot'.1])).exists_cons
    obtain ⟨names, front, after, front', after', rfl, rfl, hnames, hnames', hfront, hafter⟩ :=
      ih (hmore (kind_ne_of_isIdentifier hdot'.2 (by decide)))
    refine ⟨t.name :: names, d :: t :: front, after, d' :: t' :: front', after', rfl, rfl, ?_, ?_,
      .cons hd (.cons ht hfront), hafter⟩
    · simp only [dottedNames, hdot, if_true, hnames]
    · simp only [dottedNames, ← hd.kind, ← ht.isIdentifier, hdot, if_true, hnames', ht.name]
  | case2 d t rest hdot =>
    obtain ⟨d', rest', rfl, hd, hrest⟩ := h.exists_cons
    refine ⟨[], [], d :: t :: rest, [], d' :: rest', rfl, rfl, ?_, ?_, .nil, h⟩
    · rw [dottedNames, if_neg hdot]
    · by_cases hkind : d.kind = .dot
      · obtain ⟨t', rest', rfl, ht, hmore⟩ := (hrest (by simp [hkind])).exists_cons
        rw [dottedNames, ← hd.kind, ← ht.isIdentifier, if_neg hdot]
      · exact hstop (hd.kind ▸ hkind)
  | case3 ts hshort =>
    rcases ts with _ | ⟨d, _ | ⟨t, rest⟩⟩
    · obtain rfl := h.nil_iff.mp rfl
      exact ⟨[], [], [], [], [], rfl, rfl, rfl, rfl, .nil, h⟩
    · obtain ⟨d', rest', rfl, hd, hrest⟩ := h.exists_cons
      refine ⟨[], [], [d], [], d' :: rest', rfl, rfl, rfl, ?_, .nil, h⟩
      by_cases hkind : d.kind = .dot
      · rw [(hrest (by simp [hkind])).nil_iff.mp rfl]
        rfl
      · exact hstop (hd.kind ▸ hkind)
    · exact absurd rfl (hshort d t rest)

/-- **Reading a reference** in alike tokens gives the same reference, takes the same tokens, and
leaves alike tokens. -/
theorem read?_cons_of_alike (h : Alike R H H' s (t :: ts) ts') :
    (read? (t :: ts) = none ∧ read? ts' = none) ∨
      ∃ ref front after t' front' after', ts = front ++ after ∧ ts' = t' :: (front' ++ after') ∧
        read? (t :: ts) = some (ref, after) ∧ read? ts' = some (ref, after') ∧
        List.Forall₂ (Twin R) (t :: front) (t' :: front') ∧ Alike R H H' s after after' := by
  obtain ⟨t', ts', rfl, htwin, hrest⟩ := h.exists_cons
  by_cases ht : t.isIdentifier = true
  · obtain ⟨names, front, after, front', after', rfl, rfl, hnames, hnames', hfront, hafter⟩ :=
      dottedNames_of_alike (hrest (kind_ne_of_isIdentifier ht (by decide)))
    simp only [read?, hnames, hnames', ← htwin.isIdentifier, ← htwin.isKeyword, ← htwin.name]
    split
    · exact .inl ⟨rfl, rfl⟩
    · exact .inr ⟨_, front, after, t', front', after', rfl, rfl, rfl, rfl, .cons htwin hfront,
        hafter⟩
  · rw [Bool.not_eq_true] at ht
    exact .inl (by simp [read?, ht, ← htwin.isIdentifier])

/-- Either no column is read from both lists or the same one from each. -/
theorem read?_of_alike (h : Alike R H H' s ts ts') :
    (read? ts = none ∧ read? ts' = none) ∨ ∃ ref after after',
      read? ts = some (ref, after) ∧ read? ts' = some (ref, after') ∧
        Alike R H H' s after after' := by
  cases ts with
  | nil => exact .inl ⟨rfl, by rw [h.nil_iff.mp rfl]; rfl⟩
  | cons t ts =>
    rcases read?_cons_of_alike h with hnone | ⟨ref, _, after, _, _, after', _, _, hread, hread', _,
      hafter⟩
    · exact .inl hnone
    · exact .inr ⟨ref, after, after', hread, hread', hafter⟩

theorem whole?_of_alike (h : Alike R H H' s ts ts') : whole? ts = whole? ts' := by
  rw [whole?, whole?]
  rcases read?_of_alike h with ⟨hread, hread'⟩ | ⟨ref, after, after', hread, hread', hafter⟩
  · rw [hread, hread']
  · rw [hread, hread']
    rcases hafter.nil_or_cons with ⟨rfl, rfl⟩ | ⟨t, _, t', _, rfl, rfl, -⟩ <;> rfl

end ColumnRef

section

variable {R : Nat → Nat → Prop} {H H' : Token → Prop} {s : Likeness} {ts ts' : List Token}

/-- A keyword that may stand in front is passed over in both lists or in neither. -/
theorem JoinTarget.skipKeyword_of_alike (keyword : String) (h : Alike R H H' s ts ts') :
    Alike R H H' s (skipKeyword keyword ts) (skipKeyword keyword ts') := by
  rcases h.nil_or_cons with ⟨rfl, rfl⟩ | ⟨t, us, t', us', rfl, rfl, htwin, hrest⟩
  · exact .nil
  · rw [skipKeyword, skipKeyword, ← htwin.isKeyword]
    split
    · exact hrest (kind_ne_lparen_of_isKeyword ‹_›)
    · exact h

/-- An alias is the next identifier, AS or no AS, that is not reserved. -/
theorem aliasAt?_eq (ts : List Token) :
    aliasAt? ts = (JoinTarget.skipKeyword "AS" ts).head?.bind fun t =>
      if t.isIdentifier && !t.isKeyword Keyword.reserved then some t.name else none := by
  cases ts with
  | nil => rfl
  | cons t ts =>
    simp only [aliasAt?, JoinTarget.skipKeyword]
    cases (if t.isKeyword ["AS"] = true then ts else t :: ts) <;> rfl

theorem aliasAt?_of_alike (h : Alike R H H' s ts ts') : aliasAt? ts = aliasAt? ts' := by
  have hhead := (JoinTarget.skipKeyword_of_alike "AS" h).head?
  rw [aliasAt?_eq, aliasAt?_eq]
  revert hhead
  generalize (JoinTarget.skipKeyword "AS" ts).head? = o,
    (JoinTarget.skipKeyword "AS" ts').head? = o'
  rintro (htwin | _)
  · simp only [Option.bind_some, htwin.isIdentifier, htwin.isKeyword, htwin.name]
  · rfl

end

end IndexAdvice
