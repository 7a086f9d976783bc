import IndexAdvice.Proofs.Grafting

/-!
# Alike groups

Balanced twins are alike with matching parentheses (`Alike.closed_of_twins`). Tokens that differ in
one nested query are alike if every parenthesis before it is closed, before the query or after it
(`Alike.of_hidden`).
-/

namespace IndexAdvice.Token

variable {R : Nat → Nat → Prop} {H H' : Token → Prop} {s : Likeness} {t l r l' r' : Token}
  {ts ts' us front front' body body' rest rest' : List Token}

/-! ### Matching parentheses -/

/-- After a token that opens nothing, what was balanced is balanced. -/
theorem nesting_of_cons (h : nesting 0 (t :: ts) = some 0) (ht : t.kind ≠ .lparen) :
    nesting 0 ts = some 0 := by
  rw [nesting] at h
  cases hstep : nestingStep 0 t with
  | none => simp [hstep] at h
  | some n =>
    have hn : n = 0 := by
      revert hstep ht
      rw [nestingStep]
      cases t.kind <;> simp [eq_comm]
    rwa [hstep, hn] at h

/-- After a group, what was balanced is balanced. -/
theorem nesting_of_group (h : nesting 0 (l :: (body ++ r :: ts)) = some 0) (hl : l.kind = .lparen)
    (hbody : nesting 0 body = some 0) (hr : r.kind = .rparen) : nesting 0 ts = some 0 := by
  have hsplit : l :: (body ++ r :: ts) = l :: (body ++ [r]) ++ ts := by simp
  rw [hsplit, nesting_append, nesting_group l r hl hr hbody] at h
  exact h

/-- A parenthesis that closes has a body and a closer. -/
theorem exists_group (h : (closeOf 0 ts).isSome) :
    ∃ body r us, ts = body ++ r :: us ∧ nesting 0 body = some 0 ∧ r.kind = .rparen := by
  obtain ⟨i, hi⟩ := Option.isSome_iff_exists.mp h
  obtain ⟨body, r, us, hts, -, hbody, hr⟩ := closeOf_eq_some_iff.mp hi
  exact ⟨body, r, us, hts, hbody, hr⟩

/-- Whether each parenthesis that opens among the tokens is closed, by one of them or after them. -/
def closesAll (after : List Token) : List Token → Bool
  | [] => true
  | t :: ts => (t.kind != .lparen || (closeOf 0 (ts ++ after)).isSome) && closesAll after ts

theorem closesAll_cons {after : List Token} : closesAll after (t :: ts) = true ↔
    (t.kind = .lparen → (closeOf 0 (ts ++ after)).isSome) ∧ closesAll after ts = true := by
  simp [closesAll, imp_iff_not_or]

/-- In a later part of a list every group closes that closes in the list. -/
theorem closesAll_of_append {after : List Token} (h : closesAll after (ts ++ us) = true) :
    closesAll after us = true := by
  induction ts with
  | nil => exact h
  | cons t ts ih => exact ih (closesAll_cons.mp h).2

/-- All parentheses of balanced tokens are closed. -/
theorem closesAll_of_balanced {after : List Token} (h : nesting 0 (us ++ (ts ++ after)) = some 0) :
    closesAll after ts = true := by
  induction ts generalizing us with
  | nil => rfl
  | cons t ts ih =>
    refine closesAll_cons.mpr ⟨isSome_closeOf_of_balanced h, @ih (us ++ [t]) ?_⟩
    rwa [List.append_assoc]

/-- **The end of a group around.** A parenthesis before a nested query is closed before the query
or after it. -/
theorem exists_closer {a : Token} (hT : Located (a :: (front ++ l :: (body ++ r :: rest))))
    (ha : a.kind = .lparen) (hl : l.kind = .lparen) (hbody : nesting 0 body = some 0)
    (hr : r.kind = .rparen) (hclosed : (closeOf 0 (front ++ l :: (body ++ r :: rest))).isSome) :
    (∃ inner c us, front = inner ++ c :: us ∧ nesting 0 inner = some 0 ∧ c.kind = .rparen) ∨
      ∃ mid c us, rest = mid ++ c :: us ∧ nesting 0 (front ++ l :: (body ++ r :: mid)) = some 0 ∧
        c.kind = .rparen := by
  obtain ⟨inner, c, us, hsplit, hinner, hc⟩ := exists_group hclosed
  have hassoc (rest : List Token) :
      front ++ l :: (body ++ r :: rest) = (front ++ l :: (body ++ [r])) ++ rest := by
    simp
  rcases List.append_eq_append_iff.mp ((hassoc rest).symm.trans hsplit) with
    ⟨mid, rfl, hmid⟩ | ⟨k, hk, hus⟩
  · exact .inr ⟨mid, c, us, hmid, by rwa [hassoc], hc⟩
  cases k with
  | nil =>
    rw [List.append_nil] at hk
    exact .inr ⟨[], c, us, hus.symm, by rwa [hassoc, List.append_nil, hk], hc⟩
  | cons c' k =>
    obtain ⟨rfl, -⟩ := List.cons.inj hus
    rcases List.append_eq_append_iff.mp hk with ⟨m, rfl, hm⟩ | ⟨m, rfl, hm⟩
    · -- the query has no token as shallow as the parenthesis
      have hopen : closeOf 0 front = none :=
        closeOf_eq_none_of_append (closeOf_eq_none_iff.mpr ⟨0, hinner⟩)
      have hlt := hT.lt_depth ha (closeOf_concat hopen (by simp [hl]))
      have hcdepth : c.depth = a.depth := ((hsplit ▸ hT).group ha hinner hc).2
      obtain ⟨hdeeper, hdepth⟩ := hT.tail.right.group hl hbody hr
      have hmem : c ∈ l :: (body ++ [r]) := hm ▸ by simp
      simp only [List.mem_cons, List.mem_append, List.not_mem_nil, or_false] at hmem
      rcases hmem with rfl | hmem | rfl
      · omega
      · have := hdeeper c hmem
        omega
      · omega
    · cases m with
      | nil =>
        obtain ⟨rfl, -⟩ := List.cons.inj hm
        rw [hl] at hc
        exact absurd hc (by decide)
      | cons c' m =>
        obtain ⟨rfl, -⟩ := List.cons.inj hm
        exact .inl ⟨inner, c, m, rfl, hinner, hc⟩

/-! ### Alike tokens from twins -/

namespace Alike

/-- The parentheses of a balanced group stand around it in both texts. -/
theorem around_of_twins (h : Located (l :: (body ++ r :: rest))) (hl : l.kind = .lparen)
    (hbody : nesting 0 body = some 0) (hr : r.kind = .rparen) (hopens : Twin R l l')
    (hcloses : Twin R r r') : Around R l r l' r' :=
  ⟨hopens, hcloses, hl, h.text l List.mem_cons_self hl, hr, (h.group hl hbody hr).2⟩

/-- Balanced twins are alike with matching parentheses. -/
theorem closed_of_twins (hts : Located ts) (hbalanced : nesting 0 ts = some 0)
    (h : List.Forall₂ (Twin R) ts ts') : Alike R H H' .closed ts ts' := by
  induction hn : ts.length using Nat.strongRecOn generalizing ts ts' with
  | ind n ih =>
  subst hn
  cases h with
  | nil => exact .nil
  | @cons t t' ts ts' htwin hrest =>
    by_cases hlparen : t.kind = .lparen
    · have hclosed : (closeOf 0 ts).isSome := by
        have hsplit : nesting 0 ([] ++ t :: ts) = some 0 := hbalanced
        exact isSome_closeOf_of_balanced hsplit hlparen
      obtain ⟨body, r, us, rfl, hbody, hr⟩ := exists_group hclosed
      obtain ⟨body', after, rfl, hbodies, hafter⟩ := exists_of_forall₂_append hrest
      obtain ⟨r', us', hcloser, hus, rfl⟩ := List.forall₂_cons_left_iff.mp hafter
      have hlt : body.length < (t :: (body ++ r :: us)).length ∧
          us.length < (t :: (body ++ r :: us)).length := by
        simp only [List.length_cons, List.length_append]
        omega
      exact .group (by decide) (around_of_twins hts hlparen hbody hr htwin hcloser)
        (hts.group hlparen hbody hr).1 (ih _ hlt.1 hts.tail.left hbody hbodies rfl)
        (ih _ hlt.2 hts.tail.right.tail (nesting_of_group hbalanced hlparen hbody hr) hus rfl)
    · exact .token htwin (absurd · hlparen)
        (ih _ (Nat.lt_succ_self _) hts.tail (nesting_of_cons hbalanced hlparen) hrest rfl)

/-- Twins are alike, and with matching parentheses if they are balanced. -/
theorem of_twins (hs : s ≠ .plain) (hts : Located ts) (h : List.Forall₂ (Twin R) ts ts')
    (hbalanced : s = .closed → nesting 0 ts = some 0) : Alike R H H' s ts ts' := by
  cases s with
  | plain => exact absurd rfl hs
  | closed => exact closed_of_twins hts (hbalanced rfl) h
  | mixed => exact .plain (.of_forall₂ h)

/-- **Around a nested query** that differs, twins are alike, if every parenthesis before it is
closed. -/
theorem of_hidden (hs : s ≠ .plain) (hT : Located (front ++ l :: (body ++ r :: rest)))
    (hbody : nesting 0 body = some 0) (around : Around R l r l' r') (inside : Hidden H l.depth body)
    (inside' : Hidden H' l'.depth body') (hfront : List.Forall₂ (Twin R) front front')
    (hrest : List.Forall₂ (Twin R) rest rest')
    (hclosed : closesAll (l :: (body ++ r :: rest)) front = true)
    (hbalanced : s = .closed → nesting 0 (front ++ l :: (body ++ r :: rest)) = some 0) :
    Alike R H H' s (front ++ l :: (body ++ r :: rest))
      (front' ++ l' :: (body' ++ r' :: rest')) := by
  induction hn : front.length using Nat.strongRecOn generalizing s front front' rest rest' with
  | ind n ih =>
  subst hn
  cases hfront with
  | nil =>
    have hinside' : Hidden H' l.depth body' := around.opens.depth ▸ inside'
    refine .hidden hs around inside hinside' (of_twins hs hT.tail.right.tail hrest fun h => ?_)
    exact nesting_of_group (hbalanced h) around.lparen hbody around.rparen
  | @cons a a' front front' htwin hfront =>
    obtain ⟨hclosed, hclosed'⟩ := closesAll_cons.mp hclosed
    by_cases hlparen : a.kind = .lparen
    · rcases exists_closer hT hlparen around.lparen hbody around.rparen (hclosed hlparen) with
        ⟨inner, c, us, rfl, hinner, hc⟩ | ⟨mid, c, us, rfl, hinner, hc⟩
      · -- the nested query stands after the group
        obtain ⟨inner', after', rfl, hinners, hafter⟩ := exists_of_forall₂_append hfront
        obtain ⟨c', us', hcloser, hus, rfl⟩ := List.forall₂_cons_left_iff.mp hafter
        have hlt : us.length < (a :: (inner ++ c :: us)).length := by
          simp only [List.length_cons, List.length_append]
          omega
        simp only [List.cons_append, List.append_assoc] at hT hbalanced ⊢
        have hrest : Alike R H H' s (us ++ l :: (body ++ r :: rest))
            (us' ++ l' :: (body' ++ r' :: rest')) :=
          ih _ hlt hs hT.tail.right.tail hus hrest
            (closesAll_cons.mp (closesAll_of_append hclosed')).2
            (fun h => nesting_of_group (hbalanced h) hlparen hinner hc) rfl
        exact .group hs (around_of_twins hT hlparen hinner hc htwin hcloser)
          (hT.group hlparen hinner hc).1 (closed_of_twins hT.tail.left hinner hinners) hrest
      · -- the nested query stands inside the group
        obtain ⟨mid', after', rfl, hmids, hafter⟩ := exists_of_forall₂_append hrest
        obtain ⟨c', us', hcloser, hus, rfl⟩ := List.forall₂_cons_left_iff.mp hafter
        have hsplit {a l r c : Token} {front body mid us : List Token} :
            a :: front ++ l :: (body ++ r :: (mid ++ c :: us)) =
              a :: ((front ++ l :: (body ++ r :: mid)) ++ c :: us) := by
          simp
        rw [hsplit] at hT hbalanced ⊢
        rw [hsplit]
        have hinside : Alike R H H' .closed (front ++ l :: (body ++ r :: mid))
            (front' ++ l' :: (body' ++ r' :: mid')) := by
          have hprefix : nesting 0 ([] ++ (front ++ l :: (body ++ r :: mid))) = some 0 := hinner
          exact ih _ (Nat.lt_succ_self _) (by decide) hT.tail.left hfront hmids
            (closesAll_of_balanced hprefix) (fun _ => hinner) rfl
        exact .group hs (around_of_twins hT hlparen hinner hc htwin hcloser)
          (hT.group hlparen hinner hc).1 hinside (of_twins hs hT.tail.right.tail hus fun h =>
            nesting_of_group (hbalanced h) hlparen hinner hc)
    · refine .token htwin (absurd · hlparen) ?_
      exact ih _ (Nat.lt_succ_self _) hs hT.tail hfront hrest hclosed'
        (fun h => nesting_of_cons (hbalanced h) hlparen) rfl

end Alike

end IndexAdvice.Token
