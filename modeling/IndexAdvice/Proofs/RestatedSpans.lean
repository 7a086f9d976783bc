import IndexAdvice.Proofs.AlikeSpans
import IndexAdvice.Proofs.RestatedTokens

/-!
# Restated spans

Restated tokens are divided into the same clauses of restated tokens (`Span.restated_divide`). The
token before them matters only if it is `DISTINCT`.
-/

namespace IndexAdvice

open Token

namespace Span

variable {a : Nat} {t t' : Token} {ts ts' rest rest' held held' : List Token}
  {before before' : Option Token} {spans spans' : List Span}

/-- Spans of two texts with one keyword and restated tokens. -/
structure Restated (a : Nat) (span span' : Span) : Prop where
  keyword : span.keyword = span'.keyword
  tokens : List.Forall₂ (Token.Restated a) span.tokens span'.tokens

theorem startsJoin_of_restated (h : List.Forall₂ (Token.Restated a) ts ts') :
    startsJoin ts = startsJoin ts' := by
  rw [startsJoin, startsJoin]
  refine head?_any_of_forall₂ (forall₂_dropWhile h fun t t' h => ?_) fun t t' h => h.isKeyword _
  rw [h.depth, h.isKeyword]

theorem pair?_of_restated (ht : Token.Restated a t t')
    (h : List.Forall₂ (Token.Restated a) rest rest') : pair? t rest = pair? t' rest' := by
  have hsecond (second : String) : rest.head?.any (·.isKeyword [second]) =
      rest'.head?.any (·.isKeyword [second]) :=
    head?_any_of_forall₂ h fun _ _ h => h.isKeyword _
  simp only [pair?, ht.upper, hsecond]

/-- A clause is opened by the same tokens, as keywords are read in capitals. -/
theorem opening_of_restated (ht : Token.Restated a t t')
    (h : List.Forall₂ (Token.Restated a) rest rest')
    (hbefore : before.any (·.isKeyword ["DISTINCT"]) = before'.any (·.isKeyword ["DISTINCT"])) :
    opening before t rest = opening before' t' rest' := by
  simp only [opening, ht.depth, ht.kind, ht.upper, hbefore, pair?_of_restated ht h,
    startsJoin_of_restated (.cons ht h)]

/-- **Dividing.** Restated tokens are divided into the same spans of restated tokens. -/
theorem restated_divideFrom (keyword : String) (phase : Phase)
    (hheld : List.Forall₂ (Token.Restated a) held held')
    (h : List.Forall₂ (Token.Restated a) ts ts')
    (hbefore : before.any (·.isKeyword ["DISTINCT"]) = before'.any (·.isKeyword ["DISTINCT"])) :
    List.Forall₂ (Restated a) (divideFrom keyword phase before held ts)
      (divideFrom keyword phase before' held' ts') := by
  -- a span is closed with the tokens held for it
  have hclose (keyword : String) {held held' : List Token}
      (hheld : List.Forall₂ (Token.Restated a) held held') :
      Restated a ⟨keyword, held.reverse⟩ ⟨keyword, held'.reverse⟩ :=
    ⟨rfl, List.forall₂_reverse_iff.mpr hheld⟩
  induction h generalizing keyword phase before before' held held' with
  | nil => exact .cons (hclose keyword hheld) .nil
  | @cons t t' ts ts' ht hts ih =>
    have hnext : (some t).any (·.isKeyword ["DISTINCT"]) =
        (some t').any (·.isKeyword ["DISTINCT"]) := by
      rw [Option.any_some, Option.any_some, ht.isKeyword]
    have hhead : afterJoinHead t = afterJoinHead t' := by
      rw [afterJoinHead, afterJoinHead, ht.isKeyword]
    cases phase with
    | pairTail => exact ih keyword .body hheld hnext
    | joinHead =>
      rw [divideFrom, divideFrom, hhead]
      exact ih keyword _ (.cons ht hheld) hnext
    | body =>
      rw [divideFrom, divideFrom, opening_of_restated ht hts hbefore, hhead]
      cases opening before' t' ts' with
      | nothing => exact ih keyword .body (.cons ht hheld) hnext
      | stop => exact .cons (hclose keyword hheld) .nil
      | pair next => exact .cons (hclose keyword hheld) (ih next .pairTail .nil hnext)
      | join => exact .cons (hclose keyword hheld) (ih "JOIN" _ (.cons ht .nil) hnext)
      | clause next => exact .cons (hclose keyword hheld) (ih next .body .nil hnext)

/-- **Clauses of restated tokens are restated**, span by span. -/
theorem restated_divide (h : List.Forall₂ (Token.Restated a) ts ts') :
    List.Forall₂ (Restated a) (divide ts) (divide ts') := by
  cases h with
  | nil => exact .nil
  | @cons t t' ts ts' ht hts =>
    rw [divide, divide, ← ht.isKeyword, ← ht.upper]
    split
    · refine restated_divideFrom _ _ .nil hts ?_
      rw [Option.any_some, Option.any_some, ht.isKeyword]
    · exact restated_divideFrom _ _ .nil (.cons ht hts) rfl

theorem restated_tokensOf (h : List.Forall₂ (Restated a) spans spans') (keyword : String) :
    List.Forall₂ (List.Forall₂ (Token.Restated a)) (tokensOf spans keyword)
      (tokensOf spans' keyword) := by
  refine List.rel_map (fun _ _ h => h.tokens) (List.rel_filter (fun span span' hspan => ?_) h)
  simp only [hspan.keyword]

theorem restated_firstOf (h : List.Forall₂ (Restated a) spans spans') (keyword : String) :
    List.Forall₂ (Token.Restated a) (firstOf spans keyword) (firstOf spans' keyword) := by
  have htokens := restated_tokensOf h keyword
  rw [firstOf, firstOf]
  revert htokens
  generalize tokensOf spans keyword = lists, tokensOf spans' keyword = lists'
  rintro (_ | ⟨hfirst, -⟩)
  · exact .nil
  · exact hfirst

/-! ### Joins have tokens -/

/-- A join holds the token that it starts with. -/
theorem tokens_ne_nil_of_join {keyword : String} {phase : Phase} {span : Span}
    (hheld : keyword = "JOIN" → held ≠ []) (h : span ∈ divideFrom keyword phase before held ts)
    (hjoin : span.keyword = "JOIN") : span.tokens ≠ [] := by
  have hclosed {keyword : String} {held : List Token} (hheld : keyword = "JOIN" → held ≠ [])
      {span : Span} (hspan : span = ⟨keyword, held.reverse⟩) (hjoin : span.keyword = "JOIN") :
      span.tokens ≠ [] := by
    subst hspan
    simpa using hheld hjoin
  -- while a join is read, its first token is held
  induction ts generalizing keyword phase before held with
  | nil => exact hclosed hheld (List.mem_singleton.mp h) hjoin
  | cons t ts ih =>
    cases phase with
    | pairTail => exact ih hheld h
    | joinHead => exact ih (fun _ => List.cons_ne_nil _ _) h
    | body =>
      rw [divideFrom] at h
      have hfits := opening_fits before t ts
      generalize opening before t ts = o at h hfits
      cases o with
      | nothing => exact ih (fun _ => List.cons_ne_nil _ _) h
      | stop => exact hclosed hheld (List.mem_singleton.mp h) hjoin
      | pair next =>
        rcases List.mem_cons.mp h with hspan | h
        · exact hclosed hheld hspan hjoin
        · exact ih (fun h => absurd h hfits.1) h
      | join =>
        rcases List.mem_cons.mp h with hspan | h
        · exact hclosed hheld hspan hjoin
        · exact ih (fun _ => List.cons_ne_nil _ _) h
      | clause next =>
        rcases List.mem_cons.mp h with hspan | h
        · exact hclosed hheld hspan hjoin
        · exact ih (fun h => absurd h hfits) h

theorem ne_nil_of_mem_joins (ts us : List Token) (h : us ∈ tokensOf (divide ts) "JOIN") :
    us ≠ [] := by
  obtain ⟨span, hspan, rfl⟩ := List.mem_map.mp h
  obtain ⟨hspan, hjoin⟩ := List.mem_filter.mp hspan
  have hjoin : span.keyword = "JOIN" := by simpa using hjoin
  cases ts with
  | nil => exact absurd hspan List.not_mem_nil
  | cons t ts =>
    rw [divide] at hspan
    split at hspan
    · rename_i hkeyword
      refine tokens_ne_nil_of_join (fun hupper => ?_) hspan hjoin
      simp [isKeyword, hupper, Keyword.statement] at hkeyword
    · exact tokens_ne_nil_of_join (fun h => absurd h (by decide)) hspan hjoin

end Span

end IndexAdvice
