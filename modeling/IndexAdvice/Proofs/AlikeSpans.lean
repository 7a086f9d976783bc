import IndexAdvice.Clause.Span
import IndexAdvice.Proofs.AlikeConditions

/-!
# Alike spans

Alike queries are divided into the same clauses of alike tokens (`Span.divide_of_alike`). Clauses
start at words outside all parentheses, so a group divides nothing (`Span.divideFrom_group`), and
none opens while the words of one keyword are read.
-/

namespace IndexAdvice

open Token

namespace Span

variable {R : Nat → Nat → Prop} {H H' : Token → Prop} {s : Likeness} {t t' l r : Token}
  {ts ts' us front inner rest rest' held : List Token} {before before' : Option Token}
  {keyword : String} {phase : Phase}

/-! ### The start of a join -/

/-- Join modifiers are passed over until JOIN itself decides. -/
theorem startsJoin_cons (t : Token) (ts : List Token) :
    startsJoin (t :: ts) = if t.depth == 0 && t.isKeyword Keyword.joinModifier then startsJoin ts
      else t.isKeyword ["JOIN"] := by
  rw [startsJoin, List.dropWhile_cons]
  split <;> rfl

theorem startsJoin_of_alike (h : Alike R H H' s ts ts') : startsJoin ts = startsJoin ts' := by
  induction ts generalizing ts' with
  | nil => rw [h.nil_iff.mp rfl]
  | cons t ts ih =>
    obtain ⟨t', ts', rfl, htwin, hrest⟩ := h.exists_cons
    rw [startsJoin_cons, startsJoin_cons, ← htwin.isKeyword, ← htwin.isKeyword, ← htwin.depth]
    split
    · rename_i hmodifier
      rw [Bool.and_eq_true] at hmodifier
      exact ih (hrest (kind_ne_lparen_of_isKeyword hmodifier.2))
    · rfl

theorem not_isKeyword_join (h : t.isKeyword Keyword.joinModifier = true) :
    t.isKeyword ["JOIN"] = false := by
  have hkind := kind_of_isKeyword h
  simp only [isKeyword, hkind, beq_self_eq_true, Bool.true_and, Keyword.joinModifier] at h ⊢
  by_contra hjoin
  simp at hjoin
  simp [hjoin] at h

/-- What starts a join is a word, and unless it is `JOIN` what follows it starts a join as well. -/
theorem startsJoin_iff (t : Token) (ts : List Token) :
    startsJoin (t :: ts) = true ↔ t.isKeyword ["JOIN"] = true ∨
      t.depth = 0 ∧ t.isKeyword Keyword.joinModifier = true ∧ startsJoin ts = true := by
  rw [startsJoin_cons]
  by_cases hmodifier : t.isKeyword Keyword.joinModifier = true
  · simp only [hmodifier, not_isKeyword_join hmodifier]
    simp
  · simp [hmodifier]

/-- The head of a join goes on until its JOIN. -/
theorem startsJoin_tail (h : startsJoin (t :: ts) = true) (hphase : afterJoinHead t = .joinHead) :
    startsJoin ts = true := by
  rcases (startsJoin_iff _ _).mp h with hjoin | hmodifier
  · simp [afterJoinHead, hjoin] at hphase
  · exact hmodifier.2.2

/-- A modifier before what starts a join starts that join. -/
theorem startsJoin_of_afterJoinHead (h : startsJoin (t :: ts) = true)
    (hus : afterJoinHead t = .joinHead → startsJoin us = true) : startsJoin (t :: us) = true := by
  rcases (startsJoin_iff _ _).mp h with hjoin | ⟨hdepth, hmodifier, -⟩
  · exact (startsJoin_iff _ _).mpr (.inl hjoin)
  · refine (startsJoin_iff _ _).mpr (.inr ⟨hdepth, hmodifier, hus ?_⟩)
    rw [afterJoinHead, not_isKeyword_join hmodifier]
    rfl

/-! ### What a token opens -/

theorem pair?_of_twin (htwin : Twin R t t') (h : Alike R H H' s rest rest') :
    pair? t rest = pair? t' rest' := by
  rw [pair?, pair?, ← htwin.upper]
  cases Keyword.paired.lookup t.upper with
  | none => rfl
  | some second => simp only [h.head?_any fun _ _ htwin => htwin.isKeyword [second]]

/-- A keyword of two words is followed by a word, so it needs no look into a group. -/
theorem pair?_sound (h : pair? t rest = some keyword) :
    keyword ≠ "JOIN" ∧ rest.head?.any (·.kind == .word) = true := by
  unfold pair? at h
  split at h
  · rename_i second hlookup
    split at h
    · rename_i hsecond
      obtain rfl := Option.some.inj h
      refine ⟨?_, ?_⟩
      · intro hjoin
        have hblank : ' ' ∈ (t.upper ++ " " ++ second).toList := by simp
        rw [hjoin] at hblank
        exact absurd hblank (by decide)
      · rw [Option.any_eq_true] at hsecond ⊢
        obtain ⟨u, hu, hkeyword⟩ := hsecond
        exact ⟨u, hu, by rw [kind_of_isKeyword hkeyword]; rfl⟩
    · cases h
  · cases h

/-- The same clause is opened in both lists, as DISTINCT before a FROM is seen on both sides. -/
theorem opening_of_alike (h : Alike R H H' s (t :: rest) (t' :: rest'))
    (hbefore : before.any (·.isKeyword ["DISTINCT"]) = before'.any (·.isKeyword ["DISTINCT"])) :
    opening before t rest = opening before' t' rest' := by
  obtain ⟨_, _, hts', htwin, hrest⟩ := h.exists_cons
  obtain ⟨rfl, rfl⟩ := List.cons.inj hts'
  rw [opening, opening, ← htwin.depth, ← htwin.kind, ← htwin.upper, ← hbefore,
    ← startsJoin_of_alike h]
  by_cases hword : t.kind = .word
  · rw [pair?_of_twin htwin (hrest (by simp [hword]))]
  · rw [if_pos (by simp [hword]), if_pos (by simp [hword])]

/-- Only a word outside of all groups opens a clause. -/
theorem opening_eq_nothing_of_ne (h : t.depth ≠ 0 ∨ t.kind ≠ .word) (before : Option Token)
    (rest : List Token) : opening before t rest = .nothing := by
  rw [opening, if_pos]
  simpa using h

/-- What is known about a token that opens something, and about the tokens after it. -/
def Opening.Fits (t : Token) (rest : List Token) : Opening → Prop
  | .nothing => True
  | .stop => True
  | .pair next => next ≠ "JOIN" ∧ rest.head?.any (·.kind == .word) = true
  | .join => startsJoin (t :: rest) = true
  | .clause next => next ≠ "JOIN"

theorem opening_fits (before : Option Token) (t : Token) (rest : List Token) :
    (opening before t rest).Fits t rest := by
  rw [opening]
  split
  · exact trivial
  · rename_i hword
    simp only [Bool.or_eq_true, bne_iff_ne, not_or, not_not] at hword
    split
    · exact trivial
    · split
      · exact pair?_sound ‹_›
      · split
        · rename_i hjoin
          simp only [Bool.or_eq_true, beq_iff_eq, Bool.and_eq_true] at hjoin
          rcases hjoin with hjoin | ⟨-, hjoin⟩
          · exact (startsJoin_iff _ _).mpr (.inl (by simp [isKeyword, hword.2, hjoin]))
          · exact hjoin
        · split
          · rename_i hclause
            rw [Bool.and_eq_true] at hclause
            intro hjoin
            simp [hjoin, Keyword.clause] at hclause
          · exact trivial

/-! ### Dividing -/

/-- Spans of which the first one holds more tokens in front. -/
def prepend (front : List Token) (spans : List Span) : List Span :=
  spans.modifyHead fun span => { span with tokens := front ++ span.tokens }

/-- Tokens held back stand in front of the span that is being read. -/
theorem divideFrom_eq_prepend (keyword : String) (phase : Phase) (before : Option Token)
    (held ts : List Token) :
    divideFrom keyword phase before held ts =
      prepend held.reverse (divideFrom keyword phase before [] ts) := by
  induction ts generalizing keyword phase before held with
  | nil => simp [divideFrom, prepend]
  | cons t ts ih =>
    have hgrow (keyword : String) (phase : Phase) (before : Option Token) :
        divideFrom keyword phase before (t :: held) ts =
          prepend held.reverse (divideFrom keyword phase before [t] ts) := by
      rw [ih keyword phase before (t :: held), ih keyword phase before [t]]
      cases divideFrom keyword phase before [] ts <;> simp [prepend]
    cases phase with
    | pairTail => exact ih _ _ _ _
    | joinHead => exact hgrow _ _ _
    | body =>
      rw [divideFrom, divideFrom]
      cases opening before t ts with
      | nothing => exact hgrow _ _ _
      | _ => simp [prepend]

/-- Tokens that open nothing go on the span that is open. -/
theorem divideFrom_append_of_nothing
    (h : ∀ t ∈ front, ∀ before rest, opening before t rest = .nothing) (keyword : String)
    (before : Option Token) (held ts : List Token) :
    divideFrom keyword .body before held (front ++ ts) =
      divideFrom keyword .body (front.getLast?.or before) (front.reverse ++ held) ts := by
  induction front generalizing before held with
  | nil => rfl
  | cons t front ih =>
    rw [List.cons_append, divideFrom, h t List.mem_cons_self]
    simp only
    rw [ih fun u hu => h u (List.mem_cons_of_mem t hu), List.getLast?_cons, Option.some_or,
      List.reverse_cons, List.append_assoc]
    congr 1
    cases front.getLast? <;> rfl

/-- Tokens that open no clause are held back. -/
theorem divideFrom_body_append (h : ∀ t ∈ front, t.depth ≠ 0 ∨ t.kind ≠ .word) (keyword : String)
    (before : Option Token) (held ts : List Token) :
    divideFrom keyword .body before held (front ++ ts) =
      divideFrom keyword .body (front.getLast?.or before) (front.reverse ++ held) ts :=
  divideFrom_append_of_nothing (fun t ht => opening_eq_nothing_of_ne (h t ht)) keyword before held
    ts

/-- A group divides nothing. -/
theorem divideFrom_group (hl : l.kind = .lparen) (hr : r.kind = .rparen)
    (deeper : ∀ t ∈ inner, l.depth < t.depth) (keyword : String) (before : Option Token)
    (ts : List Token) :
    divideFrom keyword .body before [] (l :: (inner ++ r :: ts)) =
      prepend (l :: inner ++ [r]) (divideFrom keyword .body (some r) [] ts) := by
  have hsplit : l :: (inner ++ r :: ts) = (l :: inner ++ [r]) ++ ts := by simp
  rw [hsplit, divideFrom_body_append, List.getLast?_concat, Option.some_or, List.append_nil,
    divideFrom_eq_prepend, List.reverse_reverse]
  intro t ht
  rcases List.mem_append.mp ht with ht | ht
  · rcases List.mem_cons.mp ht with rfl | ht
    · exact .inr (by simp [hl])
    · have := deeper t ht
      exact .inl (by omega)
  · obtain rfl := List.mem_singleton.mp ht
    exact .inr (by simp [hr])

/-- No join is under way and no pair is half read where a group opens. -/
theorem phase_of_lparen (hl : l.kind = .lparen)
    (hjoin : phase = .joinHead → startsJoin (l :: ts) = true)
    (hpair : phase = .pairTail → (l :: ts).head?.any (·.kind == .word) = true) :
    phase = .body := by
  cases phase with
  | body => rfl
  | joinHead =>
    have := hjoin rfl
    simp [startsJoin_cons, isKeyword, hl] at this
  | pairTail =>
    have := hpair rfl
    simp [hl] at this

/-- Spans of two texts with one keyword and alike tokens. Joins start with their `JOIN`. -/
structure Matches (R : Nat → Nat → Prop) (H H' : Token → Prop) (span span' : Span) : Prop where
  keyword : span.keyword = span'.keyword
  tokens : Alike R H H' .mixed span.tokens span'.tokens
  startsJoin : span.keyword = "JOIN" → startsJoin span.tokens = true

/-- Spans of two texts, when the span of `keyword` is open in `phase`. The open one starts a join
only if what it holds is put in front. -/
def Divided (R : Nat → Nat → Prop) (H H' : Token → Prop) (s : Likeness) (keyword : String)
    (phase : Phase) (spans spans' : List Span) : Prop :=
  ∃ ts ts' more more', spans = ⟨keyword, ts⟩ :: more ∧ spans' = ⟨keyword, ts'⟩ :: more' ∧
    Alike R H H' s ts ts' ∧ (phase = .joinHead → startsJoin ts = true) ∧
    List.Forall₂ (Matches R H H') more more'

namespace Divided

variable {spans spans' : List Span}

/-- Spans that are divided alike stay so when nothing is asked of their groups. -/
theorem mixed (h : Divided R H H' s keyword phase spans spans') :
    Divided R H H' .mixed keyword phase spans spans' := by
  obtain ⟨ts, ts', more, more', rfl, rfl, halike, hjoin, hmore⟩ := h
  exact ⟨ts, ts', more, more', rfl, rfl, halike.mixed, hjoin, hmore⟩

/-- Only the head of a join makes the phase matter. -/
theorem of_phase {phase' : Phase} (h : Divided R H H' s keyword phase spans spans')
    (hphase : phase' ≠ .joinHead) : Divided R H H' s keyword phase' spans spans' := by
  obtain ⟨ts, ts', more, more', rfl, rfl, halike, -, hmore⟩ := h
  exact ⟨ts, ts', more, more', rfl, rfl, halike, fun h => absurd h hphase, hmore⟩

/-- What stands in front of both first spans may be put back. -/
theorem prepend {front front' : List Token} (h : Divided R H H' s keyword .body spans spans')
    (hfront : ∀ ts ts', Alike R H H' s ts ts' → Alike R H H' s (front ++ ts) (front' ++ ts')) :
    Divided R H H' s keyword .body (Span.prepend front spans) (Span.prepend front' spans') := by
  obtain ⟨ts, ts', more, more', rfl, rfl, halike, -, hmore⟩ := h
  exact ⟨_, _, more, more', rfl, rfl, hfront ts ts' halike, by simp, hmore⟩

/-- Divided spans match one by one. -/
theorem forall₂ (h : Divided R H H' s keyword phase spans spans')
    (hjoin : keyword = "JOIN" → phase = .joinHead) :
    List.Forall₂ (Matches R H H') spans spans' := by
  obtain ⟨ts, ts', more, more', rfl, rfl, halike, hstarts, hmore⟩ := h
  exact .cons ⟨rfl, halike.mixed, fun h => hstarts (hjoin h)⟩ hmore

/-- The first token of a join before the rest of it. -/
theorem joinHead (twin : Twin R t t') (single : t.kind = .lparen → s = .plain)
    (hstarts : startsJoin (t :: rest) = true)
    (h : Divided R H H' s keyword (afterJoinHead t) spans spans') :
    Divided R H H' s keyword .joinHead (Span.prepend [t] spans) (Span.prepend [t'] spans') := by
  obtain ⟨ts, ts', more, more', rfl, rfl, halike, hjoin, hmore⟩ := h
  refine ⟨t :: ts, t' :: ts', more, more', rfl, rfl, .token twin single halike, fun _ => ?_, hmore⟩
  exact startsJoin_of_afterJoinHead hstarts hjoin

end Divided

/-- **Dividing.** Alike tokens are divided into the same spans of alike tokens. -/
theorem divideFrom_of_alike (h : Alike R H H' s ts ts')
    (hbefore : before.any (·.isKeyword ["DISTINCT"]) = before'.any (·.isKeyword ["DISTINCT"]))
    (hjoin : phase = .joinHead → startsJoin ts = true)
    (hpair : phase = .pairTail → ts.head?.any (·.kind == .word) = true) :
    Divided R H H' s keyword phase (divideFrom keyword phase before [] ts)
      (divideFrom keyword phase before' [] ts') := by
  induction h generalizing keyword phase before before' with
  | nil => exact ⟨[], [], [], [], rfl, rfl, .nil, hjoin, .nil⟩
  | @token s t t' ts ts' twin single rest ih =>
    have hnext := twin.some_any_isKeyword ["DISTINCT"]
    have hphase : afterJoinHead t' = afterJoinHead t := by
      rw [afterJoinHead, afterJoinHead, twin.isKeyword]
    -- the head of a join, from its first token on
    have hstarted (keyword : String) (hstarts : startsJoin (t :: ts) = true) :
        Divided R H H' s keyword .joinHead
          (divideFrom keyword (afterJoinHead t) (some t) [t] ts)
          (divideFrom keyword (afterJoinHead t') (some t') [t'] ts') := by
      rw [divideFrom_eq_prepend _ _ _ [t], divideFrom_eq_prepend _ _ _ [t'], hphase]
      exact .joinHead twin single hstarts (ih hnext (startsJoin_tail hstarts) fun h =>
        absurd h (afterJoinHead_ne_pairTail t))
    cases phase with
    | pairTail => exact (ih hnext (by simp) (by simp)).of_phase (by simp)
    | joinHead => exact hstarted keyword (hjoin rfl)
    | body =>
      rw [divideFrom, divideFrom, ← opening_of_alike (.token twin single rest) hbefore]
      have hfits := opening_fits before t ts
      generalize opening before t ts = o at hfits ⊢
      cases o with
      | nothing =>
        simp only
        rw [divideFrom_eq_prepend _ _ _ [t], divideFrom_eq_prepend _ _ _ [t']]
        exact (ih hnext (by simp) (by simp)).prepend fun _ _ h =>
          .token twin single h
      | stop => exact ⟨[], [], [], [], rfl, rfl, .nil, by simp, .nil⟩
      | pair next =>
        refine ⟨[], [], _, _, rfl, rfl, .nil, by simp, ?_⟩
        exact (ih hnext (by simp) fun _ => hfits.2).forall₂ fun h => absurd h hfits.1
      | join =>
        refine ⟨[], [], _, _, rfl, rfl, .nil, by simp, ?_⟩
        exact (hstarted "JOIN" hfits).forall₂ fun _ => rfl
      | clause next =>
        refine ⟨[], [], _, _, rfl, rfl, .nil, by simp, ?_⟩
        exact (ih hnext (by simp) (by simp)).forall₂ fun h => absurd h hfits
  -- nothing in a group opens a clause
  | group hs around deeper inside rest _ ih =>
    obtain rfl := phase_of_lparen around.lparen hjoin hpair
    rw [divideFrom_group around.lparen around.rparen deeper,
      divideFrom_group around.lparen' around.rparen'
        ((inside.le_depth_iff _).mp (around.opens.depth ▸ deeper))]
    refine (ih (around.closes.some_any_isKeyword _) (by simp) (by simp)).prepend fun _ _ h => ?_
    rw [List.append_assoc, List.append_assoc]
    exact .group hs around deeper inside h
  | hidden hs around inside inside' rest ih =>
    obtain rfl := phase_of_lparen around.lparen hjoin hpair
    rw [divideFrom_group around.lparen around.rparen inside.deeper,
      divideFrom_group around.lparen' around.rparen' (around.opens.depth ▸ inside'.deeper)]
    refine (ih (around.closes.some_any_isKeyword _) (by simp) (by simp)).prepend fun _ _ h => ?_
    rw [List.append_assoc, List.append_assoc]
    exact .hidden hs around inside inside' h
  | plain _ ih => exact (ih hbefore hjoin hpair).mixed

/-- **Clauses of alike token lists match**, span by span. -/
theorem divide_of_alike (h : Alike R H H' s ts ts') :
    List.Forall₂ (Matches R H H') (divide ts) (divide ts') := by
  rcases h.nil_or_cons with ⟨rfl, rfl⟩ | ⟨t, us, t', us', rfl, rfl, htwin, hrest⟩
  · exact .nil
  · rw [divide, divide, ← htwin.isKeyword, ← htwin.upper]
    split
    · rename_i hkeyword
      refine (divideFrom_of_alike (hrest (kind_ne_lparen_of_isKeyword hkeyword))
        (htwin.some_any_isKeyword _) (by simp) (by simp)).forall₂ fun hjoin => ?_
      simp [isKeyword, hjoin, Keyword.statement] at hkeyword
    · exact (divideFrom_of_alike h rfl (by simp) (by simp)).forall₂ fun h => absurd h (by decide)

/-- Of every keyword there are as many spans, with alike tokens, and joins start with `JOIN`. -/
theorem tokensOf_of_matches {spans spans' : List Span}
    (h : List.Forall₂ (Matches R H H') spans spans') (keyword : String) :
    List.Forall₂ (fun ts ts' => Alike R H H' .mixed ts ts' ∧
      (keyword = "JOIN" → startsJoin ts = true)) (tokensOf spans keyword)
      (tokensOf spans' keyword) := by
  induction h with
  | nil => exact .nil
  | @cons span span' spans spans' hspan _ ih =>
    simp only [tokensOf, List.filter_cons, ← hspan.keyword] at ih ⊢
    split
    · rename_i hkeyword
      have hkeyword : span.keyword = keyword := by simpa using hkeyword
      exact .cons ⟨hspan.tokens, fun h => hspan.startsJoin (hkeyword.trans h)⟩ ih
    · exact ih

theorem firstOf_of_matches {spans spans' : List Span}
    (h : List.Forall₂ (Matches R H H') spans spans') (keyword : String) :
    Alike R H H' .mixed (firstOf spans keyword) (firstOf spans' keyword) := by
  have htokens := tokensOf_of_matches h keyword
  rw [firstOf, firstOf]
  revert htokens
  generalize tokensOf spans keyword = lists, tokensOf spans' keyword = lists'
  rintro (_ | ⟨⟨halike, -⟩, -⟩)
  · exact .nil
  · exact halike

end Span

end IndexAdvice
