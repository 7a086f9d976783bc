import Mathlib.Data.List.Infix
import IndexAdvice.Proofs.Records
import IndexAdvice.Proofs.RelatedLists

/-!
# Predicates in the order of the text

Every predicate of a branch is read in tokens of its own, which stand in the text of the query in
the order of the predicates and do not overlap (`Query.exists_parts`). Cutting at separators and
opening groups up keep parts in order, and so does the division into clauses.
-/

namespace IndexAdvice

/-! ### Parts in order -/

/-- Lists that stand in another one after the other, with gaps before them and after the last. -/
inductive InOrder {α : Type} : List (List α) → List α → Prop where
  | nil (xs : List α) : InOrder [] xs
  | cons (gap part : List α) {parts : List (List α)} {rest : List α} (h : InOrder parts rest) :
    InOrder (part :: parts) (gap ++ (part ++ rest))

namespace InOrder

variable {α β : Type} {parts more : List (List α)} {xs ys : List α}

theorem single (xs : List α) : InOrder [xs] xs := by
  have := cons [] xs (nil [])
  rwa [List.append_nil] at this

/-- Parts in order are in order after something else. -/
theorem prepend (front : List α) (h : InOrder parts xs) : InOrder parts (front ++ xs) := by
  cases h with
  | nil => exact nil _
  | cons gap part h =>
    rw [← List.append_assoc]
    exact cons (front ++ gap) part h

/-- Parts of one list may be followed by parts of the next. -/
theorem append (h : InOrder parts xs) (h' : InOrder more ys) :
    InOrder (parts ++ more) (xs ++ ys) := by
  induction h with
  | nil xs => exact h'.prepend xs
  | cons gap part _ ih =>
    rw [List.append_assoc, List.append_assoc]
    exact cons gap part ih

/-- Parts in order of an inner part are in order. -/
theorem of_infix (hpart : ys <:+: xs) (h : InOrder parts ys) : InOrder parts xs := by
  obtain ⟨front, back, rfl⟩ := hpart
  have := (h.prepend front).append (nil back)
  rwa [List.append_nil] at this

theorem sublist (h : InOrder parts xs) (hsub : List.Sublist more parts) : InOrder more xs := by
  induction h generalizing more with
  | nil xs =>
    rw [List.sublist_nil.mp hsub]
    exact nil xs
  | cons gap part h ih =>
    cases hsub with
    | cons _ hsub =>
      rw [← List.append_assoc]
      exact (ih hsub).prepend (gap ++ part)
    | cons_cons _ hsub => exact cons gap part (ih hsub)

/-- Each part in order is found in the list. -/
theorem infix_of_mem {part : List α} (h : InOrder parts xs) (hpart : part ∈ parts) :
    part <:+: xs := by
  induction h with
  | nil => exact absurd hpart List.not_mem_nil
  | cons gap part' h ih =>
    rcases List.mem_cons.mp hpart with rfl | hpart
    · exact ⟨gap, _, List.append_assoc _ _ _⟩
    · rw [← List.append_assoc]
      exact (ih hpart).trans (List.suffix_append _ _).isInfix

/-- What is read in each part, in parts of its own, is read in the whole. -/
theorem exists_flatMap {R : List α → β → Prop} {f : List α → List β} (h : InOrder parts xs)
    (hread : ∀ part ∈ parts, ∃ inner, InOrder inner part ∧ List.Forall₂ R inner (f part)) :
    ∃ inner, InOrder inner xs ∧ List.Forall₂ R inner (parts.flatMap f) := by
  induction h with
  | nil xs => exact ⟨[], nil xs, .nil⟩
  | cons gap part h ih =>
    obtain ⟨hpart, hparts⟩ := List.forall_mem_cons.mp hread
    obtain ⟨inner, hinner, hf⟩ := hpart
    obtain ⟨rest, hrest, hfs⟩ := ih hparts
    exact ⟨inner ++ rest, (hinner.append hrest).prepend gap, List.rel_append hf hfs⟩

end InOrder

/-! ### Cutting and opening up -/

namespace Token

theorem inOrder_flush (part : List Token) : InOrder (flush part) part.reverse := by
  rw [flush]
  split
  · exact .nil _
  · exact .single _

/-- The parts between separators are in order. -/
theorem inOrder_cutFrom (base : Nat) (sep : Token → Bool) (b w : Bool) (part ts : List Token) :
    InOrder (cutFrom base sep b w part ts) (part.reverse ++ ts) := by
  induction ts generalizing w part with
  | nil =>
    rw [cutFrom, List.append_nil]
    exact inOrder_flush part
  | cons t ts ih =>
    have hkeep (w' : Bool) :
        InOrder (cutFrom base sep b w' (t :: part) ts) (part.reverse ++ t :: ts) := by
      have := ih w' (t :: part)
      rwa [List.reverse_cons, List.append_assoc, List.singleton_append] at this
    rw [cutFrom]
    split
    · exact hkeep true
    · split
      · split
        · exact hkeep false
        · exact (inOrder_flush part).append ((ih w []).prepend [t])
      · exact hkeep w

theorem inOrder_alternatives (ts : List Token) : InOrder (alternatives ts) ts :=
  inOrder_cutFrom _ _ _ _ [] ts

theorem inOrder_conjuncts (ts : List Token) : InOrder (conjuncts ts) ts :=
  inOrder_cutFrom _ _ _ _ [] ts

end Token

open Token

namespace Predicate

variable {scope : Scope}

/-- Whether a predicate is read in some tokens. -/
def ReadIn (scope : Scope) (tokens : List Token) (p : Predicate) : Prop :=
  p = classify scope tokens ∨ p = opaqueOf scope tokens

/-- The predicates of a conjunction are read in parts of it, in order. -/
theorem exists_parts_ofConjunction (scope : Scope) (tokens : List Token) :
    ∃ parts, InOrder parts tokens ∧
      List.Forall₂ (ReadIn scope) parts (ofConjunction scope tokens) := by
  induction tokens using conjunctionInduction with
  | step tokens ih =>
    rw [ofConjunction_eq]
    refine (inOrder_conjuncts tokens).exists_flatMap fun part hpart => ?_
    have hsingle {p : Predicate} (hp : ReadIn scope part p) :
        ∃ inner, InOrder inner part ∧ List.Forall₂ (ReadIn scope) inner [p] :=
      ⟨[part], .single part, .cons hp .nil⟩
    split
    · split
      · obtain ⟨inner, hinner, hread⟩ := ih part hpart
        have hinside : part.tail.dropLast <:+: part :=
          (List.dropLast_prefix _).isInfix.trans (List.tail_suffix part).isInfix
        exact ⟨inner, hinner.of_infix hinside, hread⟩
      · exact hsingle (.inr rfl)
    · exact hsingle (.inl rfl)

/-- The predicates of a branch are read from parts of the condition, in the order of the text. -/
theorem exists_parts_branches {splitOr : Bool} {tokens : List Token} {branch : List Predicate}
    (h : branch ∈ (branches scope splitOr tokens).1) :
    ∃ parts, InOrder parts tokens ∧ List.Forall₂ (ReadIn scope) parts branch := by
  simp only [branches] at h
  split at h
  · obtain rfl := List.mem_singleton.mp h
    exact ⟨[tokens], .single tokens, .cons (.inr rfl) .nil⟩
  · obtain ⟨operand, hoperand, rfl⟩ := List.mem_map.mp (List.mem_filter.mp h).1
    obtain ⟨parts, hparts, hread⟩ := exists_parts_ofConjunction scope operand
    exact ⟨parts, hparts.of_infix ((inOrder_alternatives tokens).infix_of_mem hoperand), hread⟩

end Predicate

/-! ### Clauses and queries -/

namespace Span

/-- Spans hold tokens that stand together. -/
theorem infix_of_mem_divideFrom {keyword : String} {phase : Phase} {before : Option Token}
    {held ts : List Token} {span : Span} (h : span ∈ divideFrom keyword phase before held ts)
    (hphase : phase = .pairTail → held = []) : span.tokens <:+: held.reverse ++ ts := by
  induction ts generalizing keyword phase before held with
  | nil =>
    rw [divideFrom, List.mem_singleton] at h
    rw [h, List.append_nil]
  | cons t ts ih =>
    have hfirst : held.reverse <:+: held.reverse ++ t :: ts := (List.prefix_append _ _).isInfix
    -- a token joins those held, or starts over with none held
    have hgrow {keyword : String} {phase : Phase} (hne : phase ≠ .pairTail)
        (h : span ∈ divideFrom keyword phase (some t) (t :: held) ts) :
        span.tokens <:+: held.reverse ++ t :: ts := by
      have := ih h fun hp => absurd hp hne
      rwa [List.reverse_cons, List.append_assoc, List.singleton_append] at this
    have hrest {keyword : String} {phase : Phase}
        (h : span ∈ divideFrom keyword phase (some t) [] ts) :
        span.tokens <:+: held.reverse ++ t :: ts := by
      have := ih h fun _ => rfl
      exact this.trans ((List.suffix_cons t ts).trans (List.suffix_append _ _)).isInfix
    cases phase with
    | pairTail =>
      obtain rfl := hphase rfl
      exact hrest h
    | joinHead => exact hgrow (afterJoinHead_ne_pairTail t) h
    | body =>
      rw [divideFrom] at h
      split at h
      · exact hgrow (by decide) h
      · exact List.mem_singleton.mp h ▸ hfirst
      · rcases List.mem_cons.mp h with rfl | h
        · exact hfirst
        · exact hrest h
      · rcases List.mem_cons.mp h with rfl | h
        · exact hfirst
        · have := ih h fun hp => absurd hp (afterJoinHead_ne_pairTail t)
          exact this.trans (List.suffix_append _ _).isInfix
      · rcases List.mem_cons.mp h with rfl | h
        · exact hfirst
        · exact hrest h

/-- The tokens of a clause stand together. -/
theorem infix_of_mem_divide {ts : List Token} {span : Span} (h : span ∈ divide ts) :
    span.tokens <:+: ts := by
  cases ts with
  | nil => exact absurd h List.not_mem_nil
  | cons t ts =>
    rw [divide] at h
    split at h
    · have := infix_of_mem_divideFrom h fun hp => Phase.noConfusion hp
      exact this.trans (List.suffix_cons t ts).isInfix
    · exact infix_of_mem_divideFrom h fun hp => Phase.noConfusion hp

theorem firstOf_infix (ts : List Token) (keyword : String) :
    firstOf (divide ts) keyword <:+: ts := by
  rw [firstOf, tokensOf]
  cases hspans : (divide ts).filter (·.keyword == keyword) with
  | nil => exact List.nil_infix
  | cons span spans =>
    have hmem : span ∈ (divide ts).filter (·.keyword == keyword) := hspans ▸ List.mem_cons_self
    exact infix_of_mem_divide (List.mem_filter.mp hmem).1

end Span

/-- **Predicates in order.** The predicates of a branch are read in tokens of the query that stand
in its text in the order of the predicates. -/
theorem Query.exists_parts {catalog : Catalog} {splitOr : Bool} {q : Query}
    {branch : List Predicate} (h : branch ∈ (q.parse catalog splitOr).clauses.branches) :
    ∃ scope : Scope, scope.sql = q.sql.toList ∧ scope.fields = q.fields ∧
      ∃ parts, InOrder parts (tokenize q.sql) ∧
        List.Forall₂ (Predicate.ReadIn scope) parts branch := by
  rw [Query.clauses_parse, Clauses.ofTokens] at h
  obtain ⟨parts, hparts, hread⟩ := Predicate.exists_parts_branches h
  have hstatement : statementTokens q.sql <:+: tokenize q.sql := by
    have := List.dropWhile_suffix (l := (tokenize q.sql).reverse) (·.kind == .semicolon)
    rw [← List.reverse_prefix, List.reverse_reverse] at this
    exact this.isInfix
  refine ⟨_, ?_, ?_, parts, hparts.of_infix ((Span.firstOf_infix _ _).trans hstatement), hread⟩
  · rfl
  · rfl

end IndexAdvice
