import IndexAdvice.Proofs.AlikeParts

/-!
# Alike conditions

Alike conditions have the same branches of the same predicates, up to their texts, at places that
are related (`Predicate.matches_branches`). A group in a condition is opaque if it is a nested query
and read further if not, and neither is a nested query a constant, so it makes no difference which
one it is.
-/

namespace IndexAdvice

open Token

variable {R : Nat → Nat → Prop} {H H' : Token → Prop} {s : Likeness} {t op op' : Token}
  {ts ts' rhs rhs' body : List Token} {scope scope' : Scope} {d : Nat}

/-- Scopes of two texts in which the same names mean the same, and in which the same places lie in
nested queries, among them all tokens that `H` and `H'` hold of. -/
structure Scope.Matches (R : Nat → Nat → Prop) (H H' : Token → Prop) (scope scope' : Scope) :
    Prop where
  fields : scope.fields = scope'.fields
  aliases : scope.aliases = scope'.aliases
  ownNames : scope.ownNames = scope'.ownNames
  inNested : ∀ t t', Twin R t t' → scope.inNested t = scope'.inNested t'
  hidden : ∀ t, H t → scope.inNested t = true
  hidden' : ∀ t, H' t → scope'.inNested t = true

theorem Scope.Matches.resolve (h : Scope.Matches R H H' scope scope') (ref : ColumnRef) :
    scope.resolve ref = scope'.resolve ref := by
  simp only [Scope.resolve, Scope.field?, h.fields, h.ownNames]

/-- Predicates of two texts that restrict a column in the same way, at places that `R` relates. -/
structure Predicate.Matches (R : Nat → Nat → Prop) (p p' : Predicate) : Prop where
  column : p.column = p'.column
  kind : p.kind = p'.kind
  isLiteral : p.isLiteral = p'.isLiteral
  operator : p.operator = p'.operator
  position : ∃ a a' : Nat, R a a' ∧ p.position = a ∧ p'.position = a'

namespace Predicate

/-! ### Constants -/

/-- Two alike right-hand sides are read as the same comparison, so the kinds of token that decide it
are all that counts. -/
theorem comparison?_of_alike (hop : Twin R op op') (h : Alike R H H' s rhs rhs') :
    comparison? op rhs = comparison? op' rhs' := by
  have hupper : ∀ words : List String, words.length ≤ 2 →
      (rhs.map (·.upper) == words) = (rhs'.map (·.upper) == words) := by
    intro words hwords
    rcases h.forall₂_or_three_le with htwins | ⟨hlong, hlong'⟩
    · rw [map_eq_of_forall₂ htwins fun _ _ htwin => htwin.upper]
    · have hne {us : List Token} (hlong : 3 ≤ us.length) : (us.map (·.upper) == words) = false := by
        rw [beq_eq_false_iff_ne]
        rintro rfl
        rw [List.length_map] at hwords
        omega
      rw [hne hlong, hne hlong']
  simp only [comparison?, hop.kind, hop.text, hop.isKeyword, hop.upper, hupper ["NULL"] (by decide),
    hupper ["NOT", "NULL"] (by decide)]

/-- A constant has a sign and a literal at most. -/
theorem isConstant_of_three_le (h : 3 ≤ ts.length) : isConstant ts = false := by
  match ts, h with
  | _ :: _ :: _ :: _, _ => rfl

theorem isConstant_of_alike (h : Alike R H H' s ts ts') : isConstant ts = isConstant ts' := by
  rcases h.forall₂_or_three_le with htwins | ⟨hlong, hlong'⟩
  · match ts, ts', htwins with
    | [], [], _ => rfl
    | [t], [t'], .cons ht .nil => simp only [isConstant, ht.kind, ht.isKeyword]
    | [a, t], [a', t'], .cons ha (.cons ht .nil) => simp only [isConstant, ha.text, ht.kind]
    | _ :: _ :: _ :: _, _ :: _ :: _ :: _, _ => rfl
  · rw [isConstant_of_three_le hlong, isConstant_of_three_le hlong']

/-- What starts with a keyword of nested queries is no constant. -/
theorem isConstant_of_nested (ht : t.isKeyword Keyword.nested = true) (ts : List Token) :
    isConstant (t :: ts) = false := by
  have hkind := kind_of_isKeyword ht
  have hupper : t.upper ∈ Keyword.nested := by
    simpa [isKeyword, hkind] using ht
  rcases ts with _ | ⟨u, _ | ⟨_, _⟩⟩
  · have : t.upper ∉ Keyword.constant := fun h => by
      rw [Keyword.nested, List.mem_pair] at hupper
      rcases hupper with hupper | hupper <;> simp [hupper, Keyword.constant] at h
    simp [isConstant, isKeyword, hkind, this]
  · have hsign (sign : String) (h : Text.upper sign ∉ Keyword.nested) : t.text ≠ sign := by
      rintro rfl
      exact h hupper
    simp [isConstant, hsign "+" (by decide), hsign "-" (by decide)]
  · rfl

/-- The items of a nested query are not all constants. -/
theorem all_isConstant_items (h : Hidden H d body) : (items body).all isConstant = false := by
  cases body with
  | nil => exact absurd h.head (by decide)
  | cons t ts =>
    have ht : t.isKeyword Keyword.nested = true := h.head
    have hcomma : (t.kind == .comma) = false := by rw [kind_of_isKeyword ht]; rfl
    obtain ⟨part, parts, hsegments⟩ : ∃ part parts,
        segments (baseDepth (t :: ts)) (·.kind == .comma) false false (t :: ts) =
          (t :: part) :: parts := exists_segments_cons hcomma ts
    rw [items, cutFrom_eq_filter, hsegments]
    simp [isConstant_of_nested ht]

theorem comparesConstants_of_alike (operator : String) (h : Alike R H H' s rhs rhs') :
    comparesConstants operator rhs = comparesConstants operator rhs' := by
  have hall {s : Likeness} {parts parts' : List (List Token)}
      (h : List.Forall₂ (Alike R H H' s) parts parts') :
      parts.all isConstant = parts'.all isConstant := by
    induction h with
    | nil => rfl
    | cons hpart _ ih => rw [List.all_cons, List.all_cons, isConstant_of_alike hpart, ih]
  simp only [comparesConstants]
  split
  · rw [h.isWrapped_eq]
    by_cases hwrapped : isWrapped rhs' = true
    · rcases h.inside (h.isWrapped_eq ▸ hwrapped) with hinside | ⟨d, hinside, hinside'⟩
      · have hitems := hinside.items
        have hempty : (items rhs.tail.dropLast).isEmpty = (items rhs'.tail.dropLast).isEmpty := by
          rw [Bool.eq_iff_iff, List.isEmpty_iff_length_eq_zero, List.isEmpty_iff_length_eq_zero,
            hitems.length_eq]
        rw [hempty, hall hitems]
      · rw [all_isConstant_items hinside, all_isConstant_items hinside', Bool.and_false,
          Bool.and_false]
    · rw [Bool.not_eq_true] at hwrapped
      rw [hwrapped, Bool.false_and, Bool.false_and, Bool.false_and, Bool.false_and]
  · split
    · rw [h.conjuncts.length_eq, hall h.conjuncts]
    · exact isConstant_of_alike h

/-! ### Classification -/

/-- Conditions that are no comparison keep their place and the references they make. -/
theorem matches_opaqueOf (h : Alike R H H' s ts ts') (hne : ts ≠ []) :
    Predicate.Matches R (opaqueOf scope ts) (opaqueOf scope' ts') := by
  obtain ⟨t, ts, rfl⟩ := List.exists_cons_of_ne_nil hne
  obtain ⟨t', ts', rfl, htwin, -⟩ := h.exists_cons
  exact ⟨rfl, rfl, rfl, rfl, _, _, htwin.start, rfl, rfl⟩

theorem comparison?_lparen (hop : op.kind = .lparen) (rhs : List Token) :
    comparison? op rhs = none := by
  simp [comparison?, isKeyword, hop]

/-- **Classification.** Alike tokens are classified alike. -/
theorem matches_classify (hscope : Scope.Matches R H H' scope scope') (h : Alike R H H' s ts ts')
    (hne : ts ≠ []) : Predicate.Matches R (classify scope ts) (classify scope' ts') := by
  have hopaque : Predicate.Matches R (opaqueOf scope ts) (opaqueOf scope' ts') :=
    matches_opaqueOf h hne
  simp only [classify]
  rcases ColumnRef.read?_of_alike h with ⟨hread, hread'⟩ |
    ⟨ref, after, after', hread, hread', hafter⟩
  · rw [hread, hread']
    exact hopaque
  · rw [hread, hread']
    rcases hafter.nil_or_cons with ⟨rfl, rfl⟩ | ⟨op, rhs, op', rhs', rfl, rfl, hop, hrhs⟩
    · exact hopaque
    · by_cases hlparen : op.kind = .lparen
      · simp only [comparison?_lparen hlparen, comparison?_lparen (hop.kind ▸ hlparen)]
        exact hopaque
      · have hrhs := hrhs hlparen
        obtain ⟨a, a', ha, hposition, hposition'⟩ := hopaque.position
        simp only [← comparison?_of_alike hop hrhs, ← hscope.resolve,
          ← comparesConstants_of_alike _ hrhs, ← hrhs.isEmpty_eq]
        rcases comparison? op rhs with _ | ⟨kind, operator⟩
        · exact hopaque
        · rcases scope.resolve ref with _ | column
          · cases kind <;> exact hopaque
          · cases kind <;> cases rhs.isEmpty <;>
              first | exact hopaque | exact ⟨rfl, rfl, rfl, rfl, a, a', ha, hposition, hposition'⟩

/-! ### Conjunctions and branches -/

theorem isTransparent_of_alike (h : Alike R H H' s ts ts') :
    isTransparent ts = isTransparent ts' := by
  rw [isTransparent, isTransparent, h.alternatives.length_eq,
    h.head?_any fun t t' htwin => by rw [htwin.isKeyword]]

/-- A hidden body starts with a keyword of nested queries, so its parentheses matter. -/
theorem isTransparent_of_hidden (h : Hidden H d body) : isTransparent body = false := by
  cases body with
  | nil => rfl
  | cons t ts =>
    have ht : t.isKeyword Keyword.nested = true := h.head
    simp [isTransparent, ht]

/-- **Conjunctions.** Alike tokens make the same predicates, group by group. -/
theorem matches_ofConjunction (hscope : Scope.Matches R H H' scope scope')
    (h : Alike R H H' s ts ts') :
    List.Forall₂ (Predicate.Matches R) (ofConjunction scope ts) (ofConjunction scope' ts') := by
  induction ts using conjunctionInduction generalizing s ts' with
  | step ts ih =>
    rw [ofConjunction_eq, ofConjunction_eq]
    refine forall₂_flatMap h.conjuncts fun part hpart part' halike => ?_
    have hne : part ≠ [] := ne_nil_of_mem_conjuncts hpart
    rw [← halike.isWrapped_eq]
    by_cases hwrapped : isWrapped part = true
    · rw [if_pos hwrapped, if_pos hwrapped]
      rcases halike.inside hwrapped with hinside | ⟨d, hinside, hinside'⟩
      · rw [← isTransparent_of_alike hinside]
        split
        · exact ih part hpart hinside
        · exact .cons (matches_opaqueOf halike hne) .nil
      · rw [isTransparent_of_hidden hinside, isTransparent_of_hidden hinside']
        exact .cons (matches_opaqueOf halike hne) .nil
    · rw [if_neg hwrapped, if_neg hwrapped]
      exact .cons (matches_classify hscope halike hne) .nil

theorem ne_nil_of_one_lt (h : 1 < (alternatives ts).length) : ts ≠ [] := by
  rintro rfl
  simp [alternatives, cutFrom, flush] at h

/-- **Branches.** Alike conditions have the same branches. -/
theorem matches_branches (hscope : Scope.Matches R H H' scope scope') (splitOr : Bool)
    (h : Alike R H H' s ts ts') :
    List.Forall₂ (List.Forall₂ (Predicate.Matches R)) (branches scope splitOr ts).1
        (branches scope' splitOr ts').1 ∧
      (branches scope splitOr ts).2 = (branches scope' splitOr ts').2 := by
  have hparts := h.alternatives
  simp only [branches, ← hparts.length_eq]
  by_cases hor : 1 < (alternatives ts).length ∧ splitOr = false
  · simp only [hor.1, hor.2, decide_true, Bool.not_false, Bool.and_self, if_true]
    exact ⟨.cons (.cons (matches_opaqueOf h (ne_nil_of_one_lt hor.1)) .nil) .nil, trivial⟩
  · have hif : ¬ (decide (1 < (alternatives ts).length) && !splitOr) = true := by
      simpa using hor
    rw [if_neg hif, if_neg hif]
    refine ⟨List.rel_filter (fun ps ps' hps => ?_) (List.rel_map (fun _ _ halike =>
      matches_ofConjunction hscope halike) hparts), rfl⟩
    cases hps <;> rfl

/-- The HAVING conditions of two alike token lists match one by one. -/
theorem matches_having (hscope : Scope.Matches R H H' scope scope') (h : Alike R H H' s ts ts') :
    List.Forall₂ (Predicate.Matches R) (having scope ts) (having scope' ts') := by
  rw [having, having, ← h.alternatives.length_eq]
  split
  · exact .cons (matches_opaqueOf h (ne_nil_of_one_lt ‹_›)) .nil
  · exact matches_ofConjunction hscope h

end Predicate

end IndexAdvice
