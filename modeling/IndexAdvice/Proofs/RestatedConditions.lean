import IndexAdvice.Proofs.AlikeConditions
import IndexAdvice.Proofs.RestatedTokens

/-!
# Restated conditions

A condition that is restated has the same branches of the same predicates, as many characters
further on (`Predicate.restated_branches`). What becomes of its texts depends on the two queries: a
relation `S` says it of any stretch of them, once for all (`Scope.Restates`).
-/

namespace IndexAdvice

open Token

variable {a : Nat} {S : String → String → Prop} {t t' op op' : Token}
  {ts ts' rhs rhs' : List Token} {scope scope' : Scope} {ref ref' : ColumnRef}

/-- Scopes of two texts in which names mean the same in any letter case, and in which `S` relates
the texts of restated tokens. -/
structure Scope.Restates (a : Nat) (S : String → String → Prop) (scope scope' : Scope) : Prop where
  fields : scope.fields = scope'.fields
  ownNames : ∀ name, scope.ownNames.contains name = scope'.ownNames.contains name
  text : ∀ ts ts', List.Forall₂ (Token.Restated a) ts ts' → S (scope.text ts) (scope'.text ts')

namespace Scope.Restates

/-- No text restates no text. -/
theorem empty (h : Scope.Restates a S scope scope') : S "" "" :=
  h.text [] [] .nil

/-- A qualifier means the query's own table in whichever letter case it is written. -/
theorem isOwn (h : Scope.Restates a S scope scope') {q q' : Option String}
    (hq : Option.Rel Text.Recased q q') :
    (q.any fun q => scope.ownNames.contains (Text.lower q)) =
      q'.any fun q => scope'.ownNames.contains (Text.lower q) := by
  cases hq with
  | none => rfl
  | some hq => rw [Option.any_some, Option.any_some, Text.lower_of_recased hq, h.ownNames]

/-- **Resolving.** References that differ in letter case mean the same column. -/
theorem resolve (h : Scope.Restates a S scope scope') (href : ColumnRef.Recased ref ref') :
    scope.resolve ref = scope'.resolve ref' := by
  have hfield : scope.field? ref.name = scope'.field? ref'.name := by
    rw [Scope.field?, Scope.field?, h.fields, Text.lower_of_recased href.name]
  have hown := h.isOwn href.qualifier
  have hqualifier := href.qualifier
  rw [Scope.resolve, Scope.resolve, ← hfield]
  revert hown hqualifier
  generalize ref.qualifier = q, ref'.qualifier = q'
  rintro hown (_ | _)
  · simp only [Option.any_some] at hown
    simp only [hown]
  · rfl

end Scope.Restates

/-- Predicates of two texts that restrict a column in the same way, one `a` characters further on
than the other. -/
structure Predicate.Restated (a : Nat) (S : String → String → Prop) (p p' : Predicate) :
    Prop where
  column : p.column = p'.column
  kind : p.kind = p'.kind
  isLiteral : p.isLiteral = p'.isLiteral
  operator : p.operator = p'.operator
  value : S p.value p'.value
  text : S p.text p'.text
  position : p'.position = p.position + a

namespace Predicate

/-! ### Classification -/

theorem comparison?_of_restated (hop : Token.Restated a op op')
    (h : List.Forall₂ (Token.Restated a) rhs rhs') : comparison? op rhs = comparison? op' rhs' := by
  have hrange : (op.kind == .operator && ["<", ">", "<=", ">="].contains op.text) = true →
      op.text = op'.text := by
    intro hranges
    simp only [Bool.and_eq_true, List.contains_iff_mem] at hranges
    have hmarks : (["<", ">", "<=", ">="].all fun mark => Text.letterless mark.toList) = true := by
      decide
    exact ((hop.text.eq_iff (List.all_eq_true.mp hmarks _ hranges.2)).mp rfl).symm
  simp only [comparison?, map_eq_of_forall₂ h fun _ _ h => h.upper, ← hop.kind, ← hop.isKeyword,
    ← hop.upper, ← hop.contains_text ["=", "=="] (by decide),
    ← hop.contains_text ["<", ">", "<=", ">="] (by decide)]
  split
  · rfl
  · split
    · rfl
    · refine ite_congr rfl (fun hranges => ?_) fun _ => rfl
      rw [hrange hranges]

theorem isConstant_of_restated (h : List.Forall₂ (Token.Restated a) ts ts') :
    isConstant ts = isConstant ts' := by
  match ts, ts', h with
  | [], [], _ => rfl
  | [t], [t'], .cons ht .nil => simp only [isConstant, ht.kind, ht.isKeyword]
  | [s, t], [s', t'], .cons hs (.cons ht .nil) =>
    simp only [isConstant, ht.kind, hs.text_beq "+" (by decide),
      hs.text_beq "-" (by decide)]
  | _ :: _ :: _ :: _, _ :: _ :: _ :: _, _ => rfl

theorem comparesConstants_of_restated (operator : String)
    (h : List.Forall₂ (Token.Restated a) rhs rhs') :
    comparesConstants operator rhs = comparesConstants operator rhs' := by
  have hitems := forall₂_items (forall₂_dropLast (forall₂_tail h))
  have hconjuncts := forall₂_conjuncts h
  simp only [comparesConstants, isWrapped_of_restated h, isEmpty_of_forall₂ hitems,
    all_of_forall₂ hitems fun _ _ h => isConstant_of_restated h, hconjuncts.length_eq,
    all_of_forall₂ hconjuncts fun _ _ h => isConstant_of_restated h, isConstant_of_restated h]

/-- Conditions that are no comparison are restated with their place and text. -/
theorem restated_opaqueOf (hscope : Scope.Restates a S scope scope')
    (h : List.Forall₂ (Token.Restated a) ts ts') (hne : ts ≠ []) :
    Predicate.Restated a S (opaqueOf scope ts) (opaqueOf scope' ts') := by
  refine ⟨rfl, rfl, rfl, rfl, hscope.empty, hscope.text ts ts' h, ?_⟩
  cases h with
  | nil => exact absurd rfl hne
  | cons ht _ => simp [opaqueOf, ht.start]

/-- **Classification.** Restated tokens are classified alike. -/
theorem restated_classify (hscope : Scope.Restates a S scope scope')
    (h : List.Forall₂ (Token.Restated a) ts ts') (hne : ts ≠ []) :
    Predicate.Restated a S (classify scope ts) (classify scope' ts') := by
  have hopaque := restated_opaqueOf hscope h hne
  simp only [classify]
  rcases ColumnRef.read?_of_restated h with ⟨hread, hread'⟩ |
    ⟨ref, after, ref', after', hread, hread', href, hafter⟩
  · rw [hread, hread']
    exact hopaque
  · rw [hread, hread']
    cases hafter with
    | nil => exact hopaque
    | @cons op op' rhs rhs' hop hrhs =>
      have hvalue := hscope.text rhs rhs' hrhs
      simp only [← comparison?_of_restated hop hrhs, ← hscope.resolve href,
        ← comparesConstants_of_restated _ hrhs, ← isEmpty_of_forall₂ hrhs]
      rcases comparison? op rhs with _ | ⟨kind, operator⟩
      · exact hopaque
      · rcases scope.resolve ref with _ | column
        · cases kind <;> exact hopaque
        · cases kind <;> cases rhs.isEmpty <;>
            first
            | exact hopaque
            | exact ⟨rfl, rfl, rfl, rfl, hopaque.value, hopaque.text, hopaque.position⟩
            | exact ⟨rfl, rfl, rfl, rfl, hvalue, hopaque.text, hopaque.position⟩

/-! ### Conjunctions and branches -/

theorem isTransparent_of_restated (h : List.Forall₂ (Token.Restated a) ts ts') :
    isTransparent ts = isTransparent ts' := by
  rw [isTransparent, isTransparent, (forall₂_alternatives h).length_eq,
    head?_any_of_forall₂ h fun t t' h => by rw [h.isKeyword]]

/-- **Conjunctions.** Restated tokens make the same predicates, group by group. -/
theorem restated_ofConjunction (hscope : Scope.Restates a S scope scope')
    (h : List.Forall₂ (Token.Restated a) ts ts') :
    List.Forall₂ (Predicate.Restated a S) (ofConjunction scope ts)
      (ofConjunction scope' ts') := by
  induction ts using conjunctionInduction generalizing ts' with
  | step ts ih =>
    rw [ofConjunction_eq, ofConjunction_eq]
    refine forall₂_flatMap (forall₂_conjuncts h) fun part hpart part' hrestated => ?_
    have hne : part ≠ [] := ne_nil_of_mem_conjuncts hpart
    have hinside := forall₂_dropLast (forall₂_tail hrestated)
    rw [← isWrapped_of_restated hrestated, ← isTransparent_of_restated hinside]
    split
    · split
      · exact ih part hpart hinside
      · exact .cons (restated_opaqueOf hscope hrestated hne) .nil
    · exact .cons (restated_classify hscope hrestated hne) .nil

/-- **Branches.** Restated conditions have the same branches. -/
theorem restated_branches (hscope : Scope.Restates a S scope scope') (splitOr : Bool)
    (h : List.Forall₂ (Token.Restated a) ts ts') :
    List.Forall₂ (List.Forall₂ (Predicate.Restated a S)) (branches scope splitOr ts).1
        (branches scope' splitOr ts').1 ∧
      (branches scope splitOr ts).2 = (branches scope' splitOr ts').2 := by
  have hparts := forall₂_alternatives h
  simp only [branches, ← hparts.length_eq]
  by_cases hor : 1 < (alternatives ts).length ∧ splitOr = false
  · simp only [hor.1, hor.2, decide_true, Bool.not_false, Bool.and_self, if_true]
    exact ⟨.cons (.cons (restated_opaqueOf hscope h (ne_nil_of_one_lt hor.1)) .nil) .nil, trivial⟩
  · have hif : ¬ (decide (1 < (alternatives ts).length) && !splitOr) = true := by
      simpa using hor
    rw [if_neg hif, if_neg hif]
    refine ⟨List.rel_filter (fun ps ps' hps => ?_) (List.rel_map (fun _ _ hrestated =>
      restated_ofConjunction hscope hrestated) hparts), rfl⟩
    cases hps <;> rfl

end Predicate

end IndexAdvice
