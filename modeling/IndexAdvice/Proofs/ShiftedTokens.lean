import IndexAdvice.Clause.Condition
import IndexAdvice.Proofs.Locating

/-!
# Conditions at another place

The same words make the same tokens wherever they stand, up to a shift of their positions and
depths (`Token.locate_shift`). Nothing in the reading of a condition sees such a shift: lists are
cut at the same separators, references and operators are read in the same words, and a predicate is
classified in the same way (`Predicate.gist_classify_shift`), as long as its text stands where its
tokens say.
-/

namespace IndexAdvice

open Text

namespace Token

variable {a k : Nat} {t : Token} {ts : List Token}

/-! ### Cutting lists -/

@[simp]
theorem kind_shift (a k : Nat) (t : Token) : (t.shift a k).kind = t.kind := rfl

@[simp]
theorem text_shift (a k : Nat) (t : Token) : (t.shift a k).text = t.text := rfl

@[simp]
theorem depth_shift (a k : Nat) (t : Token) : (t.shift a k).depth = t.depth + k := rfl

@[simp]
theorem isKeyword_shift (a k : Nat) (t : Token) (keywords : List String) :
    (t.shift a k).isKeyword keywords = t.isKeyword keywords := rfl

@[simp]
theorem isIdentifier_shift (a k : Nat) (t : Token) :
    (t.shift a k).isIdentifier = t.isIdentifier := rfl

@[simp]
theorem name_shift (a k : Nat) (t : Token) : (t.shift a k).name = t.name := rfl

@[simp]
theorem upper_shift (a k : Nat) (t : Token) : (t.shift a k).upper = t.upper := rfl

theorem beq_depth_shift (a k : Nat) (t : Token) (depth : Nat) :
    ((t.shift a k).depth == depth + k) = (t.depth == depth) := by
  rw [Bool.eq_iff_iff, beq_iff_eq, beq_iff_eq, depth_shift, Nat.add_right_cancel_iff]

theorem closing?_shift (a k depth : Nat) (ts : List Token) :
    closing? (depth + k) (ts.map (shift a k)) = closing? depth ts := by
  rw [closing?, closing?, List.findIdx?_map]
  congr 1
  funext t
  rw [Function.comp_apply, kind_shift, beq_depth_shift]

/-- One group is one group wherever it stands. -/
theorem isWrapped_shift (a k : Nat) (ts : List Token) :
    isWrapped (ts.map (shift a k)) = isWrapped ts := by
  cases ts with
  | nil => rfl
  | cons t ts =>
    cases ts with
    | nil => rfl
    | cons u us =>
      have hlast : ((u :: us).map (shift a k)).getLast?.any (·.kind == .rparen) =
          (u :: us).getLast?.any (·.kind == .rparen) := by
        rw [List.getLast?_map, Option.any_map]
        rfl
      have hmatch : matchingParen ((t :: u :: us).map (shift a k)) 0 =
          matchingParen (t :: u :: us) 0 := by
        have := closing?_shift a k t.depth (u :: us)
        simp only [matchingParen, List.map_cons, List.getElem?_cons_zero, depth_shift,
          List.drop_succ_cons, List.drop_zero, List.length_cons, List.length_map] at this ⊢
        rw [this]
      simp only [isWrapped, List.map_cons] at hlast hmatch ⊢
      rw [hlast, hmatch]
      simp

/-- The least depth is one that a token has. -/
theorem baseDepth_eq_iff {d : Nat} (h : ts ≠ []) :
    baseDepth ts = d ↔ (∃ t ∈ ts, t.depth = d) ∧ ∀ t ∈ ts, d ≤ t.depth := by
  obtain ⟨m, hm⟩ : ∃ m, (ts.map (·.depth)).min? = some m := by
    rw [← Option.isSome_iff_exists, List.isSome_min?_iff]
    simpa using h
  have hspec := List.min?_eq_some_iff.mp hm
  simp only [List.mem_map, forall_exists_index, and_imp, forall_apply_eq_imp_iff₂] at hspec
  rw [baseDepth, hm, Option.getD_some]
  constructor
  · rintro rfl
    exact hspec
  · rintro ⟨⟨t, ht, rfl⟩, hle⟩
    obtain ⟨u, hu, hm⟩ := hspec.1
    exact Nat.le_antisymm (hspec.2 t ht) (hm ▸ hle u hu)

theorem baseDepth_shift (a k : Nat) (h : ts ≠ []) :
    baseDepth (ts.map (shift a k)) = baseDepth ts + k := by
  obtain ⟨⟨t, ht, hdepth⟩, hle⟩ := (baseDepth_eq_iff h).mp rfl
  refine (baseDepth_eq_iff (by simpa using h)).mpr ⟨⟨t.shift a k, List.mem_map_of_mem ht, ?_⟩, ?_⟩
  · rw [depth_shift, hdepth]
  · intro u hu
    obtain ⟨v, hv, rfl⟩ := List.mem_map.mp hu
    exact Nat.add_le_add_right (hle v hv) k

theorem flush_shift (a k : Nat) (part : List Token) :
    flush (part.map (shift a k)) = (flush part).map (List.map (shift a k)) := by
  cases part <;> simp [flush]

/-- **A list is cut alike wherever it stands**, if the separators are told by kind and text. -/
theorem cutFrom_shift {sep : Token → Bool} (hsep : ∀ t, sep (t.shift a k) = sep t) (base : Nat)
    (b w : Bool) (part ts : List Token) :
    cutFrom (base + k) sep b w (part.map (shift a k)) (ts.map (shift a k)) =
      (cutFrom base sep b w part ts).map (List.map (shift a k)) := by
  induction ts generalizing w part with
  | nil => exact flush_shift a k part
  | cons t ts ih =>
    rw [List.map_cons, cutFrom, cutFrom, beq_depth_shift, hsep, isKeyword_shift]
    have hcons (w : Bool) := ih w (t :: part)
    have hnil := ih w []
    simp only [List.map_cons, List.map_nil] at hcons hnil
    split
    · exact hcons true
    · split
      · split
        · exact hcons false
        · rw [hnil, flush_shift, List.map_append]
      · exact hcons w

theorem conjuncts_shift (a k : Nat) (ts : List Token) :
    conjuncts (ts.map (shift a k)) = (conjuncts ts).map (List.map (shift a k)) := by
  by_cases h : ts = []
  · subst h
    rfl
  · rw [conjuncts, conjuncts, baseDepth_shift a k h]
    exact cutFrom_shift (fun t => isKeyword_shift a k t _) _ _ _ [] ts

theorem items_shift (a k : Nat) (ts : List Token) :
    items (ts.map (shift a k)) = (items ts).map (List.map (shift a k)) := by
  by_cases h : ts = []
  · subst h
    rfl
  · rw [items, items, baseDepth_shift a k h]
    exact cutFrom_shift (fun _ => rfl) _ _ _ [] ts

end Token

open Token

/-! ### References -/

theorem ColumnRef.dottedNames_shift (a k : Nat) (ts : List Token) :
    dottedNames (ts.map (shift a k)) =
      ((dottedNames ts).1, (dottedNames ts).2.map (shift a k)) := by
  fun_induction dottedNames ts with
  | case1 d t rest h more ih =>
    simp only [List.map_cons, dottedNames, kind_shift, isIdentifier_shift, h, if_true, ih,
      name_shift]
    rfl
  | case2 d t rest h =>
    simp only [List.map_cons, dottedNames, kind_shift, isIdentifier_shift, h]
    rfl
  | case3 rest h =>
    match rest with
    | [] => rfl
    | [_] => rfl
    | d :: t :: rest => exact absurd rfl (h d t rest)

/-- The tokens after a reference are the end of the list. -/
theorem ColumnRef.dottedNames_suffix (ts : List Token) : (dottedNames ts).2 <:+ ts := by
  fun_induction dottedNames ts with
  | case1 d t rest h more ih =>
    exact (ih.trans (List.suffix_cons t rest)).trans (List.suffix_cons d _)
  | case2 => exact List.suffix_rfl
  | case3 => exact List.suffix_rfl

theorem ColumnRef.read?_shift (a k : Nat) (ts : List Token) :
    read? (ts.map (shift a k)) = (read? ts).map fun r => (r.1, r.2.map (shift a k)) := by
  cases ts with
  | nil => rfl
  | cons t ts =>
    simp only [List.map_cons, read?, dottedNames_shift, isIdentifier_shift, isKeyword_shift,
      name_shift]
    split <;> rfl

/-- What follows a reference is part of the tokens. -/
theorem ColumnRef.suffix_of_read? {ts rest : List Token} {ref : ColumnRef}
    (h : read? ts = some (ref, rest)) : rest <:+ ts := by
  cases ts with
  | nil => simp [read?] at h
  | cons t ts =>
    simp only [read?] at h
    split at h
    · simp at h
    · simp only [Option.some.injEq, Prod.mk.injEq] at h
      exact h.2 ▸ (dottedNames_suffix ts).trans (List.suffix_cons t ts)

/-! ### Texts -/

/-- The tokens of some pieces lie within their text. -/
theorem Token.stop_le_of_mem_locate {start depth : Nat} {ps : List Piece} {t : Token}
    (h : t ∈ locate start depth ps) :
    t.start ≤ t.stop ∧ t.stop ≤ start + (ps.flatMap Piece.text).length := by
  induction ps generalizing start depth with
  | nil => simp [locate] at h
  | cons p ps ih =>
    obtain ⟨kind, text⟩ := p
    rw [List.flatMap_cons, List.length_append, ← Nat.add_assoc]
    cases kind with
    | none =>
      rw [locate_none] at h
      exact ih h
    | some kind =>
      rw [locate_some] at h
      rcases List.mem_cons.mp h with rfl | h
      · simp only [ofPiece]
        omega
      · exact ih h

/-- The text of tokens is the same wherever it stands. -/
theorem Scope.text_shift {scope scope' : Scope} {a : Nat} (k : Nat) {ts : List Token}
    (hsql : scope'.sql <+: scope.sql.drop a)
    (hts : ∀ t ∈ ts, t.start ≤ t.stop ∧ t.stop ≤ scope'.sql.length) :
    scope.text (ts.map (shift a k)) = scope'.text ts := by
  obtain ⟨more, hmore⟩ := hsql
  rw [text, text, List.head?_map, List.getLast?_map]
  cases hfirst : ts.head? with
  | none => rfl
  | some first =>
    cases hlast : ts.getLast? with
    | none => rfl
    | some last =>
      -- the stretch begins at the same distance from `a` and ends within the shorter text
      have hf := hts first (List.mem_of_mem_head? hfirst)
      have hl := hts last (List.mem_of_getLast? hlast)
      have hdrop : scope.sql.drop (first.start + a) = scope'.sql.drop first.start ++ more := by
        rw [Nat.add_comm, ← List.drop_drop, ← hmore, List.drop_append_of_le_length (by omega)]
      simp only [Option.map_some, shift, slice, hdrop, Nat.add_sub_add_right]
      rw [List.take_append_of_le_length (by simp; omega)]

/-! ### Predicates -/

namespace Predicate

theorem comparison?_shift (a k : Nat) (op : Token) (rhs : List Token) :
    comparison? (op.shift a k) (rhs.map (shift a k)) = comparison? op rhs := by
  have hupper : (rhs.map (shift a k)).map (·.upper) = rhs.map (·.upper) := by
    rw [List.map_map]
    rfl
  simp only [comparison?, kind_shift, text_shift, isKeyword_shift, upper_shift, hupper]

theorem isConstant_shift (a k : Nat) (ts : List Token) :
    isConstant (ts.map (shift a k)) = isConstant ts := by
  match ts with
  | [] => rfl
  | [_] => rfl
  | [_, _] => rfl
  | _ :: _ :: _ :: _ => rfl

theorem comparesConstants_shift (a k : Nat) (operator : String) (rhs : List Token) :
    comparesConstants operator (rhs.map (shift a k)) = comparesConstants operator rhs := by
  have hinside : (rhs.map (shift a k)).tail.dropLast = rhs.tail.dropLast.map (shift a k) := by
    rw [← List.map_tail, List.map_dropLast]
  have hall (parts : List (List Token)) :
      (parts.map (List.map (shift a k))).all isConstant = parts.all isConstant := by
    rw [List.all_map]
    exact congrArg parts.all (funext fun ts => isConstant_shift a k ts)
  simp only [comparesConstants, isWrapped_shift, hinside, items_shift, conjuncts_shift, hall,
    isConstant_shift, List.length_map, List.isEmpty_map]

/-- What a predicate says: everything but its place. -/
def gist (p : Predicate) : Predicate :=
  { p with position := 0 }

/-- What a condition says does not show where it stands. -/
theorem gist_opaqueOf (scope : Scope) (tokens : List Token) :
    (opaqueOf scope tokens).gist = { text := scope.text tokens } := rfl

/-- **Classification** does not see where a condition stands. -/
theorem gist_classify_shift {scope scope' : Scope} {a : Nat} (k : Nat) {ts : List Token}
    (hfields : scope.fields = scope'.fields) (hnames : scope.ownNames = scope'.ownNames)
    (hsql : scope'.sql <+: scope.sql.drop a)
    (hts : ∀ t ∈ ts, t.start ≤ t.stop ∧ t.stop ≤ scope'.sql.length) :
    (classify scope (ts.map (shift a k))).gist = (classify scope' ts).gist := by
  have hresolve (ref : ColumnRef) : scope.resolve ref = scope'.resolve ref := by
    simp only [Scope.resolve, Scope.field?, hfields, hnames]
  have hwhole : scope.text (ts.map (shift a k)) = scope'.text ts := Scope.text_shift k hsql hts
  simp only [classify, ColumnRef.read?_shift]
  cases hread : ColumnRef.read? ts with
  | none => simp only [Option.map_none, gist_opaqueOf, hwhole]
  | some found =>
    obtain ⟨ref, rest⟩ := found
    cases rest with
    | nil => simp only [Option.map_some, List.map_nil, gist_opaqueOf, hwhole]
    | cons op rhs =>
      have hmem := (ColumnRef.suffix_of_read? hread).subset
      have htext : scope.text (rhs.map (shift a k)) = scope'.text rhs :=
        Scope.text_shift k hsql fun t ht => hts t (hmem (List.mem_cons_of_mem op ht))
      simp only [Option.map_some, List.map_cons, comparison?_shift, hresolve,
        comparesConstants_shift, htext, List.isEmpty_map]
      -- Both sides now take the same branch, and differ in the place alone.
      rcases comparison? op rhs with _ | ⟨kind, operator⟩
      · rw [gist_opaqueOf, gist_opaqueOf, hwhole]
      · rcases scope'.resolve ref with _ | column
        · cases kind <;> simp only [gist_opaqueOf, hwhole]
        · cases kind <;> rcases rhs.isEmpty <;> simp [gist, opaqueOf, hwhole]

end Predicate

end IndexAdvice
