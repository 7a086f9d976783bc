import IndexAdvice.Proofs.ConditionCuts
import IndexAdvice.Proofs.RelatedLists
import IndexAdvice.Proofs.WhereText

/-!
# The Boolean structure of conditions

What is read in a condition follows its Boolean structure: there is one branch for each operand of
the outermost `OR`s, and in each branch one predicate for each leaf of the operand, from left to
right. A leaf is an atom, or a group with an `OR` of its own; groups without one are transparent.
Nothing depends on the place or the parentheses that an atom has in the condition.

The main result is `where_follows_structure`.
-/

namespace IndexAdvice

open Token Predicate

/-! ### Operands and leaves -/

/-- What a single predicate is read from. -/
inductive Leaf where
  | atom (a : Atom)
  | group (e : Disjunction)

/-- The operands of the outermost `OR`s. -/
def Disjunction.operands : Disjunction → List Conjunction
  | .single c => [c]
  | .or c rest => c :: rest.operands

mutual

/-- The leaves of a conjunction, from left to right. -/
def Conjunction.leaves : Conjunction → List Leaf
  | .single f => f.leaves
  | .and f rest => f.leaves ++ rest.leaves

/-- The leaves of a factor: parentheses around a conjunction do not matter, and those around several
alternatives make one leaf. -/
def Factor.leaves : Factor → List Leaf
  | .atom a => [.atom a]
  | .group (.single c) => c.leaves
  | .group (.or c rest) => [.group (.or c rest)]

end

/-- Whether a predicate is what a leaf is read as: for an atom, what it is read as when it is the
whole condition, and for a group, nothing but its text. -/
def Leaf.ReadAs (catalog : Catalog) (query : Query) (pad : Nat) : Leaf → Predicate → Prop
  | .atom a, p => ∃ alone : Predicate,
      ((query.withCondition a.text).parse catalog true).clauses.branches = [[alone]] ∧
        p.gist = alone.gist
  | .group e, p => p.gist = { text := String.ofList ((Factor.group e).text pad) }

theorem Disjunction.operands_ne_nil (e : Disjunction) : e.operands ≠ [] := by
  cases e with
  | single c => exact List.cons_ne_nil _ _
  | or c rest => exact List.cons_ne_nil _ _

mutual

/-- Every conjunction comes down to one condition at least. -/
theorem Conjunction.leaves_ne_nil : (c : Conjunction) → c.leaves ≠ []
  | .single f => f.leaves_ne_nil
  | .and f rest => List.append_ne_nil_of_left_ne_nil f.leaves_ne_nil rest.leaves

theorem Factor.leaves_ne_nil : (f : Factor) → f.leaves ≠ []
  | .atom _ => List.cons_ne_nil _ _
  | .group (.single c) => c.leaves_ne_nil
  | .group (.or _ _) => List.cons_ne_nil _ _

end

/-! ### Reading a factor -/

section Reading

variable {scope : Scope} {query : Query} {pad s d : Nat}

/-- What a leaf says, as far as it does not depend on its place. -/
def Leaf.gist (query : Query) (pad : Nat) : Leaf → Predicate
  | .atom a => (classify
      { sql := a.text, fields := query.fields, ownNames := ownQualifiers query.table [] [] }
      (locate 0 0 a.pieces)).gist
  | .group e => { text := String.ofList ((Factor.group e).text pad) }

/-- A scope in which names mean what they mean in a condition of the query that stands alone. -/
def Scope.Agrees (scope : Scope) (query : Query) : Prop :=
  scope.fields = query.fields ∧ scope.ownNames = ownQualifiers query.table [] []

/-- A printed disjunction is cut into its operands, as no other OR stands outside of a group. -/
theorem length_alternatives (pad s d : Nat) (e : Disjunction) :
    (alternatives (locate s d (e.pieces pad))).length = e.operands.length := by
  cases e with
  | single c =>
    rw [Disjunction.pieces, Disjunction.alternatives_single]
    rfl
  | or c rest =>
    rw [Disjunction.alternatives_or, List.length_cons, length_alternatives pad _ d rest]
    rfl

/-- A condition without connectives is classified as it stands. -/
theorem ofConjunction_atom (a : Atom) :
    ofConjunction scope (locate s d a.pieces) = [classify scope (locate s d a.pieces)] := by
  have hbal := (Piece.Printed.atom a).balanced
  have hwrapped : isWrapped (locate s d a.pieces) = false := by
    rw [hbal.locate_eq, isWrapped_shift, Bool.eq_false_iff]
    exact fun h => a.isAtomic.ungrouped ((isWrapped_iff hbal 0 0).mp h)
  have hcut : conjuncts (locate s d a.pieces) = [locate s d a.pieces] :=
    Conjunction.conjuncts_single (.atom a) 0 s d
  rw [ofConjunction_eq, hcut, List.flatMap_singleton, hwrapped]
  rfl

/-- A group is opened up unless it has several alternatives. -/
theorem ofConjunction_group (e : Disjunction) :
    ofConjunction scope (locate s d ((Factor.group e).pieces pad)) =
      if e.operands.length = 1 then
        ofConjunction scope (locate (s + 1 + pad) (d + 1) (e.pieces pad))
      else [opaqueOf scope (locate s d ((Factor.group e).pieces pad))] := by
  have hbal := (e.printed pad).balanced
  have hgroup := ((Factor.group e).printed pad).balanced
  have htokens := locate_group hbal s d pad
  rw [← Factor.pieces] at htokens
  have hwrapped : isWrapped (locate s d ((Factor.group e).pieces pad)) = true := by
    rw [isWrapped_iff hgroup, htokens]
    exact ⟨_, _, _, rfl, rfl, rfl, hbal.nesting_eq _ _ 0⟩
  -- without its parentheses the group is the expression, one level deeper
  have hinside : (locate s d ((Factor.group e).pieces pad)).tail.dropLast =
      locate (s + 1 + pad) (d + 1) (e.pieces pad) := by
    rw [htokens, List.tail_cons, List.dropLast_concat]
  have hopen : isTransparent (locate (s + 1 + pad) (d + 1) (e.pieces pad)) =
      decide (e.operands.length = 1) := by
    rw [isTransparent, (e.printed pad).head_not_nested, Bool.true_and, length_alternatives]
    rfl
  rw [ofConjunction_eq, Conjunction.conjuncts_single, List.flatMap_singleton, hwrapped, hinside,
    hopen]
  simp

/-! ### Reading an expression -/

/-- Whether a text stands at a position. -/
def StandsAt (sql cs : List Char) (s : Nat) : Prop :=
  cs <+: sql.drop s

theorem StandsAt.left {sql u v : List Char} (h : StandsAt sql (u ++ v) s) : StandsAt sql u s :=
  (List.prefix_append u v).trans h

theorem StandsAt.right {sql u v : List Char} (h : StandsAt sql (u ++ v) s) :
    StandsAt sql v (s + u.length) := by
  obtain ⟨more, hmore⟩ := h
  refine ⟨more, ?_⟩
  rw [← List.drop_drop, ← hmore, List.append_assoc, List.drop_left]

/-- **An atom** says the same wherever it stands. -/
theorem gist_classify_atom (hscope : scope.Agrees query) (a : Atom)
    (hstands : StandsAt scope.sql a.text s) :
    (classify scope (locate s d a.pieces)).gist = (Leaf.atom a).gist query pad := by
  rw [(Piece.Printed.atom a).balanced.locate_eq]
  refine gist_classify_shift d hscope.1 hscope.2 hstands fun t ht => ?_
  have := stop_le_of_mem_locate ht
  rwa [Nat.zero_add, Atom.pieces, Word.texts_pieces] at this

/-- The text of a group is where its tokens are. -/
theorem text_group (e : Disjunction) (hstands : StandsAt scope.sql ((Factor.group e).text pad) s) :
    scope.text (locate s d ((Factor.group e).pieces pad)) =
      String.ofList ((Factor.group e).text pad) := by
  obtain ⟨more, hmore⟩ := hstands
  have htokens := locate_group (e.printed pad).balanced s d pad
  rw [← Factor.pieces] at htokens
  have hlast := List.getLast?_concat (l := ofPiece .lparen ['('] s d ::
    locate (s + 1 + pad) (d + 1) (e.pieces pad)) (a := ofPiece .rparen [')']
    (s + 1 + pad + ((e.pieces pad).flatMap Piece.text).length + pad) (d + 1))
  rw [List.cons_append, ← htokens] at hlast
  have hfirst : (locate s d ((Factor.group e).pieces pad)).head? =
      some (ofPiece .lparen ['('] s d) := by
    rw [htokens, List.head?_cons]
  have hlength : ((Factor.group e).text pad).length =
      1 + pad + ((e.pieces pad).flatMap Piece.text).length + pad + 1 := by
    rw [← Factor.texts_pieces, Factor.pieces, Piece.texts_group]
    simp only [List.length_cons, List.length_append, List.length_replicate, List.length_nil]
    omega
  rw [Scope.text, hfirst, hlast]
  simp only [ofPiece, List.length_singleton]
  rw [Text.slice, ← hmore, List.take_left' (by omega)]

/-- A printed conjunction gives the conditions of its factors one after the other. The five
characters between them are the AND and its blanks. -/
theorem ofConjunction_and (f : Factor) (rest : Conjunction) :
    ofConjunction scope (locate s d ((Conjunction.and f rest).pieces pad)) =
      ofConjunction scope (locate s d (f.pieces pad)) ++
        ofConjunction scope (locate (s + (f.text pad).length + 5) d (rest.pieces pad)) := by
  rw [ofConjunction_eq, Conjunction.conjuncts_and, List.flatMap_cons, ← ofConjunction_eq,
    ofConjunction_eq scope (locate s d (f.pieces pad)), Conjunction.conjuncts_single,
    List.flatMap_singleton]

mutual

/-- **A conjunction** is read leaf by leaf. -/
theorem Conjunction.map_gist (hscope : scope.Agrees query) : (c : Conjunction) → (s d : Nat) →
    StandsAt scope.sql (c.text pad) s →
    (ofConjunction scope (locate s d (c.pieces pad))).map gist =
      c.leaves.map (Leaf.gist query pad)
  | .single f, s, d, hstands => f.map_gist hscope s d hstands
  | .and f rest, s, d, hstands => by
    rw [Conjunction.text, List.append_assoc] at hstands
    have hf := f.map_gist hscope s d hstands.left
    have hrest := rest.map_gist hscope _ d hstands.right.right
    rw [ofConjunction_and, List.map_append, hf, Conjunction.leaves, List.map_append]
    exact congrArg _ hrest

/-- What a printed factor is read as, with redundant parentheses taken off and groups left in place.
-/
theorem Factor.map_gist (hscope : scope.Agrees query) : (f : Factor) → (s d : Nat) →
    StandsAt scope.sql (f.text pad) s →
    (ofConjunction scope (locate s d (f.pieces pad))).map gist =
      f.leaves.map (Leaf.gist query pad)
  | .atom a, s, d, hstands => by
    rw [Factor.pieces, ofConjunction_atom, List.map_singleton, gist_classify_atom hscope a hstands]
    rfl
  | .group (.single c), s, d, hstands => by
    rw [Factor.text, List.append_assoc, List.append_assoc] at hstands
    have hinside := hstands.right.left
    rw [List.length_append, List.length_singleton, List.length_replicate, ← Nat.add_assoc]
      at hinside
    have hone : (Disjunction.single c).operands.length = 1 := rfl
    rw [ofConjunction_group, if_pos hone]
    exact c.map_gist hscope _ _ hinside
  | .group (.or c rest), s, d, hstands => by
    have hseveral : (Disjunction.or c rest).operands.length ≠ 1 := by
      have := List.length_pos_iff.mpr rest.operands_ne_nil
      rw [Disjunction.operands, List.length_cons]
      omega
    rw [ofConjunction_group, if_neg hseveral, List.map_singleton, gist_opaqueOf,
      text_group _ hstands]
    rfl

end

/-- **A disjunction** is read operand by operand. -/
theorem Disjunction.map_gist (hscope : scope.Agrees query) : (e : Disjunction) → (s d : Nat) →
    StandsAt scope.sql (e.text pad) s →
    ((alternatives (locate s d (e.pieces pad))).map (ofConjunction scope)).map (List.map gist) =
      e.operands.map fun c => c.leaves.map (Leaf.gist query pad)
  | .single c, s, d, hstands => by
    rw [Disjunction.pieces, alternatives_single, List.map_singleton, List.map_singleton,
      c.map_gist hscope s d hstands]
    rfl
  | .or c rest, s, d, hstands => by
    rw [Disjunction.text, List.append_assoc] at hstands
    have hrest := rest.map_gist hscope _ d hstands.right.right
    rw [alternatives_or, List.map_cons, List.map_cons, c.map_gist hscope s d hstands.left]
    exact congrArg _ hrest

end Reading

/-! ### Reading a `WHERE` clause -/

section Clause

variable (catalog : Catalog) (query : Query) (pad : Nat)

/-- What is read after `WHERE`, up to the places of the predicates. -/
theorem map_gist_branches (e : Disjunction) :
    let clauses := ((query.withCondition (e.text pad)).parse catalog true).clauses
    clauses.branches.map (List.map gist) =
        e.operands.map (fun c => c.leaves.map (Leaf.gist query pad)) ∧
      clauses.hasOr = decide (1 < e.operands.length) := by
  intro clauses
  obtain ⟨scope, halone, hbranches, hor⟩ := exists_scope_where catalog query (e.printed pad)
  rw [e.texts_pieces] at halone hbranches hor
  have hstands : StandsAt scope.sql (e.text pad) 6 := by
    rw [StandsAt, halone.sql_eq]
    exact List.prefix_rfl
  have hread := e.map_gist ⟨halone.fields_eq, halone.ownNames_eq⟩ 6 0 hstands
  rw [length_alternatives] at hor
  refine ⟨?_, hor⟩
  -- no branch is empty, since each has a leaf
  have hfull : ((alternatives (locate 6 0 (e.pieces pad))).map
      (ofConjunction scope)).filter (!·.isEmpty) =
        (alternatives (locate 6 0 (e.pieces pad))).map (ofConjunction scope) := by
    refine List.filter_eq_self.mpr fun branch hbranch => ?_
    have hmem := List.mem_map_of_mem (f := List.map gist) hbranch
    rw [hread] at hmem
    obtain ⟨c, -, hc⟩ := List.mem_map.mp hmem
    rw [Bool.not_eq_true', List.isEmpty_eq_false_iff]
    rintro rfl
    exact c.leaves_ne_nil (by simpa using hc)
  rw [hbranches, hfull, hread]

/-- An atom alone is read as one predicate. -/
theorem exists_alone (a : Atom) : ∃ alone : Predicate,
    ((query.withCondition a.text).parse catalog true).clauses.branches = [[alone]] ∧
      alone.gist = (Leaf.atom a).gist query pad := by
  have hread := (map_gist_branches catalog query pad (.single (.single (.atom a)))).1
  obtain ⟨branch, hbranches, hbranch⟩ := List.map_eq_singleton_iff.mp hread
  obtain ⟨alone, rfl, halone⟩ := List.map_eq_singleton_iff.mp hbranch
  exact ⟨alone, hbranches, halone⟩

/-- The gist of a predicate determines how the leaf is read. -/
theorem readAs_of_gist {leaf : Leaf} {p : Predicate} (h : p.gist = leaf.gist query pad) :
    leaf.ReadAs catalog query pad p := by
  rcases leaf with a | e
  · obtain ⟨alone, hbranches, halone⟩ := exists_alone catalog query pad a
    exact ⟨alone, hbranches, h.trans halone.symm⟩
  · exact h

/-- **Boolean structure.** The text of an expression after `WHERE` gives one branch for each
operand of its outermost `OR`s, in order, and each branch has one predicate for each leaf of its
operand, from left to right: the atoms as they are read alone, and the groups with an `OR` of their
own as one unclassified predicate each. -/
theorem where_follows_structure (e : Disjunction) :
    let clauses := ((query.withCondition (e.text pad)).parse catalog true).clauses
    List.Forall₂ (fun c branch => List.Forall₂ (Leaf.ReadAs catalog query pad) c.leaves branch)
        e.operands clauses.branches ∧
      clauses.hasOr = decide (1 < e.operands.length) := by
  intro clauses
  obtain ⟨hread, hor⟩ := map_gist_branches catalog query pad e
  refine ⟨(forall₂_of_map_eq hread).imp fun c branch hbranch => ?_, hor⟩
  exact (forall₂_of_map_eq hbranch).imp fun leaf p hgist => readAs_of_gist catalog query pad hgist

end Clause

/-- A condition with a `BETWEEN`, a transparent group and a group with an `OR` of its own. -/
theorem mixed_condition_read : ∃ e : Disjunction,
    String.ofList (e.text 0) = "a = 1 OR (b BETWEEN 2 AND 3 AND (c = ? OR d > 4))" ∧
    e.operands.map (·.leaves.length) = [1, 2] ∧ ∀ (catalog : Catalog) (query : Query),
      List.Forall₂ (fun c branch => List.Forall₂ (Leaf.ReadAs catalog query 0) c.leaves branch)
        e.operands ((query.withCondition (e.text 0)).parse catalog true).clauses.branches := by
  let a : Atom := ⟨[⟨.word, ['a'], by decide⟩, ⟨.operator, ['='], by decide⟩,
    ⟨.number, ['1'], by decide⟩], by simp, by decide⟩
  let b : Atom := ⟨[⟨.word, ['b'], by decide⟩, ⟨.word, "BETWEEN".toList, by decide⟩,
    ⟨.number, ['2'], by decide⟩, .conj, ⟨.number, ['3'], by decide⟩], by simp, by decide⟩
  let c : Atom := ⟨[⟨.word, ['c'], by decide⟩, ⟨.operator, ['='], by decide⟩,
    ⟨.placeholder, ['?'], by decide⟩], by simp, by decide⟩
  let d : Atom := ⟨[⟨.word, ['d'], by decide⟩, ⟨.operator, ['>'], by decide⟩,
    ⟨.number, ['4'], by decide⟩], by simp, by decide⟩
  let choice : Disjunction := .or (.single (.atom c)) (.single (.single (.atom d)))
  refine ⟨.or (.single (.atom a)) (.single (.single (.group (.single (.and (.atom b)
    (.single (.group choice))))))), by decide, by decide, fun catalog query => ?_⟩
  exact (where_follows_structure catalog query 0 _).1

end IndexAdvice
