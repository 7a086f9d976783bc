import IndexAdvice.Proofs.Comparisons
import IndexAdvice.Proofs.DeclaredColumns
import IndexAdvice.Proofs.Grafting
import IndexAdvice.Proofs.Layout
import IndexAdvice.Proofs.ScopeAgreement

/-!
# Conditions of joins

The key of a join is read after `ON` from one of the parts between the outermost `AND`s, the first
that is an equality of columns one of which is the query's own. No other structure of the condition
counts. An outermost `OR` ends no part, so the key may be read from a part that the condition can do
without: `join_key_of_conjunct` says that it is read from a part that must hold if no `OR` stands
outside parentheses, and from one that need not hold if an `OR` divides the condition. Parentheses
are not opened up, so what they enclose gives no key: `join_key_outside_parentheses` says that the
key is that of the first atom outside all parentheses that has one.
-/

namespace IndexAdvice

open Text Token

/-! ### Necessary parts -/

/-- Parts in order are taken from the list they are parts of. -/
theorem InOrder.flatten_sublist {α : Type} {parts : List (List α)} {xs : List α}
    (h : InOrder parts xs) : parts.flatten.Sublist xs := by
  induction h with
  | nil xs => exact List.nil_sublist xs
  | cons gap part _ ih =>
    exact (List.Sublist.append (List.Sublist.refl part) ih).trans (List.sublist_append_right _ _)

namespace Token

variable {part condition : List Token}

/-- Whether a condition holds, if `holds` tells which of the parts between its separators do: all
that stand between the `AND`s of one of its alternatives. -/
def Satisfied (holds : List Token → Prop) (condition : List Token) : Prop :=
  ∃ operand ∈ alternatives condition, ∀ part ∈ conjuncts operand, holds part

/-- Whether a condition does not hold unless the part does. -/
def Necessary (part condition : List Token) : Prop :=
  ∀ holds, Satisfied holds condition → holds part

/-- Whether an `OR` is among the outermost tokens. -/
def HasOuterOr (condition : List Token) : Prop :=
  ∃ t ∈ condition, t.depth = baseDepth condition ∧ t.isKeyword ["OR"] = true

theorem Consecutive.nodup {ts : List Token} (h : Consecutive ts) : ts.Nodup := by
  refine List.Pairwise.imp_of_mem (fun {t u} ht _ hle => ?_) h.stop_le
  rintro rfl
  have := h.start_lt t ht
  omega

/-- A condition without an OR of its own is its only alternative. -/
theorem alternatives_of_not_hasOuterOr (h : ¬ HasOuterOr condition) (hne : condition ≠ []) :
    alternatives condition = [condition] := by
  refine Solid.cutFrom_eq (solid_of_forall_sep fun t ht hdepth => ?_) hne
  exact Bool.eq_false_iff.mpr fun hor => h ⟨t, ht, hdepth, hor⟩

/-- Without an outermost `OR` every part between `AND`s must hold. -/
theorem necessary_of_mem_conjuncts (h : ¬ HasOuterOr condition)
    (hpart : part ∈ conjuncts condition) : Necessary part condition := by
  have hne : condition ≠ [] := by
    rintro rfl
    exact absurd hpart List.not_mem_nil
  rintro holds ⟨operand, hoperand, hall⟩
  rw [alternatives_of_not_hasOuterOr h hne, List.mem_singleton] at hoperand
  exact hall part (hoperand ▸ hpart)

/-- With several alternatives no part must hold, since none belongs to all of them. -/
theorem not_necessary_of_alternatives (h : Consecutive condition)
    (hseveral : 1 < (alternatives condition).length) (hne : part ≠ []) :
    ¬ Necessary part condition := by
  have hsub := (inOrder_alternatives condition).flatten_sublist
  have hdisjoint := (List.nodup_flatten.mp (h.nodup.sublist hsub)).2
  obtain ⟨t, ts, rfl⟩ := List.exists_cons_of_ne_nil hne
  obtain ⟨operand, hoperand, hnot⟩ :
      ∃ operand ∈ alternatives condition, t :: ts ∉ conjuncts operand := by
    match halternatives : alternatives condition with
    | [] | [_] => simp [halternatives] at hseveral
    | first :: second :: rest =>
      rw [halternatives, List.pairwise_cons] at hdisjoint
      have hmem {operand : List Token} (hpart : t :: ts ∈ conjuncts operand) : t ∈ operand :=
        ((inOrder_conjuncts operand).infix_of_mem hpart).subset List.mem_cons_self
      by_cases hfirst : t :: ts ∈ conjuncts first
      · refine ⟨second, by simp, fun hsecond => ?_⟩
        exact hdisjoint.1 second List.mem_cons_self (hmem hfirst) (hmem hsecond)
      · exact ⟨first, List.mem_cons_self, hfirst⟩
  intro hnecessary
  exact hnecessary (· ≠ t :: ts) ⟨operand, hoperand, fun part hpart heq => hnot (heq ▸ hpart)⟩ rfl

end Token

/-! ### Keys -/

/-- What a join says wherever it stands: all but its place and the text of its condition. -/
def Join.gist (join : Join) : Join :=
  { join with condition := "", position := 0 }

/-- Whether a join has its columns from the equality that a part of its condition is. -/
def Join.ReadIn (part : List Token) (join : Join) : Prop :=
  ∃ own other : ColumnRef,
    (JoinTarget.equality? part = some (own, other) ∨
      JoinTarget.equality? part = some (other, own)) ∧
    (∃ column ∈ join.localColumn, lower column = lower own.name) ∧
    join.remoteColumn = some other.name ∧
    join.position = ((part.head?.map (·.start)).getD 0 : Nat)

namespace JoinTarget

variable {scope : Scope} {joined : String} {target : JoinTarget} {part : List Token}

/-- The own column, the other table and the other column that a part of a condition gives. -/
def keyIn? (scope : Scope) (joined : String) (part : List Token) :
    Option (String × String × String) :=
  (equality? part).bind fun (left, right) =>
    (key? scope joined left right).or (key? scope joined right left)

/-- The join with a key, up to its place, or with none. -/
def withKey (target : JoinTarget) : Option (String × String × String) → Join
  | some (column, remote, remoteColumn) =>
    { localColumn := some column
      remoteTable := remote
      remoteColumn := some remoteColumn
      kind := target.kind }
  | none => { remoteTable := target.table, kind := target.kind }

/-- What a conjunct gives is settled by the key it has, if it has one. -/
theorem map_gist_ofConjunct? (scope : Scope) (target : JoinTarget) (part : List Token) :
    (ofConjunct? scope target part).map Join.gist =
      (keyIn? scope target.table part).map fun key => target.withKey (some key) := by
  rw [ofConjunct?, keyIn?]
  cases equality? part with
  | none => rfl
  | some sides =>
    rw [Option.bind_some]
    simp only [Option.map_map]
    rfl

/-- **Keys.** The join has the first key that a part of its condition gives. -/
theorem gist_resolve (scope : Scope) (hcolumns : target.columns = []) :
    (resolve scope target).gist =
      target.withKey ((conjuncts target.condition).findSome? (keyIn? scope target.table)) := by
  have hfound : ((conjuncts target.condition).findSome? (ofConjunct? scope target)).map Join.gist =
      ((conjuncts target.condition).findSome? (keyIn? scope target.table)).map
        fun key => target.withKey (some key) := by
    rw [List.map_findSome?, List.map_findSome?]
    exact congrArg (List.findSome? · _) (funext fun part => map_gist_ofConjunct? scope target part)
  rw [resolve, hcolumns]
  cases hkey : (conjuncts target.condition).findSome? (keyIn? scope target.table) with
  | none =>
    rw [hkey, Option.map_none, Option.map_eq_none_iff] at hfound
    simp only [hfound]
    rfl
  | some key =>
    rw [hkey, Option.map_some] at hfound
    obtain ⟨join, hjoin, hgist⟩ := Option.map_eq_some_iff.mp hfound
    simp only [hjoin, Option.getD_some, hgist]

/-- A join that has a key has it from a part of its condition. -/
theorem exists_conjunct_of_localColumn (hcolumns : target.columns = []) {column : String}
    (h : (resolve scope target).localColumn = some column) :
    ∃ part ∈ conjuncts target.condition, (resolve scope target).ReadIn part := by
  have hresolve : resolve scope target =
      ((conjuncts target.condition).findSome? (ofConjunct? scope target)).getD
        { localColumn := none
          remoteTable := target.table
          remoteColumn := none
          kind := target.kind
          condition := scope.text target.condition
          position := target.position } := by
    rw [resolve, hcolumns]
  rw [hresolve] at h ⊢
  cases hfound : (conjuncts target.condition).findSome? (ofConjunct? scope target) with
  | none => simp [hfound] at h
  | some join =>
    obtain ⟨part, hpart, hjoin⟩ := List.exists_of_findSome?_eq_some hfound
    rw [Option.getD_some]
    refine ⟨part, hpart, ?_⟩
    rw [ofConjunct?] at hjoin
    cases hsides : equality? part with
    | none => simp [hsides] at hjoin
    | some sides =>
      obtain ⟨left, right⟩ := sides
      simp only [hsides] at hjoin
      obtain ⟨key, hkey, rfl⟩ := Option.map_eq_some_iff.mp hjoin
      have hread {own other : ColumnRef} (hkey : key? scope target.table own other = some key) :
          lower key.1 = lower own.name ∧ key.2.2 = other.name := by
        simp only [key?] at hkey
        split at hkey
        · simp at hkey
        · obtain ⟨column, hcolumn, rfl⟩ := Option.map_eq_some_iff.mp hkey
          exact ⟨Scope.lower_of_field? (Scope.field?_of_resolve hcolumn), rfl⟩
      -- either side of the equality may be the own column
      rcases Option.or_eq_some_iff.mp hkey with hkey | ⟨-, hkey⟩
      · exact ⟨left, right, .inl hsides, ⟨key.1, rfl, (hread hkey).1⟩,
          congrArg some (hread hkey).2, rfl⟩
      · exact ⟨right, left, .inr hsides, ⟨key.1, rfl, (hread hkey).1⟩,
          congrArg some (hread hkey).2, rfl⟩

end JoinTarget

/-- The condition of a join is a part of the query. -/
theorem JoinTarget.condition_infix {ts : List Token} {target : JoinTarget}
    (h : target ∈ JoinTarget.ofClauses (Span.divide ts)) : target.condition <:+: ts := by
  obtain ⟨tokens, htokens, rfl⟩ := List.mem_map.mp h
  obtain ⟨span, hspan, rfl⟩ := List.mem_map.mp htokens
  exact (condition_suffix _).isInfix.trans
    (Span.infix_of_mem_divide (List.mem_filter.mp hspan).1)

/-- The joins of a query are its `JOIN` clauses as they are read in its scope. -/
theorem Query.joins_parse (catalog : Catalog) (splitOr : Bool) (query : Query) :
    let spans := Span.divide (statementTokens query.sql)
    (query.parse catalog splitOr).clauses.joins =
      (JoinTarget.ofClauses spans).map
        (JoinTarget.resolve (Scope.ofClauses query query.groups spans)) := by
  rw [Query.clauses_parse, Clauses.ofTokens_eq_readIn]
  rfl

/-- **The key of a join** after `ON` is read from one of the parts between the outermost `AND`s. If
no `OR` stands outside parentheses, the condition holds only if that part does; if an `OR` divides
the condition, it may hold without. -/
theorem join_key_of_conjunct (catalog : Catalog) (splitOr : Bool) (query : Query) :
    List.Forall₂ (fun target join =>
      target.columns = [] → ∀ column, join.localColumn = some column →
        ∃ part ∈ conjuncts target.condition, join.ReadIn part ∧
          (¬ HasOuterOr target.condition → Necessary part target.condition) ∧
          (1 < (alternatives target.condition).length → ¬ Necessary part target.condition))
      (JoinTarget.ofClauses (Span.divide (statementTokens query.sql)))
      (query.parse catalog splitOr).clauses.joins := by
  rw [Query.joins_parse]
  refine List.forall₂_map_right_iff.mpr (List.forall₂_same.mpr fun target htarget => ?_)
  intro hcolumns column hcolumn
  obtain ⟨part, hpart, hread⟩ := JoinTarget.exists_conjunct_of_localColumn hcolumns hcolumn
  have horder : Consecutive target.condition :=
    (consecutive_statementTokens query.sql).sublist (JoinTarget.condition_infix htarget).sublist
  exact ⟨part, hpart, hread, fun hor => necessary_of_mem_conjuncts hor hpart, fun hseveral =>
    not_necessary_of_alternatives horder hseveral (ne_nil_of_mem_conjuncts hpart)⟩

/-- Orders with their active users, or those of a status with any user. -/
def activeOrders : Query where
  table := "Order"
  fields := ["id", "user_id", "status"]
  sql := "SELECT * FROM orders o JOIN users u ON o.user_id = u.id AND u.active OR o.status = $1"

/-- The part that the key is read from may fail. -/
theorem activeOrders_key_not_necessary :
    ∃ target join part,
      JoinTarget.ofClauses (Span.divide (statementTokens activeOrders.sql)) = [target] ∧
      (activeOrders.parse [] true).clauses.joins = [join] ∧ join.localColumn = some "user_id" ∧
      part ∈ conjuncts target.condition ∧ join.ReadIn part ∧
      ¬ Necessary part target.condition := by
  have hfacts : (JoinTarget.ofClauses (Span.divide (statementTokens activeOrders.sql))).map
        (fun target => (target.columns, (alternatives target.condition).length)) = [([], 2)] ∧
      (activeOrders.parse [] true).clauses.joins.map (·.localColumn) = [some "user_id"] := by
    decide +kernel
  obtain ⟨htargets, hjoins⟩ := hfacts
  obtain ⟨target, htarget, hmarks⟩ := List.map_eq_singleton_iff.mp htargets
  obtain ⟨join, hjoin, hcolumn⟩ := List.map_eq_singleton_iff.mp hjoins
  rw [Prod.mk.injEq] at hmarks
  have hkey := join_key_of_conjunct [] true activeOrders
  rw [htarget, hjoin, List.forall₂_cons] at hkey
  obtain ⟨part, hpart, hread, -, hnot⟩ := hkey.1 hmarks.1 "user_id" hcolumn
  exact ⟨target, join, part, htarget, hjoin, hcolumn, hpart, hread,
    hnot (by rw [hmarks.2]; decide)⟩

/-- The condition that `OR` divides gives a key. -/
theorem activeOrders_has_key :
    (activeOrders.parse [] true).clauses.joins.map (·.localColumn) = [some "user_id"] ∧
      (JoinTarget.ofClauses (Span.divide (statementTokens activeOrders.sql))).map
        (fun target => (alternatives target.condition).length) = [2] := by
  decide +kernel

/-! ### Parentheses -/

namespace JoinTarget

variable {scope : Scope} {joined : String} {s d : Nat}

theorem equality?_shift (a k : Nat) (ts : List Token) :
    equality? (ts.map (shift a k)) = equality? ts := by
  have hwhole (ts : List Token) :
      ColumnRef.whole? (ts.map (shift a k)) = ColumnRef.whole? ts := by
    rw [ColumnRef.whole?, ColumnRef.whole?, ColumnRef.read?_shift]
    rcases ColumnRef.read? ts with _ | ⟨ref, _ | ⟨t, rest⟩⟩ <;> rfl
  rw [equality?, equality?, ColumnRef.read?_shift]
  rcases ColumnRef.read? ts with _ | ⟨ref, _ | ⟨op, rest⟩⟩
  · rfl
  · rfl
  · simp only [Option.map_some, List.map_cons, text_shift, hwhole]

/-- A group is no equality. -/
theorem equality?_group {ps : List Piece} (h : IsBalanced ps) (pad : Nat) :
    equality? (locate s d (Piece.group pad ps)) = none := by
  rw [locate_group h]
  rfl

end JoinTarget

/-- The key that an atom gives as a part of a condition. -/
def Atom.key? (scope : Scope) (joined : String) (a : Atom) : Option (String × String × String) :=
  JoinTarget.keyIn? scope joined (locate 0 0 a.pieces)

/-- The atoms of a factor outside its parentheses. -/
def Factor.bare : Factor → List Atom
  | .atom a => [a]
  | .group _ => []

/-- The atoms of a conjunction outside all parentheses. -/
def Conjunction.bare : Conjunction → List Atom
  | .single f => f.bare
  | .and f rest => f.bare ++ rest.bare

section Bare

variable {scope : Scope} {joined : String}

/-- A printed factor gives the key of the first equality in it that has one. -/
theorem Factor.keyIn?_pieces (f : Factor) (pad s d : Nat) :
    JoinTarget.keyIn? scope joined (locate s d (f.pieces pad)) =
      f.bare.findSome? (Atom.key? scope joined) := by
  rcases f with a | e
  · rw [Factor.pieces, (Piece.Printed.atom a).balanced.locate_eq, JoinTarget.keyIn?,
      JoinTarget.equality?_shift, ← JoinTarget.keyIn?, Factor.bare, List.findSome?_singleton,
      Atom.key?]
  · rw [Factor.pieces, JoinTarget.keyIn?, JoinTarget.equality?_group (e.printed pad).balanced]
    rfl

/-- The parts of a conjunction give the keys that its atoms outside parentheses give. -/
theorem Conjunction.findSome?_keyIn? (c : Conjunction) (pad s d : Nat) :
    (conjuncts (locate s d (c.pieces pad))).findSome? (JoinTarget.keyIn? scope joined) =
      c.bare.findSome? (Atom.key? scope joined) := by
  cases c with
  | single f =>
    rw [Conjunction.pieces, conjuncts_single, List.findSome?_singleton, f.keyIn?_pieces]
    rfl
  | and f rest =>
    rw [conjuncts_and, List.findSome?_cons, f.keyIn?_pieces, rest.findSome?_keyIn?,
      Conjunction.bare, List.findSome?_append]
    cases f.bare.findSome? (Atom.key? scope joined) <;> rfl

end Bare

/-- Whether a condition has the tokens of a conjunction, in any layout. -/
def Conjunction.Spells (c : Conjunction) (condition : List Token) : Prop :=
  ∃ depth, condition.map lexeme = (locate 0 depth (c.pieces 0)).map lexeme

/-- Conditions with the same tokens have the same first key. -/
theorem JoinTarget.findSome?_keyIn?_of_lexemes {scope : Scope} {joined : String}
    {ts ts' : List Token} (h : Consecutive ts) (h' : Consecutive ts')
    (hlexemes : ts.map lexeme = ts'.map lexeme) :
    (conjuncts ts).findSome? (keyIn? scope joined) =
      (conjuncts ts').findSome? (keyIn? scope joined) := by
  have hparts := (alike_of_twins (twins_of_lexemes h h' hlexemes)).conjuncts
  have hkeys : (conjuncts ts).map (keyIn? scope joined) =
      (conjuncts ts').map (keyIn? scope joined) :=
    map_eq_of_forall₂ hparts fun part part' halike => by
      rw [keyIn?, keyIn?, equality?_of_alike halike]
  have hfind (parts : List (List Token)) : parts.findSome? (keyIn? scope joined) =
      (parts.map (keyIn? scope joined)).findSome? id := by
    rw [List.findSome?_map]
    rfl
  rw [hfind, hfind, hkeys]

/-- **Parentheses hide keys.** A join whose condition after `ON` is a conjunction, in any layout,
has the key of the first atom outside all parentheses that has one, and no key if there is no such
atom, whatever is in the parentheses. -/
theorem join_key_outside_parentheses (catalog : Catalog) (splitOr : Bool) (query : Query) :
    let spans := Span.divide (statementTokens query.sql)
    let scope := Scope.ofClauses query query.groups spans
    List.Forall₂ (fun target join => target.columns = [] → ∀ c : Conjunction,
        c.Spells target.condition →
          join.gist = target.withKey (c.bare.findSome? (Atom.key? scope target.table)))
      (JoinTarget.ofClauses spans) (query.parse catalog splitOr).clauses.joins := by
  intro spans scope
  rw [Query.joins_parse]
  refine List.forall₂_map_right_iff.mpr (List.forall₂_same.mpr fun target htarget => ?_)
  rintro hcolumns c ⟨depth, hspells⟩
  have horder : Consecutive target.condition :=
    (consecutive_statementTokens query.sql).sublist (JoinTarget.condition_infix htarget).sublist
  have hpieces : Consecutive (locate 0 depth (c.pieces 0)) := by
    refine consecutive_locate fun p hp => ?_
    rw [← (c.printed 0).isCut.ofText_texts] at hp
    exact Piece.text_ne_nil_of_mem_cut hp
  rw [JoinTarget.gist_resolve _ hcolumns,
    JoinTarget.findSome?_keyIn?_of_lexemes horder hpieces hspells, c.findSome?_keyIn?]

/-- Orders with their users, the condition of the join in parentheses. -/
def enclosedJoin : Query where
  table := "Order"
  fields := ["id", "user_id", "status"]
  sql := "SELECT * FROM orders o JOIN users u ON (o.user_id = u.id)"

/-- The condition is a conjunction with no atom outside its parentheses. -/
theorem enclosedJoin_keyless :
    ∃ target, ∃ c : Conjunction,
      JoinTarget.ofClauses (Span.divide (statementTokens enclosedJoin.sql)) = [target] ∧
      target.columns = [] ∧ c.Spells target.condition ∧ c.bare = [] ∧
      (enclosedJoin.parse [] true).clauses.joins.map Join.gist = [target.withKey none] := by
  let a : Atom := ⟨[⟨.word, ['o'], by decide⟩, ⟨.dot, ['.'], by decide⟩,
    ⟨.word, "user_id".toList, by decide⟩, ⟨.operator, ['='], by decide⟩, ⟨.word, ['u'], by decide⟩,
    ⟨.dot, ['.'], by decide⟩, ⟨.word, "id".toList, by decide⟩], by simp, by decide +kernel⟩
  let c : Conjunction := .single (.group (.single (.single (.atom a))))
  have htargets : (JoinTarget.ofClauses (Span.divide (statementTokens enclosedJoin.sql))).map
      (fun target => (target.columns, target.condition.map lexeme)) =
        [([], (locate 0 0 (c.pieces 0)).map lexeme)] := by
    decide +kernel
  obtain ⟨target, htarget, hmarks⟩ := List.map_eq_singleton_iff.mp htargets
  rw [Prod.mk.injEq] at hmarks
  have hspells : c.Spells target.condition := ⟨0, hmarks.2⟩
  have hkey := join_key_outside_parentheses [] true enclosedJoin
  simp only [htarget] at hkey
  obtain ⟨join, joins, hjoin, hrest, hjoins⟩ := List.forall₂_cons_left_iff.mp hkey
  rw [List.forall₂_nil_left_iff] at hrest
  refine ⟨target, c, htarget, hmarks.1, hspells, rfl, ?_⟩
  rw [hjoins, hrest, List.map_singleton, hjoin hmarks.1 c hspells]
  rfl

/-- The join has a key without the parentheses only. -/
theorem enclosedJoin_has_no_key :
    (enclosedJoin.parse [] true).clauses.joins.map (·.localColumn) = [none] ∧
      (Query.parse [] true { enclosedJoin with
          sql := "SELECT * FROM orders o JOIN users u ON o.user_id = u.id" }).clauses.joins.map
        (·.localColumn) = [some "user_id"] := by
  decide +kernel

end IndexAdvice
