import IndexAdvice.Clause.Projection
import IndexAdvice.Proofs.AlikeConditions

/-!
# Alike lists

The lists of a query are its tables, its selected columns, and what it groups and sorts by. They are
cut at commas, and their items are read from either end; the select list alone is read token by
token, where what lies in a nested query is left out by its place (`referencesFrom_of_alike`).
-/

namespace IndexAdvice

open Token

variable {R : Nat → Nat → Prop} {H H' : Token → Prop} {s : Likeness} {t t' : Token}
  {ts ts' init : List Token} {scope scope' : Scope} {before before' : Option Token}

/-! ### Tables and columns -/

/-- Alike `FROM` lists name the same tables. -/
theorem listedTables_of_alike (h : Alike R H H' s ts ts') : listedTables ts = listedTables ts' := by
  refine filterMap_eq_of_forall₂ h.items fun item item' hitem => ?_
  rw [hitem.head?_any fun t t' htwin => by rw [htwin.kind]]
  rcases ColumnRef.read?_of_alike hitem with ⟨hread, hread'⟩ |
    ⟨ref, after, after', hread, hread', hafter⟩
  · rw [hread, hread']
  · simp only [hread, hread', Option.map_some, aliasAt?_of_alike hafter]

theorem columnOf?_of_alike (hscope : Scope.Matches R H H' scope scope')
    (h : Alike R H H' s ts ts') : columnOf? scope ts = columnOf? scope' ts' := by
  rw [columnOf?, columnOf?, ColumnRef.whole?_of_alike h, funext hscope.resolve]

theorem groupColumns_of_alike (hscope : Scope.Matches R H H' scope scope')
    (h : Alike R H H' s ts ts') : groupColumns scope ts = groupColumns scope' ts' := by
  rw [groupColumns, groupColumns,
    filterMap_eq_of_forall₂ h.items fun _ _ hitem => columnOf?_of_alike hscope hitem]

/-! ### Sorting -/

/-- NULLS FIRST and NULLS LAST are recognised by the last two tokens. -/
theorem dropNullsOrder_concat (init : List Token) (t : Token) :
    dropNullsOrder (init ++ [t]) =
      if t.isKeyword ["FIRST", "LAST"] && init.getLast?.any (·.isKeyword ["NULLS"]) then
        init.dropLast
      else init ++ [t] := by
  rcases List.eq_nil_or_concat init with rfl | ⟨rest, nulls, rfl⟩
  · simp [dropNullsOrder]
  · simp [dropNullsOrder, and_comm]

/-- The direction of a sort item is its last token. -/
theorem splitDirection_concat (init : List Token) (t : Token) :
    splitDirection (init ++ [t]) =
      if t.isKeyword ["ASC", "DESC"] then (init, t.upper) else (init ++ [t], "ASC") := by
  simp [splitDirection]

/-- An alias is an identifier at the end that follows an expression. -/
theorem dropAlias_concat (init : List Token) (t : Token) :
    dropAlias (init ++ [t]) =
      if t.isIdentifier && init.getLast?.any ([TokenKind.word, .quoted, .rparen].contains ·.kind)
      then init
      else init ++ [t] := by
  rcases List.eq_nil_or_concat init with rfl | ⟨rest, previous, rfl⟩
  · simp [dropAlias]
  · simp [dropAlias]

/-- A question that twins answer alike may be put to the last token. -/
theorem Token.Alike.getLast?_any (h : Alike R H H' s ts ts') {p : Token → Bool}
    (hp : ∀ t t', Twin R t t' → p t = p t') : ts.getLast?.any p = ts'.getLast?.any p := by
  rcases h.nil_or_concat with ⟨rfl, rfl⟩ | ⟨init, t, init', t', rfl, rfl, htwin, -⟩
  · rfl
  · simp only [List.getLast?_concat, Option.any_some, hp _ _ htwin]

/-- The last token may be dropped on both sides, unless it closes a group. -/
theorem Token.Alike.dropLast {p : Token → Bool} (h : Alike R H H' s ts ts')
    (hp : ∀ t, p t = true → t.kind ≠ .rparen) (hlast : ts.getLast?.any p = true) :
    Alike R H H' s ts.dropLast ts'.dropLast := by
  rcases h.nil_or_concat with ⟨rfl, rfl⟩ | ⟨init, t, init', t', rfl, rfl, -, hinit⟩
  · simp at hlast
  · rw [List.getLast?_concat, Option.any_some] at hlast
    rw [List.dropLast_concat, List.dropLast_concat]
    exact hinit (hp t hlast)

theorem kind_ne_rparen_of_isKeyword {keywords : List String} (h : t.isKeyword keywords = true) :
    t.kind ≠ .rparen := by
  rw [kind_of_isKeyword h]
  decide

theorem dropNullsOrder_of_alike (h : Alike R H H' s ts ts') :
    Alike R H H' s (dropNullsOrder ts) (dropNullsOrder ts') := by
  rcases h.nil_or_concat with ⟨rfl, rfl⟩ | ⟨init, t, init', t', rfl, rfl, htwin, hinit⟩
  · exact .nil
  · rw [dropNullsOrder_concat, dropNullsOrder_concat, ← htwin.isKeyword]
    by_cases ht : t.isKeyword ["FIRST", "LAST"] = true
    · have hinit := hinit (kind_ne_rparen_of_isKeyword ht)
      rw [ht, Bool.true_and, Bool.true_and,
        ← hinit.getLast?_any fun _ _ htwin => htwin.isKeyword ["NULLS"]]
      split
      · exact hinit.dropLast (fun _ => kind_ne_rparen_of_isKeyword) ‹_›
      · exact h
    · rw [Bool.not_eq_true] at ht
      rw [ht, Bool.false_and, Bool.false_and]
      exact h

theorem splitDirection_of_alike (h : Alike R H H' s ts ts') :
    Alike R H H' s (splitDirection ts).1 (splitDirection ts').1 ∧
      (splitDirection ts).2 = (splitDirection ts').2 := by
  rcases h.nil_or_concat with ⟨rfl, rfl⟩ | ⟨init, t, init', t', rfl, rfl, htwin, hinit⟩
  · exact ⟨.nil, rfl⟩
  · rw [splitDirection_concat, splitDirection_concat, ← htwin.isKeyword]
    split
    · exact ⟨hinit (kind_ne_rparen_of_isKeyword ‹_›), htwin.upper⟩
    · exact ⟨h, rfl⟩

theorem sortColumns_of_alike (hscope : Scope.Matches R H H' scope scope')
    (h : Alike R H H' s ts ts') : sortColumns scope ts = sortColumns scope' ts' := by
  rw [sortColumns, sortColumns]
  congr 1
  refine filterMap_eq_of_forall₂ h.items fun item item' hitem => ?_
  obtain ⟨hcolumn, hdirection⟩ := splitDirection_of_alike (dropNullsOrder_of_alike hitem)
  simp only [hdirection, columnOf?_of_alike hscope hcolumn]

/-! ### The select list -/

theorem dropQuantifier_of_alike (h : Alike R H H' s ts ts') :
    Alike R H H' s (dropQuantifier ts) (dropQuantifier ts') := by
  rcases h.nil_or_cons with ⟨rfl, rfl⟩ | ⟨t, us, t', us', rfl, rfl, htwin, hrest⟩
  · exact .nil
  · rw [dropQuantifier, dropQuantifier, ← htwin.isKeyword]
    split
    · exact hrest (kind_ne_lparen_of_isKeyword ‹_›)
    · exact h

theorem dropAlias_of_alike (h : Alike R H H' s ts ts') :
    Alike R H H' s (dropAlias ts) (dropAlias ts') := by
  rcases h.nil_or_concat with ⟨rfl, rfl⟩ | ⟨init, t, init', t', rfl, rfl, htwin, hinit⟩
  · exact .nil
  · rw [dropAlias_concat, dropAlias_concat, ← htwin.isIdentifier]
    by_cases ht : t.isIdentifier = true
    · have hinit := hinit (kind_ne_of_isIdentifier ht (by decide))
      rw [← hinit.getLast?_any fun t t' htwin => by rw [htwin.kind]]
      split
      · exact hinit
      · exact h
    · rw [Bool.not_eq_true] at ht
      rw [ht, Bool.false_and, Bool.false_and]
      exact h

/-- Skipped tokens are only counted, apart from the last one, which the next token sees before it.
-/
theorem referencesFrom_skip (scope : Scope) (before : Option Token) (front after : List Token) :
    referencesFrom scope before front.length (front ++ after) =
      referencesFrom scope (front.getLast?.or before) 0 after := by
  induction front generalizing before with
  | nil => rfl
  | cons t front ih =>
    rw [List.length_cons, List.cons_append, referencesFrom, ih]
    congr 1
    rw [List.getLast?_cons, Option.some_or]
    cases front.getLast? <;> rfl

theorem referencesFrom_of_not_isIdentifier (scope : Scope) (before : Option Token)
    (ht : t.isIdentifier = false) (ts : List Token) :
    referencesFrom scope before 0 (t :: ts) = referencesFrom scope (some t) 0 ts := by
  rw [referencesFrom]
  simp [ColumnRef.read?, ht]

/-- Nothing of a nested query is referred to. -/
theorem referencesFrom_nested (h : ∀ t ∈ ts, scope.inNested t = true) (hr : t.isIdentifier = false)
    (before : Option Token) (us : List Token) :
    referencesFrom scope before 0 (ts ++ t :: us) = referencesFrom scope (some t) 0 us := by
  induction ts generalizing before with
  | nil => exact referencesFrom_of_not_isIdentifier scope before hr us
  | cons u ts ih =>
    rw [List.cons_append, referencesFrom, h u List.mem_cons_self, Bool.true_or, if_pos rfl,
      ih fun v hv => h v (List.mem_cons_of_mem u hv)]

/-- **The select list.** Alike tokens refer to the same columns outside nested queries. -/
theorem referencesFrom_of_alike (hscope : Scope.Matches R H H' scope scope')
    (h : Alike R H H' s ts ts')
    (hbefore : before.any (·.isKeyword ["AS"]) = before'.any (·.isKeyword ["AS"])) :
    referencesFrom scope before 0 ts = referencesFrom scope' before' 0 ts' := by
  -- on the length, as a reference or a nested query is passed over as a whole
  induction hn : ts.length using Nat.strongRecOn generalizing s ts ts' before before' with
  | ind n ih =>
  subst hn
  cases ts with
  | nil =>
    rw [h.nil_iff.mp rfl]
    rfl
  | cons t ts =>
    by_cases hlparen : t.kind = .lparen
    · have hskip {l : Token} (hl : l.kind = .lparen) : l.isIdentifier = false := by
        simp [isIdentifier, hl]
      have hskip' {r : Token} (hr : r.kind = .rparen) : r.isIdentifier = false := by
        simp [isIdentifier, hr]
      rcases h.of_lparen hlparen with hplain | hopened
      · obtain ⟨t', ts', rfl, htwin, -⟩ := h.exists_cons
        have hrest : Alike R H H' .plain ts ts' :=
          .of_forall₂ (List.forall₂_cons.mp hplain.forall₂).2
        rw [referencesFrom_of_not_isIdentifier _ _ (hskip hlparen),
          referencesFrom_of_not_isIdentifier _ _ (hskip (htwin.kind ▸ hlparen))]
        exact ih _ (Nat.lt_succ_self _) hrest (htwin.some_any_isKeyword _) rfl
      · cases hopened with
        | @intro _ r l' r' inner inner' ts ts' hs around deeper deeper' inside rest =>
          rw [referencesFrom_of_not_isIdentifier _ _ (hskip around.lparen),
            referencesFrom_of_not_isIdentifier _ _ (hskip around.lparen')]
          rcases inside with inside | ⟨inside, inside'⟩
          · exact ih _ (Nat.lt_succ_self _) (inside.append hs (.closer around rest))
              (around.opens.some_any_isKeyword _) rfl
          · rw [referencesFrom_nested (fun t ht => hscope.hidden t (inside.covered t ht))
                (hskip' around.rparen),
              referencesFrom_nested (fun t ht => hscope.hidden' t (inside'.covered t ht))
                (hskip' around.rparen')]
            refine ih _ ?_ rest (around.closes.some_any_isKeyword _) rfl
            simp only [List.length_cons, List.length_append]
            omega
    · obtain ⟨t', ts', rfl, htwin, hrest⟩ := h.exists_cons
      have hrest := hrest hlparen
      rw [referencesFrom, referencesFrom, ← hscope.inNested t t' htwin, ← hbefore]
      split
      · exact ih _ (Nat.lt_succ_self _) hrest (htwin.some_any_isKeyword _) rfl
      · rcases ColumnRef.read?_cons_of_alike h with ⟨hread, hread'⟩ |
          ⟨ref, front, after, _, front', after', rfl, hts', hread, hread', hfront, hafter⟩
        · rw [hread, hread']
          exact ih _ (Nat.lt_succ_self _) hrest (htwin.some_any_isKeyword _) rfl
        · obtain ⟨rfl, rfl⟩ := List.cons.inj hts'
          have hcount (us vs : List Token) : (us ++ vs).length - vs.length = us.length := by
            simp
          simp only [hread, hread', hcount]
          rw [referencesFrom_skip, referencesFrom_skip, ← hscope.resolve,
            ← hafter.head?_any fun t t' htwin => by rw [htwin.kind]]
          congr 1
          refine ih _ ?_ hafter ?_ rfl
          · simp only [List.length_cons, List.length_append]
            omega
          · have hlast (u : Token) (us : List Token) :
                us.getLast?.or (some u) = (u :: us).getLast? := by
              rw [List.getLast?_cons]
              cases us.getLast? <;> rfl
            have hread : Alike R H H' .plain (t :: front) (t' :: front') := .of_forall₂ hfront
            rw [hlast, hlast]
            exact hread.getLast?_any fun _ _ htwin => htwin.isKeyword _

/-- **The select list** of two alike token lists names the same columns. -/
theorem selectedColumns_of_alike (hscope : Scope.Matches R H H' scope scope')
    (h : Alike R H H' s ts ts') : selectedColumns scope ts = selectedColumns scope' ts' := by
  rw [selectedColumns, selectedColumns, flatMap_eq_of_forall₂ h.items fun _ _ hitem =>
    referencesFrom_of_alike hscope (dropAlias_of_alike (dropQuantifier_of_alike hitem)) rfl]

end IndexAdvice
