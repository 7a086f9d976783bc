import IndexAdvice.Proofs.Matching

/-!
# Groups that are not closed

A parenthesis that nothing closes is matched with the last token. Whoever asks for the match looks
at the kind of that token to tell a closed group from an open one, and so takes the last parenthesis
of an open group for its end, although that closes another one inside. `unclosed_group_ends` says
when this happens: tokens are taken for one group if the last closes the first or if nothing closes
the first and the last is a closing parenthesis of whatever group, and the text of an open nested
query loses such a parenthesis. Otherwise it reaches to the end of the text.
-/

namespace IndexAdvice

open Text Token

variable {part tokens : List Token} {cs : List Char} {g : Group}

/-! ### One parenthesised group -/

/-- **Being wrapped.** Tokens are taken for one group if the last one closes the first, and also if
nothing closes the first and the last one closes another. -/
theorem Token.Located.isWrapped_iff_closes (h : Located part) :
    isWrapped part = true ↔ Closes part 0 (part.length - 1) ∨
      IsUnclosed part 0 ∧ part.getLast?.any (·.kind == .rparen) = true := by
  match part with
  | [] => simp [isWrapped, closes_iff, isUnclosed_iff]
  | [t] =>
    -- one token is at most one side of a group
    have hkinds : t.kind = .lparen → ¬ t.kind = .rparen := fun hl hr => by simp [hl] at hr
    simpa [isWrapped, closes_iff, isUnclosed_iff, closedAt?, closeOf] using hkinds
  | t :: u :: us =>
    by_cases hl : t.kind = .lparen
    · have hkind : (t :: u :: us)[0]?.map kind = some .lparen := by simp [hl]
      have hlast : (u :: us).getLast? = (t :: u :: us).getLast? := by simp
      simp only [isWrapped, hl, beq_self_eq_true, Bool.true_and, h.matchingParen_eq hkind, hlast]
      cases hclosed : closedAt? (t :: u :: us) 0 with
      | none => simp [closes_iff, isUnclosed_iff, hclosed, hl]
      | some j =>
        have hcloses : Closes (t :: u :: us) 0 j := closes_iff.mpr ⟨hkind, hclosed⟩
        have hsame : Closes (t :: u :: us) 0 ((t :: u :: us).length - 1) ↔
            j = (t :: u :: us).length - 1 := by
          rw [closes_iff, hclosed, Option.some.injEq]
          exact and_iff_right hkind
        have hopen : ¬ IsUnclosed (t :: u :: us) 0 := fun hno => hno.2 j hcloses
        rw [hsame, Option.getD_some, Bool.and_eq_true, beq_iff_eq]
        simp only [hopen, false_and, or_false, and_iff_left_iff_imp]
        rintro rfl
        obtain ⟨r, hget, hr⟩ := Option.map_eq_some_iff.mp hcloses.rparen
        rw [List.getLast?_eq_getElem?, hget]
        simp [hr]
    · have hno : isWrapped (t :: u :: us) = false := by simp [isWrapped, hl]
      simp [hno, closes_iff, isUnclosed_iff, hl]

/-! ### The text of a nested query -/

/-- **The text of a group**, opened by the token at index `i`, is what stands between it and what
closes it. If nothing does, it is what stands before a closing parenthesis at the end, or all there
is. -/
structure Group.ReadAt (cs : List Char) (tokens : List Token) (i : Nat) (g : Group) : Prop where
  opens : opensNested tokens i = true
  start_eq : tokens[i]?.map Token.start = some g.start
  closed : ∀ j r, Closes tokens i j → tokens[j]? = some r →
    g.sql = trim (slice cs (g.start + 1) r.start)
  unclosed : IsUnclosed tokens i → ∀ r, tokens.getLast? = some r →
    g.sql = trim (slice cs (g.start + 1) (if r.kind = .rparen then r.start else cs.length))

/-- Each collected group is read at one of the tokens. -/
theorem Group.exists_readAt {before : List Token} {skip : Nat} (hlocated : Located tokens)
    (h : g ∈ collect cs before skip tokens) : ∃ i, g.ReadAt cs tokens i := by
  obtain ⟨front, t, rest, before, rfl, hopens, rfl⟩ := Group.exists_of_mem_collect h
  have hl : t.kind = .lparen := by
    simpa using (Bool.and_eq_true_iff.mp hopens).1
  have hclosing : closing? t.depth rest = closeOf 0 rest := hlocated.right.closing?_eq hl
  have hat : closedAt? (front ++ t :: rest) front.length =
      (closeOf 0 rest).map (front.length + 1 + ·) := by
    rw [closedAt?, List.drop_length_add_append]
    rfl
  -- the group is read where it opens, and its text ends where it is closed
  refine ⟨front.length, ?_, by simp [openedBy], fun j r hj hr => ?_, fun hno r hr => ?_⟩
  · rw [← Nat.add_zero front.length, opensNested_append_left, opensNested_zero]
    exact hopens
  · have hkind : r.kind = .rparen := by simpa [hr] using hj.rparen
    obtain ⟨k, hk, rfl⟩ := Option.map_eq_some_iff.mp (hat.symm.trans (closes_iff.mp hj).2)
    have hget : rest[k]? = some r := by
      rwa [Nat.add_assoc, List.getElem?_append_right (by omega), Nat.add_sub_cancel_left,
        Nat.add_comm 1, List.getElem?_cons_succ] at hr
    have hcloser : closer t rest = r := by
      rw [closer, hclosing, hk]
      simp [List.getD, hget]
    simp only [openedBy, hcloser, hkind, beq_self_eq_true, if_true]
  · have hnone : closeOf 0 rest = none := by
      have := (isUnclosed_iff.mp hno).2
      rwa [hat, Option.map_eq_none_iff] at this
    have hrest : rest ≠ [] := by
      rintro rfl
      simp [opensBefore] at hopens
    have hcloser : closer t rest = r := by
      rw [List.getLast?_append_of_ne_nil _ (List.cons_ne_nil t rest), List.getLast?_cons] at hr
      rw [closer, hclosing, hnone]
      exact Option.some.inj hr
    simp only [openedBy, hcloser, beq_iff_eq]

/-! ### What comes of it -/

/-- **The end of an unclosed group** is the last closing parenthesis, if the tokens end in one.
Tokens that do not end in one are a group only if they are closed, and the text of a nested query
that is not closed then reaches to the end. -/
theorem unclosed_group_ends (query : Query) :
    (∀ part, part <:+: tokenize query.sql →
      (isWrapped part = true ↔ Closes part 0 (part.length - 1) ∨
        IsUnclosed part 0 ∧ part.getLast?.any (·.kind == .rparen) = true)) ∧
    ∀ g ∈ query.groups, ∃ i, g.ReadAt query.sql.toList (statementTokens query.sql) i :=
  ⟨fun _ hpart => ((located_tokenize query.sql).part hpart).isWrapped_iff_closes,
    fun _ hg => Group.exists_readAt (located_statementTokens query.sql) hg⟩

/-- A condition with two parentheses that are never closed, and one that is. -/
def openSearch : Query where
  table := "T"
  fields := ["id"]
  sql := "(id = 1 AND EXISTS (SELECT f(x)"

/-- **An open group is taken for a closed one.** Nothing closes the first parenthesis of the search,
but its tokens count as one group, and the nested query, which is not closed either, loses the
parenthesis that closes the arguments of `f`. -/
theorem openSearch_loses_paren :
    let tokens := tokenize openSearch.sql
    isWrapped tokens = true ∧ IsUnclosed tokens 0 ∧ IsUnclosed tokens 6 ∧
      openSearch.groups.map (fun g => (g.start, String.ofList g.sql)) = [(19, "SELECT f(x")] ∧
      String.ofList (trim (openSearch.sql.toList.drop 20)) = "SELECT f(x)" := by
  decide +kernel

end IndexAdvice
