import IndexAdvice.Proofs.AlikeSpans
import IndexAdvice.Proofs.CheckedAccess

/-!
# Checked division into clauses

The division looks at the token after a keyword and at the one before it, and where a join starts
it goes on to the word `JOIN` without a look at the end. A join is only taken to start where `JOIN`
comes after its modifiers, so the word is found (`Checked.seek_join`), and every token is in one
span or opens one (`Checked.divide_eq`).
-/

namespace IndexAdvice

namespace Checked

open IndexAdvice.Span

variable {tokens rest held : List Token} {t : Token} {keyword : String} {i : Nat}

/-! ### What a token opens -/

/-- Whether the tokens from position `i` on are join modifiers, if any, and then `JOIN`. -/
def startsJoin (tokens : List Token) (i : Nat) : Checked Bool := do
  let j ← passWhile (fun t => t.depth == 0 && t.isKeyword Keyword.joinModifier) tokens i
  holdsAt (·.isKeyword ["JOIN"]) tokens j

/-- The clause that the token at position `i` opens together with the token after it. -/
def pair? (tokens : List Token) (i : Nat) (t : Token) : Checked (Option String) :=
  match Keyword.paired.lookup t.upper with
  | none => return none
  | some second => do
    let follows ← holdsAt (·.isKeyword [second]) tokens (i + 1)
    if follows then return some (t.upper ++ " " ++ second) else return none

/-- Whether a join starts at position `i`. -/
def joinsAt (tokens : List Token) (i : Nat) (t : Token) : Checked Bool :=
  if t.upper == "JOIN" then return true
  else if Keyword.joinModifier.contains t.upper then startsJoin tokens i
  else return false

/-- Whether the token at position `i` is the `FROM` of `DISTINCT FROM`. -/
def followsDistinct (tokens : List Token) (i : Nat) (t : Token) : Checked Bool :=
  if t.upper == "FROM" then holdsBefore (·.isKeyword ["DISTINCT"]) tokens i else return false

/-- What the token at position `i` does. -/
def openingAt (tokens : List Token) (i : Nat) : Checked Opening := do
  let t ← item tokens i
  if t.depth == 0 && t.kind == .word then
    if Keyword.setOperator.contains t.upper then return .stop
    else
      match ← pair? tokens i t with
      | some next => return .pair next
      | none =>
        let join ← joinsAt tokens i t
        if join then return .join
        else if Keyword.clause.contains t.upper then
          let distinct ← followsDistinct tokens i t
          if distinct then return .nothing else return .clause t.upper
        else return .nothing
  else return .nothing

/-- The modifiers of a join are passed over only as far as there are tokens. -/
theorem startsJoin_eq (tokens : List Token) (i : Nat) :
    startsJoin tokens i = .ok (Span.startsJoin (tokens.drop i)) := by
  rw [startsJoin, passWhile_eq, ok_bind, holdsAt_eq, drop_takeWhile]
  rfl

theorem pair?_eq (h : tokens.drop i = t :: rest) :
    pair? tokens i t = .ok (Span.pair? t rest) := by
  rw [pair?, Span.pair?]
  cases Keyword.paired.lookup t.upper with
  | none => rfl
  | some second =>
    simp only
    rw [holdsAt_eq, drop_succ h, ok_bind]
    split <;> rfl

theorem joinsAt_eq (h : tokens.drop i = t :: rest) : joinsAt tokens i t = .ok (t.upper == "JOIN" ||
    (Keyword.joinModifier.contains t.upper && Span.startsJoin (t :: rest))) := by
  rw [joinsAt, startsJoin_eq, h]
  cases t.upper == "JOIN" with
  | true => rfl
  | false => cases Keyword.joinModifier.contains t.upper <;> rfl

theorem followsDistinct_eq (h : i ≤ tokens.length) (t : Token) : followsDistinct tokens i t =
    .ok (t.upper == "FROM" && (previous tokens i).any (·.isKeyword ["DISTINCT"])) := by
  rw [followsDistinct, holdsBefore_eq _ h]
  cases t.upper == "FROM" <;> rfl

/-- **What the token at a position does** is found with no fault. -/
theorem openingAt_eq (h : tokens.drop i = t :: rest) :
    openingAt tokens i = .ok (opening (previous tokens i) t rest) := by
  rw [openingAt, item_eq h, ok_bind, opening, pair?_eq h, ok_bind, joinsAt_eq h, ok_bind,
    followsDistinct_eq (Nat.le_of_lt (lt_length_of_drop h)), ok_bind]
  by_cases hword : (t.depth == 0 && t.kind == .word) = true
  · have hword' : (t.depth != 0 || t.kind != .word) = false := by simpa using hword
    rw [if_pos hword, hword', if_neg Bool.false_ne_true]
    split
    · rfl
    · cases Span.pair? t rest with
      | some next => rfl
      | none =>
        simp only
        split
        · rfl
        · cases Keyword.clause.contains t.upper with
          | false => rfl
          | true => cases t.upper == "FROM" && Option.any _ (previous tokens i) <;> rfl
  · have hword' : (t.depth != 0 || t.kind != .word) = true := by simpa [imp_iff_not_or] using hword
    rw [if_neg hword, hword', if_pos rfl]
    rfl

/-! ### Dividing -/

/-- The spans from position `i` on, where the span of `keyword` is open and holds the tokens
`held`. -/
def divideFrom (tokens : List Token) (keyword : String) (held : List Token) (i : Nat) :
    Checked (List Span) :=
  if i < tokens.length then do
    match ← openingAt tokens i with
    | .nothing =>
      let t ← item tokens i
      divideFrom tokens keyword (held ++ [t]) (i + 1)
    | .stop => return [⟨keyword, held⟩]
    | .pair next =>
      let spans ← divideFrom tokens next [] (i + 2)
      return ⟨keyword, held⟩ :: spans
    | .join =>
      let j ← seek (·.isKeyword ["JOIN"]) tokens i
      let ⟨_⟩ ← less i (j + 1)
      let spans ← divideFrom tokens "JOIN" ((tokens.drop i).take (j + 1 - i)) (j + 1)
      return ⟨keyword, held⟩ :: spans
    | .clause next =>
      let spans ← divideFrom tokens next [] (i + 1)
      return ⟨keyword, held⟩ :: spans
  else return [⟨keyword, held⟩]
termination_by tokens.length - i

/-- The spans of a query. -/
def divide (tokens : List Token) : Checked (List Span) := do
  let first ← item tokens 0
  if first.isKeyword ("WHERE" :: Keyword.statement) then divideFrom tokens first.upper [] 1
  else divideFrom tokens "WHERE" [] 0

/-- A join goes on through its first `JOIN`. -/
theorem divideFrom_joinHead {front : List Token} {w : Token}
    (hfront : ∀ t ∈ front, t.isKeyword ["JOIN"] = false) (hw : w.isKeyword ["JOIN"] = true)
    (before : Option Token) (held rest : List Token) :
    Span.divideFrom keyword .joinHead before held (front ++ w :: rest) =
      Span.divideFrom keyword .body (some w) (w :: (front.reverse ++ held)) rest := by
  induction front generalizing before held with
  | nil =>
    rw [List.nil_append, Span.divideFrom, afterJoinHead, if_pos hw]
    rfl
  | cons t front ih =>
    have ht := hfront t List.mem_cons_self
    rw [List.cons_append, Span.divideFrom, afterJoinHead, if_neg (by simp [ht]),
      ih fun u hu => hfront u (List.mem_cons_of_mem t hu), List.reverse_cons, List.append_assoc]
    rfl

/-- **The scan for `JOIN` meets it.** Where a join starts, `JOIN` comes at some position `j`, and the
tokens up to it are the head of the join. -/
theorem seek_join (h : Span.startsJoin (tokens.drop i) = true) :
    ∃ j front w rest, seek (·.isKeyword ["JOIN"]) tokens i = .ok j ∧ i ≤ j ∧
      tokens.drop i = front ++ w :: rest ∧ (∀ t ∈ front, t.isKeyword ["JOIN"] = false) ∧
      w.isKeyword ["JOIN"] = true ∧ j = i + front.length := by
  have hfound : ∃ t ∈ tokens.drop i, t.isKeyword ["JOIN"] = true := by
    rw [Span.startsJoin, Option.any_eq_true] at h
    obtain ⟨t, hhead, ht⟩ := h
    exact ⟨t, (List.dropWhile_sublist _).mem (List.mem_of_head? hhead), ht⟩
  have hseek := seek_eq hfound
  let front := (tokens.drop i).takeWhile fun t => !t.isKeyword ["JOIN"]
  have hfront : ∀ t ∈ front, t.isKeyword ["JOIN"] = false := fun t ht => by
    simpa using List.all_eq_true.mp List.all_takeWhile t ht
  have hsplit : front ++ (tokens.drop i).dropWhile (fun t => !t.isKeyword ["JOIN"]) =
      tokens.drop i := List.takeWhile_append_dropWhile
  cases hrest : (tokens.drop i).dropWhile fun t => !t.isKeyword ["JOIN"] with
  | nil =>
    obtain ⟨t, ht, hjoin⟩ := hfound
    rw [hrest, List.append_nil] at hsplit
    rw [← hsplit] at ht
    exact absurd hjoin (by simp [hfront t ht])
  | cons w rest =>
    have hw : w.isKeyword ["JOIN"] = true := by
      have hstop := List.head?_dropWhile_not (fun t : Token => !t.isKeyword ["JOIN"])
        (tokens.drop i)
      rw [hrest] at hstop
      simpa using hstop
    exact ⟨_, front, w, rest, hseek, Nat.le_add_right i _, hrest ▸ hsplit.symm, hfront, hw, rfl⟩

/-- Dividing by index is dividing the rest of the list, with the tokens held so far turned around.
-/
theorem divideFrom_eq (tokens : List Token) (keyword : String) (held : List Token) (i : Nat) :
    divideFrom tokens keyword held i =
      .ok (Span.divideFrom keyword .body (previous tokens i) held.reverse (tokens.drop i)) := by
  induction hm : tokens.length - i using Nat.strongRecOn generalizing keyword held i with
  | ind m ih =>
    subst hm
    cases h : tokens.drop i with
    | nil =>
      rw [divideFrom, if_neg (Nat.not_lt.mpr (length_le_of_drop h)), Span.divideFrom,
        List.reverse_reverse]
      rfl
    | cons t rest =>
      have hlt := lt_length_of_drop h
      have hnext := drop_succ h
      have hprevious := previous_succ h
      rw [divideFrom, if_pos hlt, openingAt_eq h, ok_bind, Span.divideFrom, List.reverse_reverse]
      have hfits := opening_fits (previous tokens i) t rest
      generalize opening (previous tokens i) t rest = o at hfits ⊢
      -- the index moves past what has been opened: one token, a pair or the head of a join
      cases o with
      | nothing =>
        simp only
        rw [item_eq h, ok_bind, ih _ (by omega) _ _ (i + 1) rfl, hprevious, hnext,
          List.reverse_concat]
      | stop => rfl
      | clause next =>
        simp only
        rw [ih _ (by omega) _ _ (i + 1) rfl, hprevious, hnext]
        rfl
      | pair next =>
        obtain ⟨second, more, rfl⟩ : ∃ second more, rest = second :: more := by
          cases rest with
          | nil => exact absurd hfits.2 (by simp)
          | cons second more => exact ⟨second, more, rfl⟩
        simp only
        rw [ih _ (by omega) _ _ (i + 2) rfl, previous_succ hnext, drop_succ hnext, Span.divideFrom]
        rfl
      | join =>
        obtain ⟨j, front, w, more, hseek, hle, hsplit, hfront, hw, hj⟩ :=
          seek_join (i := i) (by rw [h]; exact hfits)
        have hwdrop : tokens.drop j = w :: more := by
          rw [hj, ← List.drop_drop, hsplit, List.drop_left]
        have hhead : (tokens.drop i).take (j + 1 - i) = front ++ [w] := by
          rw [hsplit, hj, Nat.add_assoc, Nat.add_sub_cancel_left, List.take_length_add_append]
          rfl
        have hjoin : Span.divideFrom "JOIN" (afterJoinHead t) (some t) [t] rest =
            Span.divideFrom "JOIN" .body (some w) (front ++ [w]).reverse more := by
          rw [List.reverse_concat, ← List.append_nil front.reverse,
            ← divideFrom_joinHead hfront hw none [] more, ← hsplit, h]
          rfl
        simp only
        rw [hseek, ok_bind, less_eq (by omega), ok_bind, hhead, ih _ (by omega) _ _ (j + 1) rfl,
          previous_succ hwdrop, drop_succ hwdrop, hjoin]
        rfl

/-- **Clauses** are divided with no fault. -/
theorem divide_eq (h : tokens ≠ []) : divide tokens = .ok (Span.divide tokens) := by
  cases tokens with
  | nil => exact absurd rfl h
  | cons t rest =>
    rw [divide, item_zero, ok_bind, divideFrom_eq, divideFrom_eq, Span.divide]
    split <;> rfl

/-- Without tokens there is no first one to look at. -/
example : divide [] = .error .outOfRange := by
  rfl

end Checked

end IndexAdvice
