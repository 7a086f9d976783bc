import IndexAdvice.Proofs.CheckedAccess
import IndexAdvice.Proofs.Cutting
import IndexAdvice.Sql.Tokens

/-!
# Checked reading of a text

`Checked.tokenize` reads a query text by position, one character at a time, and looks at the next
character or the one before only where there is one. It finds the tokens of the text
(`Checked.tokenize_eq`), so no position is beyond the end and every piece ends after its start.
-/

namespace IndexAdvice

namespace Checked

open Text Piece

variable {cs rest : List Char} {c : Char} {i : Nat}

/-! ### Where a piece ends -/

/-- Where the string literal ends that goes on at position `i`. -/
def stringEnd (cs : List Char) (i : Nat) : Checked Nat :=
  if i < cs.length then do
    let c ← item cs i
    if c == '\'' then
      if i + 1 < cs.length then
        let d ← item cs (i + 1)
        if d == '\'' then stringEnd cs (i + 2) else return i + 1
      else return i + 1
    else if c == '\\' && i + 1 < cs.length then stringEnd cs (i + 2)
    else stringEnd cs (i + 1)
  else return cs.length
termination_by cs.length - i

/-- Where the number ends that goes on at position `i`. -/
def numberEnd (cs : List Char) (pointSeen : Bool) (i : Nat) : Checked Nat :=
  if i < cs.length then do
    let c ← item cs i
    if isDigit c then numberEnd cs pointSeen (i + 1)
    else if c == '.' && !pointSeen then numberEnd cs true (i + 1)
    else if (c == 'e' || c == 'E') && i + 1 < cs.length then
      let d ← item cs (i + 1)
      if isDigit d || d == '+' || d == '-' then numberEnd cs pointSeen (i + 2) else return i
    else return i
  else return i
termination_by cs.length - i

/-- Whether a number starts at position `i`, where `c` stands. -/
def startsNumber (cs : List Char) (i : Nat) (c : Char) : Checked Bool :=
  if isDigit c then return true
  else if c == '.' then holdsAt isDigit cs (i + 1)
  else return false

/-- Where the bind parameter ends that starts at position `i`, if one does. -/
def parameterEnd (cs : List Char) (i : Nat) : Checked (Option Nat) := do
  let c ← item cs i
  if c == ':' then
    let cast ← holdsBefore (· == ':') cs i
    if cast then return none
    else return (parameterTail none c (cs.drop (i + 1))).map (i + 1 + ·)
  else return (parameterTail none c (cs.drop (i + 1))).map (i + 1 + ·)

/-- The kind of the piece at position `i`, and where it ends. -/
def pieceAt (cs : List Char) (i : Nat) : Checked (Option TokenKind × Nat) := do
  let c ← item cs i
  if isBlank c then return (none, i + 1)
  else if ['-', '-'].isPrefixOf (cs.drop i) then
    return (none, i + 1 + through ['\n'] (cs.drop (i + 1)))
  else if ['/', '*'].isPrefixOf (cs.drop i) then
    return (none, i + 2 + through ['*', '/'] (cs.drop (i + 2)))
  else if c == '\'' then
    let stop ← stringEnd cs (i + 1)
    return (some .string, stop)
  else if c == '"' || c == '\x60' then
    return (some .quoted, i + 1 + through [c] (cs.drop (i + 1)))
  else
    let number ← startsNumber cs i c
    if number then
      let stop ← numberEnd cs false i
      return (some .number, stop)
    else if isLetter c || c == '_' then
      let stop ← passWhile isWordTail cs (i + 1)
      return (some .word, stop)
    else
      match ← parameterEnd cs i with
      | some stop => return (some .placeholder, stop)
      | none =>
        match punctuation c with
        | some kind => return (some kind, i + 1)
        | none =>
          if (cs.drop (i + 1)).head?.any fun d => wideOperators.contains (c, d) then
            return (some .operator, i + 2)
          else if narrowOperators.contains c then return (some .operator, i + 1)
          else return (some .other, i + 1)

/-- A string ends within the text, even where its quote is missing. -/
theorem stringEnd_eq (h : i ≤ cs.length) :
    stringEnd cs i = .ok (i + stringTail (cs.drop i)) := by
  generalize hrest : cs.drop i = rest
  -- each case of `stringTail` says how much is left, which is what the index is checked for
  induction rest using stringTail.induct generalizing i with
  | case1 =>
    have hend := length_le_of_drop hrest
    rw [stringEnd, if_neg (Nat.not_lt.mpr hend), Nat.le_antisymm hend h]
    rfl
  | case2 c =>
    have hlt := lt_length_of_drop hrest
    have hend := length_le_of_drop (drop_succ hrest)
    have hstop : stringEnd cs (i + 1) = .ok (i + 1) := by
      rw [stringEnd, if_neg (Nat.not_lt.mpr hend), Nat.le_antisymm hend hlt]
      rfl
    rw [stringEnd, if_pos hlt, item_eq hrest, ok_bind]
    simp [Nat.not_lt.mpr hend, hstop, stringTail]
  | case3 c d more hc hd ih =>
    have hnext := drop_succ hrest
    rw [stringEnd, if_pos (lt_length_of_drop hrest), item_eq hrest, ok_bind, if_pos hc,
      if_pos (lt_length_of_drop hnext), item_eq hnext, ok_bind, if_pos hd,
      ih (lt_length_of_drop hnext) (drop_succ hnext), stringTail, if_pos hc, if_pos hd]
    exact congrArg Except.ok (by omega)
  | case4 c d more hc hd =>
    have hnext := drop_succ hrest
    rw [stringEnd, if_pos (lt_length_of_drop hrest), item_eq hrest, ok_bind, if_pos hc,
      if_pos (lt_length_of_drop hnext), item_eq hnext, ok_bind, if_neg hd, stringTail, if_pos hc,
      if_neg hd]
    rfl
  | case5 c d more hc hd ih =>
    have hnext := drop_succ hrest
    have hlt := lt_length_of_drop hnext
    rw [stringEnd, if_pos (lt_length_of_drop hrest), item_eq hrest, ok_bind, if_neg hc,
      if_pos (by simp [hd, hlt]), ih hlt (drop_succ hnext), stringTail, if_neg hc, if_pos hd]
    exact congrArg Except.ok (by omega)
  | case6 c d more hc hd ih =>
    have hlt := lt_length_of_drop hrest
    rw [stringEnd, if_pos hlt, item_eq hrest, ok_bind, if_neg hc, if_neg (by simp [hd]),
      ih hlt (drop_succ hrest), stringTail, if_neg hc, if_neg hd]
    exact congrArg Except.ok (by omega)

theorem numberEnd_eq (cs : List Char) (pointSeen : Bool) (i : Nat) :
    numberEnd cs pointSeen i = .ok (i + numberTail pointSeen (cs.drop i)) := by
  have hstop {i : Nat} (hend : cs.length ≤ i) (pointSeen : Bool) :
      numberEnd cs pointSeen i = .ok i := by
    rw [numberEnd, if_neg (Nat.not_lt.mpr hend)]
    rfl
  generalize hrest : cs.drop i = rest
  -- only an exponent takes two characters at once
  induction pointSeen, rest using numberTail.induct generalizing i with
  | case1 pointSeen => exact hstop (length_le_of_drop hrest) pointSeen
  | case2 pointSeen c hc =>
    have hend := length_le_of_drop (drop_succ hrest)
    rw [numberEnd, if_pos (lt_length_of_drop hrest), item_eq hrest, ok_bind, numberTail, if_pos hc]
    by_cases hdigit : isDigit c = true
    · rw [if_pos hdigit, hstop hend]
    · rw [if_neg hdigit, if_pos (by simpa [hdigit] using hc), hstop hend]
  | case3 pointSeen c hc =>
    have hend := length_le_of_drop (drop_succ hrest)
    rw [Bool.or_eq_true, not_or] at hc
    rw [numberEnd, if_pos (lt_length_of_drop hrest), item_eq hrest, ok_bind, numberTail,
      if_neg hc.1, if_neg hc.2, if_neg (by simp; omega), if_neg (by simp [hc])]
    rfl
  | case4 pointSeen c d more hc ih =>
    rw [numberEnd, if_pos (lt_length_of_drop hrest), item_eq hrest, ok_bind, if_pos hc,
      ih _ (drop_succ hrest), numberTail, if_pos hc]
    exact congrArg Except.ok (by omega)
  | case5 pointSeen c d more hdigit hpoint ih =>
    rw [numberEnd, if_pos (lt_length_of_drop hrest), item_eq hrest, ok_bind, if_neg hdigit,
      if_pos hpoint, ih _ (drop_succ hrest), numberTail, if_neg hdigit, if_pos hpoint]
    exact congrArg Except.ok (by omega)
  | case6 pointSeen c d more hdigit hpoint hexponent ih =>
    have hnext := drop_succ hrest
    have hlt := lt_length_of_drop hnext
    have hletter := (Bool.and_eq_true_iff.mp hexponent)
    rw [numberEnd, if_pos (lt_length_of_drop hrest), item_eq hrest, ok_bind, if_neg hdigit,
      if_neg hpoint, if_pos (by simp [hletter.1, hlt]), item_eq hnext, ok_bind, if_pos hletter.2,
      ih _ (drop_succ hnext), numberTail, if_neg hdigit, if_neg hpoint, if_pos hexponent]
    exact congrArg Except.ok (by omega)
  | case7 pointSeen c d more hdigit hpoint hexponent =>
    have hnext := drop_succ hrest
    rw [numberEnd, if_pos (lt_length_of_drop hrest), item_eq hrest, ok_bind, if_neg hdigit,
      if_neg hpoint, item_eq hnext, ok_bind, numberTail, if_neg hdigit, if_neg hpoint,
      if_neg hexponent]
    by_cases hletter : (c == 'e' || c == 'E') = true
    · rw [hletter, Bool.true_and] at hexponent
      rw [if_neg hexponent]
      exact ite_self _
    · rw [if_neg (by simp [hletter])]
      rfl

/-- The digit after a point is looked for where there is a character. -/
theorem startsNumber_eq (h : cs.drop i = c :: rest) :
    startsNumber cs i c = .ok (isDigit c || (c == '.' && rest.head?.any isDigit)) := by
  rw [startsNumber, holdsAt_eq, drop_succ h]
  cases isDigit c with
  | true => rfl
  | false => cases c == '.' <;> rfl

/-- The colon of a parameter is told from a cast by the characters on both sides of it, which are
read only where they are there. -/
theorem parameterEnd_eq (h : cs.drop i = c :: rest) :
    parameterEnd cs i = .ok ((parameterTail (previous cs i) c rest).map (i + 1 + ·)) := by
  have hcast : (previous cs i).any (· == ':') = (previous cs i == some ':') := by
    cases previous cs i <;> rfl
  rw [parameterEnd, item_eq h, ok_bind, drop_succ h,
    holdsBefore_eq _ (Nat.le_of_lt (lt_length_of_drop h)), ok_bind, hcast]
  by_cases hc : (c == ':') = true
  · obtain rfl : c = ':' := by simpa using hc
    rw [if_pos hc]
    cases hb : previous cs i == some ':' <;> simp [parameterTail, hb]
  · rw [if_neg hc, parameterTail, parameterTail]
    simp only [hc]
    rfl

/-- A number goes on after its first character as it goes on from there. -/
theorem numberTail_cons (hc : (isDigit c || (c == '.' && rest.head?.any isDigit)) = true) :
    numberTail false (c :: rest) = numberTail (c == '.') rest + 1 := by
  have hpoint : isDigit '.' = false := by decide +kernel
  cases hdigit : isDigit c with
  | true =>
    have hne : (c == '.') = false := beq_eq_false_iff_ne.mpr fun heq => by
      rw [heq, hpoint] at hdigit
      cases hdigit
    cases rest <;> simp [numberTail, hdigit, hne]
  | false =>
    have hdot : (c == '.') = true := by
      rw [hdigit, Bool.false_or, Bool.and_eq_true] at hc
      exact hc.1
    cases rest <;> simp [numberTail, hdigit, hdot]

/-- The kind of a piece that starts at position `i`, and where it ends. -/
def located (i : Nat) (piece : Option TokenKind × Nat) : Option TokenKind × Nat :=
  (piece.1, i + 1 + piece.2)

/-- **The piece at a position** is found with no fault. -/
theorem pieceAt_eq (h : cs.drop i = c :: rest) :
    pieceAt cs i = .ok (located i (next (previous cs i) c rest)) := by
  have hnext := drop_succ h
  have hmark (c' d' : Char) :
      [c', d'].isPrefixOf (cs.drop i) = (c == c' && rest.head? == some d') := by
    rw [h, List.isPrefixOf_cons_cons, BEq.comm]
    cases rest with
    | nil => rfl
    | cons d more =>
      rw [List.isPrefixOf_cons_cons, List.isPrefixOf_nil_left, Bool.and_true, BEq.comm (a := d')]
      rfl
  rw [pieceAt, item_eq h, ok_bind, hmark, hmark, hnext, next]
  -- the tests come in the order of `next`
  refine ite_eq_ok (fun _ => rfl) fun _ => ?_
  refine ite_eq_ok (fun _ => rfl) fun _ => ?_
  refine ite_eq_ok (fun hcomment => ?_) fun _ => ?_
  · obtain ⟨more, rfl⟩ : ∃ more, rest = '*' :: more := by
      cases rest with
      | nil => simp at hcomment
      | cons d more => exact ⟨more, by simp at hcomment; rw [hcomment.2]⟩
    rw [drop_succ hnext, List.tail_cons, Nat.add_right_comm (i + 1) 1]
    rfl
  refine ite_eq_ok (fun _ => ?_) fun _ => ?_
  · rw [stringEnd_eq (lt_length_of_drop h), hnext]
    rfl
  refine ite_eq_ok (fun _ => rfl) fun _ => ?_
  rw [startsNumber_eq h, ok_bind]
  refine ite_eq_ok (fun hnumber => ?_) fun _ => ?_
  · rw [numberEnd_eq, h, numberTail_cons hnumber, ok_bind, Nat.add_comm (numberTail _ _),
      ← Nat.add_assoc]
    rfl
  refine ite_eq_ok (fun _ => ?_) fun _ => ?_
  · rw [passWhile_eq, hnext]
    rfl
  rw [parameterEnd_eq h, ok_bind]
  cases parameterTail (previous cs i) c rest with
  | some n => rfl
  | none =>
    cases punctuation c with
    | some kind => rfl
    | none =>
      refine ite_eq_ok (fun _ => rfl) fun _ => ?_
      exact ite_eq_ok (fun _ => rfl) fun _ => rfl

/-! ### Tokens -/

/-- The tokens from position `i` on, where `depth` parentheses are open. -/
def tokensFrom (cs : List Char) (i depth : Nat) : Checked (List Token) :=
  if i < cs.length then do
    let (kind, stop) ← pieceAt cs i
    let ⟨_⟩ ← less i stop
    let text := String.ofList (slice cs i stop)
    match kind with
    | none => tokensFrom cs stop depth
    | some .lparen =>
      let more ← tokensFrom cs stop (depth + 1)
      return ⟨.lparen, text, i, stop, depth⟩ :: more
    | some .rparen =>
      let more ← tokensFrom cs stop (depth - 1)
      return ⟨.rparen, text, i, stop, depth - 1⟩ :: more
    | some kind =>
      let more ← tokensFrom cs stop depth
      return ⟨kind, text, i, stop, depth⟩ :: more
  else return []
termination_by cs.length - i

/-- The tokens of a query text. -/
def tokenize (sql : String) : Checked (List Token) :=
  tokensFrom sql.toList 0 0

/-- What is left to be cut after a piece of `n` more characters than its first. -/
theorem cut_rest (h : cs.drop i = c :: rest) {n : Nat} (hn : n ≤ rest.length) :
    cut (some c) n rest = cut (previous cs (i + 1 + n)) 0 (cs.drop (i + 1 + n)) := by
  have htake : cs.take (i + 1 + n) = cs.take i ++ c :: rest.take n := by
    rw [Nat.add_assoc, Nat.add_comm 1 n, List.take_add, h, List.take_succ_cons]
  have hbefore : previous cs (i + 1 + n) = (rest.take n).getLast?.or (some c) := by
    rw [previous, htake, List.getLast?_append_cons, List.getLast?_cons]
    cases (rest.take n).getLast? <;> rfl
  have hcut : cut (some c) n (rest.take n ++ rest.drop n) = [] ++ cut (some c) n rest := by
    rw [List.take_append_drop, List.nil_append]
  rw [hbefore, ← List.drop_drop, drop_succ h, (cut_append (by simp [hn]) hcut (by simp)).2]

/-- **The tokenizer does not fault**, and its positions are those of the pieces. -/
theorem tokensFrom_eq (cs : List Char) (i depth : Nat) :
    tokensFrom cs i depth =
      .ok (Token.locate i depth (cut (previous cs i) 0 (cs.drop i))) := by
  induction hrest : cs.length - i using Nat.strongRecOn generalizing i depth with
  | ind m ih =>
    subst hrest
    cases h : cs.drop i with
    | nil =>
      rw [tokensFrom, if_neg (Nat.not_lt.mpr (length_le_of_drop h))]
      rfl
    | cons c rest =>
      have hlt := lt_length_of_drop h
      have hn := next_le (previous cs i) c rest
      rw [tokensFrom, if_pos hlt, pieceAt_eq h, ok_bind, cut, cut_rest h hn]
      generalize next (previous cs i) c rest = piece at hn ⊢
      obtain ⟨kind, n⟩ := piece
      have ih (depth : Nat) := ih _ (by omega) (i + 1 + n) depth rfl
      have hslice : slice cs i (i + 1 + n) = c :: rest.take n := by
        rw [slice, h, Nat.add_assoc, Nat.add_sub_cancel_left, Nat.add_comm 1 n, List.take_succ_cons]
      have hstop : i + (c :: rest.take n).length = i + 1 + n := by
        rw [List.length_cons, List.length_take, Nat.min_eq_left hn]
        omega
      simp only [located]
      rw [less_eq (by omega), ok_bind, hslice]
      cases kind with
      | none => simp only [ih, Token.locate, hstop]
      | some kind => cases kind <;> simp only [ih, ok_bind, Token.locate, hstop] <;> rfl

/-- **Tokens** are found with no fault. -/
theorem tokenize_eq (sql : String) : tokenize sql = .ok (IndexAdvice.tokenize sql) := by
  rw [tokenize, tokensFrom_eq]
  rfl

end Checked

end IndexAdvice
