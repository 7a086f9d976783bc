import IndexAdvice.Clause.Cut
import IndexAdvice.Clause.Scope
import IndexAdvice.Proofs.CheckedAccess

/-!
# Checked reading of tokens

Parentheses, separators, references and aliases are read by position: from the token at `i` on, up
to a position that is given back. Each of these programs gives what its counterpart reads in the
tokens from position `i` on.
-/

namespace IndexAdvice

namespace Checked

variable {tokens rest after : List Token} {t : Token} {i : Nat} {ref : ColumnRef}

/-! ### Parentheses -/

/-- The position of the parenthesis that closes the one at `index`; the last one if none does. -/
def matchingParen (tokens : List Token) (index : Nat) : Checked Nat := do
  let first ← item tokens index
  match ← find? (fun t => t.kind == .rparen && t.depth == first.depth) tokens (index + 1) with
  | some j => return j
  | none => return tokens.length - 1

/-- Whether the tokens are one parenthesised group. -/
def isWrapped (tokens : List Token) : Checked Bool :=
  if tokens.length < 2 then return false
  else do
    let first ← item tokens 0
    if first.kind == .lparen then
      let close ← matchingParen tokens 0
      if close == tokens.length - 1 then
        let last ← itemBack tokens 1
        return last.kind == .rparen
      else return false
    else return false

/-- The search for a closer starts at a token and stays within the list. -/
theorem matchingParen_eq (h : i < tokens.length) :
    matchingParen tokens i = .ok (Token.matchingParen tokens i) := by
  have hdrop := List.drop_eq_getElem_cons h
  rw [matchingParen, item_eq hdrop, ok_bind, find?_eq, ok_bind, Token.matchingParen,
    getElem?_of_drop hdrop]
  simp only [Token.closing?]
  cases (tokens.drop (i + 1)).findIdx? _ <;> rfl

/-- After a group the tokens go on behind its closing parenthesis. -/
theorem drop_matchingParen (h : tokens.drop i = t :: rest) :
    tokens.drop (Token.matchingParen tokens i + 1) = Token.afterGroup t rest := by
  simp only [Token.matchingParen, getElem?_of_drop h, drop_succ h, Token.afterGroup]
  cases Token.closing? t.depth rest with
  | some j =>
    simp only
    rw [← drop_succ h, List.drop_drop, Nat.add_assoc]
  | none => exact List.drop_eq_nil_of_le (Nat.le_add_of_sub_le (Nat.le_refl _))

theorem isWrapped_eq (tokens : List Token) :
    isWrapped tokens = .ok (Token.isWrapped tokens) := by
  match tokens with
  | [] => rfl
  | [_] => rfl
  | t :: u :: us =>
    obtain ⟨front, last, hlast⟩ : ∃ front last, u :: us = front ++ [last] :=
      ⟨_, _, (List.dropLast_append_getLast (List.cons_ne_nil u us)).symm⟩
    have hback : itemBack (t :: u :: us) 1 = .ok last := by
      rw [hlast, ← List.cons_append, itemBack_concat]
    rw [isWrapped, if_neg (by simp), item_zero, ok_bind, matchingParen_eq (by simp), ok_bind,
      hback, ok_bind, Token.isWrapped, hlast, List.getLast?_concat]
    cases t.kind == .lparen with
    | false => rfl
    | true => cases Token.matchingParen (t :: (front ++ [last])) 0 == _ <;> rfl

/-! ### Cutting -/

/-- The parts of the tokens between separators at their least depth. -/
def cut (isSeparator : Token → Bool) (betweens : Bool) (tokens : List Token) :
    Checked (List (List Token)) :=
  if tokens.isEmpty then return []
  else do
    let base ← least (tokens.map Token.depth)
    return Token.cutFrom base isSeparator betweens false [] tokens

/-- The operands of the outermost `OR`s. -/
def alternatives (tokens : List Token) : Checked (List (List Token)) :=
  cut (·.isKeyword ["OR"]) false tokens

/-- The operands of the outermost `AND`s. -/
def conjuncts (tokens : List Token) : Checked (List (List Token)) :=
  cut (·.isKeyword ["AND"]) true tokens

/-- The items between the outermost commas. -/
def items (tokens : List Token) : Checked (List (List Token)) :=
  cut (·.kind == .comma) false tokens

theorem cut_eq (isSeparator : Token → Bool) (betweens : Bool) (tokens : List Token) :
    cut isSeparator betweens tokens =
      .ok (Token.cutFrom (Token.baseDepth tokens) isSeparator betweens false [] tokens) := by
  cases tokens with
  | nil => rfl
  | cons t rest =>
    rw [cut, if_neg (by simp), least_eq (by simp)]
    rfl

theorem alternatives_eq (tokens : List Token) :
    alternatives tokens = .ok (Token.alternatives tokens) :=
  cut_eq _ _ tokens

theorem conjuncts_eq (tokens : List Token) :
    conjuncts tokens = .ok (Token.conjuncts tokens) :=
  cut_eq _ _ tokens

theorem items_eq (tokens : List Token) : items tokens = .ok (Token.items tokens) :=
  cut_eq _ _ tokens

/-! ### References -/

/-- The names that follow each other from position `j` on, each after a dot, and where they end. -/
def dottedNames (tokens : List Token) (j : Nat) : Checked (List String × Nat) :=
  if j + 1 < tokens.length then do
    let dot ← item tokens j
    let name ← item tokens (j + 1)
    if dot.kind == .dot && name.isIdentifier then
      let (names, stop) ← dottedNames tokens (j + 2)
      return (name.name :: names, stop)
    else return ([], j)
  else return ([], j)
termination_by tokens.length - j

/-- The last name but one, if there are two. -/
def qualifier? (names : List String) : Checked (Option String) :=
  if 1 < names.length then do
    let name ← itemBack names 2
    return some name
  else return none

/-- The reference that names make. -/
def refOf (names : List String) : Checked ColumnRef := do
  let qualifier ← qualifier? names
  let name ← itemBack names 1
  return ⟨qualifier, name⟩

/-- The reference that starts at position `i`, and where it ends. -/
def columnRef (tokens : List Token) (i : Nat) : Checked (Option (ColumnRef × Nat)) :=
  if i < tokens.length then do
    let first ← item tokens i
    if first.isIdentifier then
      let (names, stop) ← dottedNames tokens (i + 1)
      if names.isEmpty && first.isKeyword Keyword.reserved then return none
      else
        let ref ← refOf (first.name :: names)
        return some (ref, stop)
    else return none
  else return none

/-- Reading the names stops inside the tokens or at their end, where the tokens after it start. -/
theorem dottedNames_eq {j : Nat} (hj : j ≤ tokens.length) :
    ∃ stop, j ≤ stop ∧ stop ≤ tokens.length ∧
      tokens.drop stop = (ColumnRef.dottedNames (tokens.drop j)).2 ∧
      dottedNames tokens j = .ok ((ColumnRef.dottedNames (tokens.drop j)).1, stop) := by
  generalize h : tokens.drop j = rest
  -- a dot and a name are read together, so the index stays within the list
  induction rest using ColumnRef.dottedNames.induct generalizing j with
  | case1 d t more hdot ih =>
    have hnext := drop_succ h
    have hlt := lt_length_of_drop hnext
    obtain ⟨stop, hle, hstop, hafter, hread⟩ := ih hlt (drop_succ hnext)
    refine ⟨stop, by omega, hstop, ?_, ?_⟩
    · rw [hafter, ColumnRef.dottedNames, if_pos hdot]
    · rw [dottedNames, if_pos hlt, item_eq h, ok_bind, item_eq hnext, ok_bind, if_pos hdot, hread,
        ColumnRef.dottedNames, if_pos hdot]
      rfl
  | case2 d t more hdot =>
    have hnext := drop_succ h
    refine ⟨j, Nat.le_refl j, hj, ?_, ?_⟩
    · rw [h, ColumnRef.dottedNames, if_neg hdot]
    · rw [dottedNames, if_pos (lt_length_of_drop hnext), item_eq h, ok_bind, item_eq hnext, ok_bind,
        if_neg hdot, ColumnRef.dottedNames, if_neg hdot]
      rfl
  | case3 rest hshort =>
    have hlength := congrArg List.length h
    rw [List.length_drop] at hlength
    obtain ⟨hread, hle⟩ : ColumnRef.dottedNames rest = ([], rest) ∧ rest.length ≤ 1 := by
      rcases rest with _ | ⟨d, _ | ⟨t, more⟩⟩
      · exact ⟨rfl, Nat.zero_le 1⟩
      · exact ⟨rfl, Nat.le_refl 1⟩
      · exact absurd rfl (hshort d t more)
    have hend : ¬ j + 1 < tokens.length := by omega
    refine ⟨j, Nat.le_refl j, hj, ?_, ?_⟩
    · rw [h, hread]
    · rw [dottedNames, if_neg hend, hread]
      rfl

/-- A reference of several names is made of the last two. -/
theorem refOf_eq (first : String) (names : List String) :
    refOf (first :: names) = .ok (ColumnRef.ofNames none first names) := by
  have hlast (before : Option String) (first next : String) (names : List String) :
      ∃ front x y, first :: next :: names = front ++ [x, y] ∧
        ColumnRef.ofNames before first (next :: names) = ⟨some x, y⟩ := by
    induction names generalizing before first next with
    | nil => exact ⟨[], first, next, rfl, rfl⟩
    | cons more names ih =>
      obtain ⟨front, x, y, hnames, href⟩ := ih (some first) next more
      exact ⟨first :: front, x, y, congrArg (first :: ·) hnames, href⟩
  cases names with
  | nil => rfl
  | cons next names =>
    obtain ⟨front, x, y, hnames, href⟩ := hlast none first next names
    have hback : itemBack (front ++ [x, y]) 1 = .ok y := by
      rw [← itemBack_concat (front ++ [x]) y, List.append_assoc]
      rfl
    rw [href, refOf, qualifier?, if_pos (by simp), hnames, itemBack_two, hback]
    rfl

/-- Reading a reference stops after its start, where the tokens after it start. -/
theorem columnRef_eq (tokens : List Token) (i : Nat) :
    ∃ stop, columnRef tokens i = .ok ((ColumnRef.read? (tokens.drop i)).map fun (ref, _) =>
        (ref, stop)) ∧
      ∀ ref after, ColumnRef.read? (tokens.drop i) = some (ref, after) →
        i < stop ∧ stop ≤ tokens.length ∧ tokens.drop stop = after := by
  cases h : tokens.drop i with
  | nil =>
    rw [columnRef, if_neg (Nat.not_lt.mpr (length_le_of_drop h))]
    exact ⟨i, rfl, fun ref after hread => by simp [ColumnRef.read?] at hread⟩
  | cons t rest =>
    have hlt := lt_length_of_drop h
    obtain ⟨stop, hle, hstop, hafter, hnames⟩ := dottedNames_eq hlt
    rw [drop_succ h] at hnames hafter
    refine ⟨stop, ?_, fun ref after hread => ?_⟩
    · rw [columnRef, if_pos hlt, item_eq h, ok_bind, hnames, ok_bind, ColumnRef.read?]
      simp only [refOf_eq, ok_bind]
      cases t.isIdentifier with
      | false => rfl
      | true => cases (ColumnRef.dottedNames rest).1.isEmpty && t.isKeyword Keyword.reserved <;> rfl
    · simp only [ColumnRef.read?] at hread
      split at hread
      · cases hread
      · obtain ⟨-, rfl⟩ := Prod.mk.inj (Option.some.inj hread)
        exact ⟨hle, hstop, hafter⟩

/-- No name is read past the end. -/
theorem columnRef_eq_none (h : ColumnRef.read? (tokens.drop i) = none) :
    columnRef tokens i = .ok none := by
  obtain ⟨stop, hread, -⟩ := columnRef_eq tokens i
  rw [hread, h]
  rfl

/-- A column read at a place takes up one token at least, and none past the end. -/
theorem columnRef_eq_some (h : ColumnRef.read? (tokens.drop i) = some (ref, after)) :
    ∃ stop, i < stop ∧ stop ≤ tokens.length ∧ tokens.drop stop = after ∧
      columnRef tokens i = .ok (some (ref, stop)) := by
  obtain ⟨stop, hread, hstop⟩ := columnRef_eq tokens i
  obtain ⟨hlt, hle, hafter⟩ := hstop ref after h
  exact ⟨stop, hlt, hle, hafter, by rw [hread, h]; rfl⟩

/-- The reference that the tokens from position `i` on are. -/
def wholeRef (tokens : List Token) (i : Nat) : Checked (Option ColumnRef) := do
  match ← columnRef tokens i with
  | none => return none
  | some (ref, stop) => if stop == tokens.length then return some ref else return none

theorem wholeRef_eq (tokens : List Token) (i : Nat) :
    wholeRef tokens i = .ok (ColumnRef.whole? (tokens.drop i)) := by
  rw [wholeRef, ColumnRef.whole?]
  cases hread : ColumnRef.read? (tokens.drop i) with
  | none =>
    rw [columnRef_eq_none hread]
    rfl
  | some found =>
    obtain ⟨ref, after⟩ := found
    obtain ⟨stop, -, hle, hafter, hcolumn⟩ := columnRef_eq_some hread
    rw [hcolumn, ok_bind]
    cases after with
    | nil =>
      have hend := Nat.le_antisymm hle (length_le_of_drop hafter)
      simp [hend]
    | cons t rest =>
      have hlt := lt_length_of_drop hafter
      simp [Nat.ne_of_lt hlt]

/-- The name at position `i`, if it may be an alias. -/
def nameAt (tokens : List Token) (i : Nat) : Checked (Option String) :=
  if i < tokens.length then do
    let t ← item tokens i
    if t.isIdentifier && !t.isKeyword Keyword.reserved then return some t.name else return none
  else return none

/-- The alias that stands at position `i`, with or without `AS`. -/
def aliasAt (tokens : List Token) (i : Nat) : Checked (Option String) := do
  let marked ← holdsAt (·.isKeyword ["AS"]) tokens i
  nameAt tokens (if marked then i + 1 else i)

theorem nameAt_eq (tokens : List Token) (i : Nat) :
    nameAt tokens i = .ok (match tokens.drop i with
      | t :: _ => if t.isIdentifier && !t.isKeyword Keyword.reserved then some t.name else none
      | [] => none) := by
  cases h : tokens.drop i with
  | nil =>
    rw [nameAt, if_neg (Nat.not_lt.mpr (length_le_of_drop h))]
    rfl
  | cons t rest =>
    rw [nameAt, if_pos (lt_length_of_drop h), item_eq h, ok_bind]
    simp only
    split <;> rfl

theorem aliasAt_eq (tokens : List Token) (i : Nat) :
    aliasAt tokens i = .ok (aliasAt? (tokens.drop i)) := by
  rw [aliasAt, holdsAt_eq, ok_bind, nameAt_eq]
  cases h : tokens.drop i with
  | nil => simp [h, aliasAt?]
  | cons t rest =>
    rw [List.head?_cons, Option.any_some, aliasAt?]
    cases t.isKeyword ["AS"] with
    | true => rw [if_pos rfl, drop_succ h]; rfl
    | false => rw [if_neg Bool.false_ne_true, h]; rfl

/-! ### Stretches of text -/

/-- The stretch of query text that the tokens cover. -/
def text (scope : Scope) (tokens : List Token) : Checked String :=
  if tokens.isEmpty then return ""
  else do
    let first ← item tokens 0
    let last ← itemBack tokens 1
    return String.ofList (Text.slice scope.sql first.start last.stop)

theorem text_eq (scope : Scope) (tokens : List Token) :
    text scope tokens = .ok (scope.text tokens) := by
  cases tokens with
  | nil => rfl
  | cons t rest =>
    obtain ⟨front, last, hlast⟩ : ∃ front last, t :: rest = front ++ [last] :=
      ⟨_, _, (List.dropLast_append_getLast (List.cons_ne_nil t rest)).symm⟩
    have hback : itemBack (t :: rest) 1 = .ok last := by
      rw [hlast, itemBack_concat]
    rw [text, if_neg (by simp), item_zero, ok_bind, hback, ok_bind, Scope.text, List.head?_cons,
      hlast, List.getLast?_concat]
    rfl

/-- The position of the first token. -/
def start (tokens : List Token) : Checked Nat := do
  let first ← item tokens 0
  return first.start

@[simp]
theorem start_cons (t : Token) (rest : List Token) : start (t :: rest) = .ok t.start := rfl

end Checked

end IndexAdvice
