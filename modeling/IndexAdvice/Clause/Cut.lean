import IndexAdvice.Sql.Keyword
import IndexAdvice.Sql.Tokens

/-!
# Cutting token lists at their outermost level

A list of tokens is cut at the separators that lie at its least depth: at `OR` into alternatives,
at `AND` into conjuncts, at commas into items. The `AND` of a `BETWEEN` is no separator of
conjuncts. Empty parts are left out.
-/

namespace IndexAdvice.Token

/-- The part read so far, given backwards, unless it is empty. -/
def flush (part : List Token) : List (List Token) :=
  if part.isEmpty then [] else [part.reverse]

/-- Cuts tokens at the separators of depth `base`. With `betweens` set, a separator that follows a
`BETWEEN` still `waiting` for its second bound belongs to that `BETWEEN`. The part read so far is
given backwards. -/
def cutFrom (base : Nat) (isSeparator : Token → Bool) (betweens waiting : Bool)
    (part : List Token) : List Token → List (List Token)
  | [] => flush part
  | t :: rest =>
    if t.depth == base && t.isKeyword ["BETWEEN"] then
      cutFrom base isSeparator betweens true (t :: part) rest
    else if t.depth == base && isSeparator t then
      if betweens && waiting then cutFrom base isSeparator betweens false (t :: part) rest
      else flush part ++ cutFrom base isSeparator betweens waiting [] rest
    else cutFrom base isSeparator betweens waiting (t :: part) rest

/-- The operands of the outermost `OR`s. -/
def alternatives (tokens : List Token) : List (List Token) :=
  cutFrom (baseDepth tokens) (·.isKeyword ["OR"]) false false [] tokens

/-- The operands of the outermost `AND`s. -/
def conjuncts (tokens : List Token) : List (List Token) :=
  cutFrom (baseDepth tokens) (·.isKeyword ["AND"]) true false [] tokens

/-- The items between the outermost commas. -/
def items (tokens : List Token) : List (List Token) :=
  cutFrom (baseDepth tokens) (·.kind == .comma) false false [] tokens

/-! ### Parts are not empty and not longer than the whole -/

theorem length_le_of_mem_cutFrom {base : Nat} {sep : Token → Bool} {b w : Bool}
    {part tokens p : List Token} (h : p ∈ cutFrom base sep b w part tokens) :
    p.length ≤ part.length + tokens.length := by
  -- tokens go from the list to the part that is held, or are left out as separators
  induction tokens generalizing part w with
  | nil =>
    simp only [cutFrom, flush] at h
    split at h <;> simp_all
  | cons t rest ih =>
    have flush_le : ∀ q ∈ flush part, q.length ≤ part.length := by
      intro q hq
      simp only [flush] at hq
      split at hq <;> simp_all
    simp only [cutFrom] at h
    have grow : ∀ {w'}, p ∈ cutFrom base sep b w' (t :: part) rest →
        p.length ≤ part.length + (t :: rest).length := by
      intro w' h'
      have := ih h'
      simp only [List.length_cons] at this ⊢
      omega
    split at h
    · exact grow h
    · split at h
      · split at h
        · exact grow h
        · rcases List.mem_append.1 h with h | h
          · have := flush_le p h
            omega
          · have := ih h
            simp only [List.length_nil, List.length_cons] at this ⊢
            omega
      · exact grow h

theorem ne_nil_of_mem_cutFrom {base : Nat} {sep : Token → Bool} {b w : Bool}
    {part tokens p : List Token} (h : p ∈ cutFrom base sep b w part tokens) : p ≠ [] := by
  have flush_ne : ∀ {part : List Token}, p ∈ flush part → p ≠ [] := by
    intro part hq
    simp only [flush] at hq
    split at hq <;> simp_all
  induction tokens generalizing part w with
  | nil => exact flush_ne h
  | cons t rest ih =>
    simp only [cutFrom] at h
    split at h
    · exact ih h
    · split at h
      · split at h
        · exact ih h
        · rcases List.mem_append.1 h with h | h
          · exact flush_ne h
          · exact ih h
      · exact ih h

theorem length_le_of_mem_conjuncts {tokens p : List Token} (h : p ∈ conjuncts tokens) :
    p.length ≤ tokens.length := by
  simpa using length_le_of_mem_cutFrom h

theorem ne_nil_of_mem_conjuncts {tokens p : List Token} (h : p ∈ conjuncts tokens) : p ≠ [] :=
  ne_nil_of_mem_cutFrom h

end IndexAdvice.Token
