import IndexAdvice.Sql.Tokens

/-!
# Matching parentheses

Which parenthesis closes which is a matter of the kinds of the tokens alone: `Token.nesting` counts
the parentheses open after some tokens, and `Token.closeOf` finds the first one that closes more
than these tokens have opened. Neither looks at the depths that tokens carry, nor at their texts or
positions, so both give the same answer wherever the tokens are cut out of a longer list.
-/

namespace IndexAdvice.Token

variable {n m k i : Nat} {t : Token} {ts us vs : List Token}

/-- How many parentheses are open after a token when `n` are open before it, none if the token
closes one that is not open. -/
def nestingStep (n : Nat) (t : Token) : Option Nat :=
  match t.kind with
  | .lparen => some (n + 1)
  | .rparen => if n = 0 then none else some (n - 1)
  | _ => some n

/-- How many parentheses are open after some tokens when `n` are open before them, none if they
close more than that. -/
def nesting : Nat → List Token → Option Nat
  | n, [] => some n
  | n, t :: ts => (nestingStep n t).bind (nesting · ts)

/-- Where the parenthesis stands that closes the outermost of `n + 1` open ones. -/
def closeOf : Nat → List Token → Option Nat
  | _, [] => none
  | n, t :: ts =>
    match nestingStep n t with
    | some m => (closeOf m ts).map (· + 1)
    | none => some 0

/-! ### Steps -/

theorem nestingStep_congr {t' : Token} (h : t.kind = t'.kind) (n : Nat) :
    nestingStep n t = nestingStep n t' := by
  simp only [nestingStep, h]

/-- Counting fails at a closing parenthesis for which none is open. -/
theorem nestingStep_eq_none_iff : nestingStep n t = none ↔ t.kind = .rparen ∧ n = 0 := by
  unfold nestingStep
  split <;> simp_all

/-- With more parentheses open around them, tokens do the same. -/
theorem nestingStep_add (h : nestingStep n t = some m) (k : Nat) :
    nestingStep (n + k) t = some (m + k) := by
  unfold nestingStep at h ⊢
  grind

/-! ### Runs -/

/-- Counting through some tokens fails if one of them closes more than is open. -/
theorem nesting_eq_none_iff : nesting n ts = none ↔ (closeOf n ts).isSome := by
  induction ts generalizing n with
  | nil => simp [nesting, closeOf]
  | cons t ts ih =>
    rw [nesting, closeOf]
    cases nestingStep n t with
    | none => simp
    | some m => simpa using ih

/-- Otherwise it comes to an end with some number of open parentheses. -/
theorem closeOf_eq_none_iff : closeOf n ts = none ↔ ∃ m, nesting n ts = some m := by
  rw [← Option.isSome_iff_exists, ← Option.not_isSome_iff_eq_none, ← nesting_eq_none_iff,
    ← Option.isNone_iff_eq_none]
  cases nesting n ts <;> simp

/-- Nesting is a matter of kinds. -/
theorem nesting_congr (h : ts.map kind = us.map kind) (n : Nat) :
    nesting n ts = nesting n us := by
  induction ts generalizing n us with
  | nil => rw [List.map_eq_nil_iff.mp h.symm]
  | cons t ts ih =>
    obtain ⟨u, us, rfl, hkind, h⟩ := List.map_eq_cons_iff.mp h.symm
    simp only [nesting, nestingStep_congr hkind, ih h.symm]

theorem closeOf_congr (h : ts.map kind = us.map kind) (n : Nat) :
    closeOf n ts = closeOf n us := by
  induction ts generalizing n us with
  | nil => rw [List.map_eq_nil_iff.mp h.symm]
  | cons t ts ih =>
    obtain ⟨u, us, rfl, hkind, h⟩ := List.map_eq_cons_iff.mp h.symm
    simp only [closeOf, nestingStep_congr hkind, ih h.symm]

/-- Two runs of tokens are counted one after the other. -/
theorem nesting_append (n : Nat) (us vs : List Token) :
    nesting n (us ++ vs) = (nesting n us).bind (nesting · vs) := by
  induction us generalizing n with
  | nil => rfl
  | cons u us ih =>
    rw [List.cons_append, nesting, nesting]
    cases nestingStep n u with
    | none => rfl
    | some m => exact ih m

/-- With more parentheses open around them, balanced tokens are still balanced. -/
theorem nesting_add (h : nesting n ts = some m) (k : Nat) : nesting (n + k) ts = some (m + k) := by
  induction ts generalizing n with
  | nil => simpa [nesting] using h
  | cons t ts ih =>
    obtain ⟨l, hstep, h⟩ := Option.bind_eq_some_iff.mp h
    rw [nesting, nestingStep_add hstep k]
    exact ih h

/-! ### The closing parenthesis -/

/-- What closes a parenthesis closes it whatever follows. -/
theorem closeOf_append_of_some (h : closeOf n us = some i) (vs : List Token) :
    closeOf n (us ++ vs) = some i := by
  induction us generalizing n i with
  | nil => simp [closeOf] at h
  | cons u us ih =>
    rw [closeOf] at h
    rw [List.cons_append, closeOf]
    cases hstep : nestingStep n u with
    | none => simpa [hstep] using h
    | some m =>
      simp only [hstep, Option.map_eq_some_iff] at h ⊢
      obtain ⟨j, hj, rfl⟩ := h
      exact ⟨j, ih hj, rfl⟩

/-- Tokens that close nothing leave it to those after them. -/
theorem closeOf_append_of_nesting (h : nesting n us = some m) (vs : List Token) :
    closeOf n (us ++ vs) = (closeOf m vs).map (· + us.length) := by
  induction us generalizing n with
  | nil =>
    obtain rfl := Option.some.inj h
    simp
  | cons u us ih =>
    obtain ⟨l, hstep, h⟩ := Option.bind_eq_some_iff.mp h
    rw [List.cons_append, closeOf, hstep]
    simp only [ih h, Option.map_map]
    rfl

/-- **The closing parenthesis**: the tokens before it are balanced. -/
theorem closeOf_eq_some_iff :
    closeOf 0 ts = some i ↔ ∃ us t vs, ts = us ++ t :: vs ∧ us.length = i ∧
      nesting 0 us = some 0 ∧ t.kind = .rparen := by
  have general : ∀ {n i ts}, closeOf n ts = some i → ∃ us t vs, ts = us ++ t :: vs ∧
      us.length = i ∧ nesting n us = some 0 ∧ t.kind = .rparen := by
    intro n i ts h
    induction ts generalizing n i with
    | nil => simp [closeOf] at h
    | cons t ts ih =>
      rw [closeOf] at h
      cases hstep : nestingStep n t with
      | none =>
        obtain ⟨hkind, rfl⟩ := nestingStep_eq_none_iff.mp hstep
        exact ⟨[], t, ts, rfl, by simpa [hstep] using h, rfl, hkind⟩
      | some m =>
        simp only [hstep, Option.map_eq_some_iff] at h
        obtain ⟨j, hj, rfl⟩ := h
        obtain ⟨us, u, vs, rfl, rfl, hnest, hkind⟩ := ih hj
        exact ⟨t :: us, u, vs, rfl, rfl, by rw [nesting, hstep]; exact hnest, hkind⟩
  refine ⟨general, ?_⟩
  rintro ⟨us, t, vs, rfl, rfl, hnest, hkind⟩
  rw [closeOf_append_of_nesting hnest, closeOf, nestingStep_eq_none_iff.mpr ⟨hkind, rfl⟩]
  simp

/-- A parenthesis inside a balanced group is closed inside it. -/
theorem isSome_closeOf_of_balanced (h : nesting 0 (us ++ t :: vs) = some 0)
    (ht : t.kind = .lparen) : (closeOf 0 vs).isSome := by
  rw [nesting_append] at h
  obtain ⟨m, -, h⟩ := Option.bind_eq_some_iff.mp h
  have hstep : nestingStep m t = some (m + 1) := by simp [nestingStep, ht]
  rw [nesting, hstep, Option.bind_some] at h
  rw [← nesting_eq_none_iff, Option.eq_none_iff_forall_ne_some]
  intro l hl
  have := nesting_add hl (m + 1)
  rw [Nat.zero_add, h] at this
  simp at this

/-- Tokens of which none closes anything open before them do not do so in part. -/
theorem closeOf_eq_none_of_append (h : closeOf n (us ++ vs) = none) : closeOf n us = none := by
  cases hus : closeOf n us with
  | none => rfl
  | some i => simp [closeOf_append_of_some hus] at h

/-- Tokens that close nothing still do not with one more that is no closing parenthesis. -/
theorem closeOf_concat (h : closeOf n us = none) (ht : t.kind ≠ .rparen) :
    closeOf n (us ++ [t]) = none := by
  obtain ⟨m, hm⟩ := closeOf_eq_none_iff.mp h
  obtain ⟨k, hk⟩ := Option.ne_none_iff_exists'.mp fun hstep : nestingStep m t = none =>
    ht (nestingStep_eq_none_iff.mp hstep).1
  rw [closeOf_append_of_nesting hm, closeOf, hk]
  rfl

end IndexAdvice.Token
