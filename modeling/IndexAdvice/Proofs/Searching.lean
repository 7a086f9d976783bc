import IndexAdvice.Text.Search

/-!
# Searching and replacing

A search ends behind the first occurrence of its pattern, and a replacement goes through a text
stretch by stretch: one in which no match begins stays, and a match is replaced as a whole.
-/

namespace IndexAdvice.Text

variable {matcher : List Char → Option Nat} {c d : Char} {n m : Nat}
  {p pattern body cs xs ys : List Char}

/-! ### Where a search ends -/

theorem afterPrefix?_append (xs ys : List Char) : afterPrefix? xs (xs ++ ys) = some ys := by
  simp [afterPrefix?]

theorem eq_append_of_afterPrefix? (h : afterPrefix? xs cs = some ys) : cs = xs ++ ys := by
  rw [afterPrefix?] at h
  split at h
  · next hprefix =>
    obtain ⟨rest, rfl⟩ := List.isPrefixOf_iff_prefix.mp hprefix
    rw [← Option.some.inj h, List.drop_left]
  · exact absurd h.symm (by simp)

/-- A search ends behind the first occurrence of what it looks for. -/
theorem exists_of_searchFrom (hp : p ≠ []) (h : searchFrom p n cs = some m) :
    ∃ body rest, cs = body ++ p ++ rest ∧ m = n + (body ++ p).length ∧ ¬ p <:+: body := by
  induction cs generalizing n with
  | nil => simp [searchFrom, hp] at h
  | cons c cs ih =>
    rw [searchFrom] at h
    split at h
    · next hprefix =>
      obtain ⟨rest, hrest⟩ := List.isPrefixOf_iff_prefix.mp hprefix
      refine ⟨[], rest, hrest.symm, (Option.some.inj h).symm, ?_⟩
      rw [List.infix_nil]
      exact hp
    · next hprefix =>
      obtain ⟨body, rest, rfl, rfl, hbody⟩ := ih h
      refine ⟨c :: body, rest, rfl, by simp only [List.cons_append, List.length_cons]; omega, ?_⟩
      rw [List.infix_cons_iff, not_or]
      refine ⟨fun hlater => hprefix ?_, hbody⟩
      rw [List.isPrefixOf_iff_prefix]
      refine hlater.trans ?_
      rw [List.append_assoc]
      exact List.prefix_append (c :: body) (p ++ rest)

/-- A search that fails has nothing to find. -/
theorem not_infix_of_searchFrom (hp : p ≠ []) (h : searchFrom p n cs = none) : ¬ p <:+: cs := by
  induction cs generalizing n with
  | nil =>
    rw [List.infix_nil]
    exact hp
  | cons c cs ih =>
    rw [searchFrom] at h
    split at h
    · simp at h
    · next hprefix =>
      rw [List.infix_cons_iff, not_or]
      exact ⟨fun h' => hprefix (List.isPrefixOf_iff_prefix.mpr h'), ih h⟩

/-- A search ends behind the first occurrence of a pattern that starts with a character of its
own. -/
theorem searchFrom_first (hc : c ∉ pattern) (hbody : ¬ c :: pattern <:+: body) (n : Nat)
    (rest : List Char) :
    searchFrom (c :: pattern) n (body ++ (c :: pattern ++ rest)) =
      some (n + body.length + (pattern.length + 1)) := by
  induction body generalizing n with
  | nil =>
    have hfound : (c :: pattern).isPrefixOf (c :: (pattern ++ rest)) = true :=
      List.isPrefixOf_iff_prefix.mpr (List.prefix_append (c :: pattern) rest)
    rw [List.nil_append, List.cons_append, searchFrom, if_pos hfound]
    rfl
  | cons d body ih =>
    rw [List.infix_cons_iff, not_or] at hbody
    rw [List.cons_append, searchFrom, if_neg, ih hbody.2, List.length_cons]
    · congr 1
      omega
    · rw [List.isPrefixOf_iff_prefix]
      intro hprefix
      -- a match that started earlier would be in the body, or would have the mark's first character
      -- twice
      rcases List.prefix_or_prefix_of_prefix hprefix
        (List.prefix_append (d :: body) (c :: pattern ++ rest)) with hinside | ⟨left, hleft⟩
      · exact hbody.1 hinside
      · cases left with
        | nil => exact hbody.1 (List.append_nil (d :: body) ▸ hleft ▸ List.prefix_rfl)
        | cons e left =>
          have hnext : d :: body ++ e :: left <+: d :: body ++ (c :: pattern ++ rest) := by
            rw [hleft]
            exact hprefix
          rw [List.prefix_append_right_inj, List.cons_append, List.cons_prefix_cons] at hnext
          obtain ⟨rfl, -⟩ := hnext
          rw [List.cons_append] at hleft
          exact hc (by rw [← (List.cons.inj hleft).2]; simp)

/-! ### Pairs -/

/-- Two characters that follow each other in a text do so in its first part, in its second, or
where these meet. -/
theorem not_pair_infix_append (hxs : ¬ [c, d] <:+: xs) (hys : ¬ [c, d] <:+: ys)
    (hmeet : ¬ (xs.getLast? = some c ∧ ys.head? = some d)) : ¬ [c, d] <:+: xs ++ ys := by
  induction xs with
  | nil => exact hys
  | cons x xs ih =>
    rw [List.infix_cons_iff, not_or] at hxs
    rw [List.cons_append, List.infix_cons_iff, not_or]
    cases xs with
    | nil =>
      refine ⟨fun hprefix => hmeet ?_, hys⟩
      rw [List.nil_append, List.cons_prefix_cons] at hprefix
      obtain ⟨rfl, t, rfl⟩ := hprefix
      exact ⟨rfl, rfl⟩
    | cons y xs =>
      refine ⟨fun hstart => hxs.1 ?_, ih hxs.2 (by simpa using hmeet)⟩
      rw [List.cons_append, List.cons_prefix_cons, List.cons_prefix_cons] at hstart
      rw [List.cons_prefix_cons, List.cons_prefix_cons]
      exact ⟨hstart.1, hstart.2.1, List.nil_prefix⟩

/-- Without its first character a pair does not occur. -/
theorem not_pair_infix_of_not_mem (hc : c ∉ xs) : ¬ [c, d] <:+: xs :=
  fun h => hc (h.subset List.mem_cons_self)

/-- A text does not start with two characters that do not follow each other in it. -/
theorem afterPrefix?_pair_eq_none {x : Char} (hxs : ¬ [c, d] <:+: x :: xs)
    (hmeet : ¬ ((x :: xs).getLast? = some c ∧ ys.head? = some d)) :
    afterPrefix? [c, d] (x :: (xs ++ ys)) = none := by
  rw [Option.eq_none_iff_forall_ne_some]
  intro rest hrest
  obtain ⟨rfl, hnext⟩ : x = c ∧ xs ++ ys = d :: rest :=
    List.cons.inj (eq_append_of_afterPrefix? hrest)
  cases xs with
  | nil => exact hmeet ⟨rfl, by rw [← List.nil_append ys, hnext]; rfl⟩
  | cons y xs =>
    obtain ⟨rfl, -⟩ := List.cons.inj hnext
    exact hxs ⟨[], xs, rfl⟩

/-! ### Replacing -/

/-- A match is passed over as a whole. -/
theorem replaceFrom_skip (matcher : List Char → Option Nat) (replacement done xs cs : List Char) :
    replaceFrom matcher replacement xs.length done (xs ++ cs) =
      replaceFrom matcher replacement 0 done cs := by
  induction xs with
  | nil => rfl
  | cons x xs ih => exact ih

/-- A character with which no match begins stays. -/
theorem replaceAll_cons_of_none (replacement : List Char) (h : matcher (c :: cs) = none) :
    replaceAll matcher replacement (c :: cs) = c :: replaceAll matcher replacement cs := by
  simp only [replaceAll, replaceFrom, h]
  rw [replaceFrom_eq]
  rfl

/-- A stretch in which no match begins stays. -/
theorem replaceAll_append (replacement : List Char) {ys : List Char}
    (h : ∀ c rest, c :: rest <:+ xs → matcher (c :: (rest ++ ys)) = none) :
    replaceAll matcher replacement (xs ++ ys) = xs ++ replaceAll matcher replacement ys := by
  induction xs with
  | nil => rfl
  | cons c xs ih =>
    rw [List.cons_append, replaceAll_cons_of_none replacement (h c xs List.suffix_rfl),
      ih fun d rest hsuffix => h d rest (hsuffix.trans (List.suffix_cons c xs)), List.cons_append]

/-- A match at the beginning is replaced. -/
theorem replaceAll_append_of_some (replacement : List Char)
    (h : matcher (c :: xs ++ cs) = some (c :: xs).length) :
    replaceAll matcher replacement (c :: xs ++ cs) =
      replacement ++ replaceAll matcher replacement cs := by
  rw [List.length_cons, List.cons_append] at h
  simp only [replaceAll, List.cons_append, replaceFrom, h]
  rw [replaceFrom_skip, replaceFrom_eq]
  simp

end IndexAdvice.Text
