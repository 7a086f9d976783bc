import IndexAdvice.Proofs.PieceTails

/-!
# Where the pieces of a text end

`Piece.next` decides on a piece by looking one character ahead and then counts the characters that
go on it. This module separates the two: `Piece.shape` is the decision, an `Ending` the rule by
which the count is made (`next_eq`). Each property of a piece is then proved once for each ending.

The properties say when a text may be cut off or go on differently without a change to the piece:
it may be cut off anywhere behind the piece (`next_of_append`), and a piece that ends before some
character ends before every character that breaks pieces (`next_append_break`).
-/

namespace IndexAdvice

open Text

namespace Piece

/-! ### Decision and count -/

theorem isWordTail_of_isWordChar {c : Char} (h : isWordChar c = true) : isWordTail c = true := by
  rw [isWordTail, ← isWordChar, h, Bool.true_or]

theorem isWordTail_of_isDecimal {c : Char} (h : isDecimal c = true) : isWordTail c = true :=
  isWordTail_of_isWordChar <| by
    simp [isWordChar, isAlphanumeric, isNumeral_of_isDigit (isDigit_of_isDecimal h)]

/-- The rule by which a piece goes on after its first character. -/
inductive Ending where
  /-- It has no further character. -/
  | alone
  /-- It has one further character. -/
  | pair
  /-- It goes on through a mark. -/
  | mark (m : Char)
  /-- It goes on through the end of a block comment. -/
  | block
  /-- It goes on through the closing quote of a string. -/
  | string
  /-- It goes on as a number does. -/
  | number (pointSeen : Bool)
  /-- It goes on as long as the characters are of a class, which words may go on with. -/
  | run (p : Char → Bool) (le : ∀ c, p c = true → isWordTail c = true)

/-- How many of the characters `cs` belong to a piece with this ending. -/
def Ending.count : Ending → List Char → Nat
  | .alone, _ => 0
  | .pair, _ => 1
  | .mark m, cs => through [m] cs
  | .block, cs => through ['*', '/'] cs.tail + 1
  | .string, cs => stringTail cs
  | .number pointSeen, cs => numberTail pointSeen cs
  | .run p _, cs => (cs.takeWhile p).length

/-- What is decided about a piece from the character before it, its first character and the one
after that. -/
def shape (before : Option Char) (c : Char) (ahead : Option Char) : Option TokenKind × Ending :=
  if isBlank c then (none, .alone)
  else if c == '-' && ahead == some '-' then (none, .mark '\n')
  else if c == '/' && ahead == some '*' then (none, .block)
  else if c == '\'' then (some .string, .string)
  else if c == '"' || c == '\x60' then (some .quoted, .mark c)
  else if isDigit c || (c == '.' && ahead.any isDigit) then (some .number, .number (c == '.'))
  else if isLetter c || c == '_' then (some .word, .run isWordTail fun _ => id)
  else if (c == '$' && ahead.any isDecimal) || c == '?' then
    (some .placeholder, .run isDecimal fun _ => isWordTail_of_isDecimal)
  else if ((c == ':' && before != some ':') || c == '@') && ahead.any isIdentStart then
    (some .placeholder, .run isWordChar fun _ => isWordTail_of_isWordChar)
  else match punctuation c with
    | some kind => (some kind, .alone)
    | none =>
      if ahead.any fun d => wideOperators.contains (c, d) then (some .operator, .pair)
      else if narrowOperators.contains c then (some .operator, .alone)
      else (some .other, .alone)

theorem parameterName_eq (cs : List Char) :
    parameterName cs =
      if cs.head?.any isIdentStart then some (cs.takeWhile isWordChar).length else none := by
  cases cs with
  | nil => rfl
  | cons d ds =>
    by_cases hd : isIdentStart d = true
    · simp [parameterName, hd, isWordChar_of_isIdentStart hd]
    · simp [parameterName, hd]

/-- Nothing is taken just if the first character is not. -/
theorem length_takeWhile_eq_zero_iff (p : Char → Bool) (cs : List Char) :
    (cs.takeWhile p).length = 0 ↔ cs.head?.any p = false := by
  cases cs with
  | nil => simp
  | cons d ds => cases h : p d <;> simp [h]

/-- A parameter is a mark and digits, or a mark and a name. A second colon in a row marks none, as
it belongs to a cast. -/
theorem parameterTail_eq (before : Option Char) (c : Char) (cs : List Char) :
    parameterTail before c cs =
      if (c == '$' && cs.head?.any isDecimal) || c == '?' then
        some (cs.takeWhile isDecimal).length
      else if ((c == ':' && before != some ':') || c == '@') && cs.head?.any isIdentStart then
        some (cs.takeWhile isWordChar).length
      else none := by
  have hrun := length_takeWhile_eq_zero_iff isDecimal cs
  unfold parameterTail
  rw [parameterName_eq]
  by_cases hdollar : c = '$'
  · subst hdollar
    cases h : cs.head?.any isDecimal <;> simp_all
  by_cases hquestion : c = '?'
  · subst hquestion
    simp
  by_cases hcolon : c = ':'
  · subst hcolon
    by_cases hbefore : before = some ':' <;> simp [hbefore]
  by_cases hat : c = '@' <;> simp [hdollar, hquestion, hcolon, hat]

/-- The next piece is decided by one character ahead, and counted by its ending. -/
theorem next_eq (before : Option Char) (c : Char) (cs : List Char) :
    next before c cs =
      ((shape before c cs.head?).1, (shape before c cs.head?).2.count cs) := by
  let counted (s : Option TokenKind × Ending) := (s.1, s.2.count cs)
  show next before c cs = counted (shape before c cs.head?)
  simp only [next, shape, parameterTail_eq, apply_ite counted]
  iterate 7 refine ite_congr rfl (fun _ => rfl) fun _ => ?_
  by_cases hnumbered : ((c == '$' && cs.head?.any isDecimal) || c == '?') = true
  · rw [if_pos hnumbered, if_pos hnumbered]
    rfl
  rw [if_neg hnumbered, if_neg hnumbered]
  by_cases hnamed :
      (((c == ':' && before != some ':') || c == '@') && cs.head?.any isIdentStart) = true
  · rw [if_pos hnamed, if_pos hnamed]
    rfl
  rw [if_neg hnamed, if_neg hnamed]
  cases punctuation c with
  | some kind => rfl
  | none => simp only [apply_ite counted]; rfl

/-! ### All endings -/

namespace Ending

variable {e : Ending} {cs d : List Char}

/-- A count that stays inside a text does not see what follows the text. -/
theorem count_of_append (h : e.count (cs ++ d) ≤ cs.length) : e.count cs = e.count (cs ++ d) := by
  cases e with
  | alone => rfl
  | pair => rfl
  | mark m => exact (through_eq_min [m] cs d).trans (Nat.min_eq_left h)
  | block =>
    cases cs with
    | nil => simp [count] at h
    | cons c cs =>
      simp only [count, List.cons_append, List.tail_cons, List.length_cons] at h ⊢
      rw [through_eq_min ['*', '/'] cs d]
      omega
  | string => exact (stringTail_eq_min cs d).trans (Nat.min_eq_left h)
  | number b => exact numberTail_of_append h
  | run p le => exact (length_takeWhile_eq_min p cs d).trans (Nat.min_eq_left h)

/-- A breaking character goes on no word. -/
private theorem eq_false_of_breaks {p : Char → Bool} {r : Char} (hr : Breaks r)
    (le : ∀ c, p c = true → isWordTail c = true) : p r = false :=
  Bool.eq_false_iff.mpr fun hp => absurd (le r hp) (by simp [hr.1])

/-- Before a breaking character a piece ends where it does at the end of the text, or after it. -/
theorem count_append_break {r : Char} (hr : Breaks r) (hcs : cs ≠ []) (d : List Char) :
    e.count cs = min (e.count (cs ++ r :: d)) cs.length := by
  obtain ⟨c, cs, rfl⟩ := List.exists_cons_of_ne_nil hcs
  cases e with
  | alone => simp [count]
  | pair => simp [count]
  | mark m => exact through_eq_min [m] _ _
  | block =>
    simp only [count, List.cons_append, List.tail_cons, List.length_cons]
    rw [through_eq_min ['*', '/'] cs (r :: d)]
    omega
  | string => exact stringTail_eq_min _ _
  | number b =>
    simp only [count]
    rw [numberTail_append_break b hr]
    have := numberTail_le b (c :: cs)
    omega
  | run p le => exact length_takeWhile_eq_min p _ _

/-- What ends before some character ends before every breaking one. -/
theorem count_append_of_eq {y r : Char} (hr : Breaks r)
    (h : e.count (cs ++ y :: d) = cs.length) (d' : List Char) :
    e.count (cs ++ r :: d') = cs.length := by
  have hcount : e.count cs = cs.length := (count_of_append (Nat.le_of_eq h)).trans h
  cases e with
  | alone => exact h
  | pair => exact h
  | mark m => exact through_append_of_eq h _
  | block =>
    cases cs with
    | nil => simp [count] at h
    | cons c cs =>
      simp only [count, List.cons_append, List.tail_cons, List.length_cons,
        Nat.add_right_cancel_iff] at h ⊢
      exact through_append_of_eq h _
  | string =>
    refine stringTail_append_of_eq ?_ h _
    rintro rfl
    exact absurd hr (by decide)
  | number b => exact (numberTail_append_break b hr cs d').trans hcount
  | run p le =>
    simp only [count] at hcount ⊢
    rw [takeWhile_append_break (eq_false_of_breaks hr le), hcount]

end Ending

/-! ### All shapes -/

section Shapes

variable {before ahead : Option Char} {c r x y : Char} {cs d : List Char} {k : TokenKind}
  {e : Ending}

/-- No breaking character is the second one of an operator. -/
theorem not_breaks_of_wideOperator : ∀ o ∈ wideOperators, ¬ Breaks o.2 := by
  decide

/-- Whatever follows from either branch of a decision follows from the decision. -/
private theorem of_ite_eq {α : Type} {P : Prop} {b : Bool} {s t u : α}
    (h : (if b then s else t) = u) (hthen : b = true → s = u → P) (helse : t = u → P) : P := by
  cases hb : b with
  | true => exact hthen hb (by simpa [hb] using h)
  | false => exact helse (by simpa [hb] using h)

/-- The endings that tokens have. -/
theorem ending_of_token (h : shape before c ahead = (some k, e)) :
    (k = .string ∧ e = .string) ∨ (k = .quoted ∧ ∃ m, ¬ Breaks m ∧ e = .mark m) ∨
      (∃ b, e = .number b) ∨ (∃ p le, e = .run p le) ∨ e = .alone ∨
      (e = .pair ∧ ∃ y, ahead = some y ∧ ¬ Breaks y) := by
  unfold shape at h
  -- the first three tests are those of layout
  iterate 3 refine of_ite_eq h (fun _ h => by simp at h) fun h => ?_
  refine of_ite_eq h (fun _ h => ?_) fun h => of_ite_eq h (fun hc h => ?_) fun h =>
    of_ite_eq h (fun _ h => ?_) fun h => of_ite_eq h (fun _ h => ?_) fun h =>
    of_ite_eq h (fun _ h => ?_) fun h => of_ite_eq h (fun _ h => ?_) fun h => ?_
  · simp only [Prod.mk.injEq, Option.some.injEq] at h
    exact .inl ⟨h.1.symm, h.2.symm⟩
  · simp only [Prod.mk.injEq, Option.some.injEq] at h
    refine .inr (.inl ⟨h.1.symm, c, ?_, h.2.symm⟩)
    simp only [Bool.or_eq_true, beq_iff_eq] at hc
    rcases hc with rfl | rfl <;> decide
  · exact .inr (.inr (.inl ⟨_, (congrArg Prod.snd h).symm⟩))
  · exact .inr (.inr (.inr (.inl ⟨_, _, (congrArg Prod.snd h).symm⟩)))
  · exact .inr (.inr (.inr (.inl ⟨_, _, (congrArg Prod.snd h).symm⟩)))
  · exact .inr (.inr (.inr (.inl ⟨_, _, (congrArg Prod.snd h).symm⟩)))
  · cases hp : punctuation c with
    | some kind =>
      simp only [hp] at h
      exact .inr (.inr (.inr (.inr (.inl (congrArg Prod.snd h).symm))))
    | none =>
      simp only [hp] at h
      refine of_ite_eq h (fun hy hs => ?_) fun h =>
        of_ite_eq h (fun _ h => ?_) fun h => ?_
      · obtain ⟨y, rfl, hy⟩ := (Option.any_eq_true _ _).mp hy
        refine .inr (.inr (.inr (.inr (.inr ⟨(congrArg Prod.snd hs).symm, y, rfl, ?_⟩))))
        exact not_breaks_of_wideOperator (c, y) (by simpa using hy)
      · exact .inr (.inr (.inr (.inr (.inl (congrArg Prod.snd h).symm))))
      · exact .inr (.inr (.inr (.inr (.inl (congrArg Prod.snd h).symm))))

/-- The parentheses are the only characters of their kinds. -/
theorem eq_of_punctuation (h : punctuation c = some k) :
    (k = .lparen → c = '(') ∧ (k = .rparen → c = ')') := by
  unfold punctuation at h
  refine of_ite_eq h (fun hc h => ?_) fun h => of_ite_eq h (fun hc h => ?_) fun h => by
    repeat' split at h
    all_goals simp at h
    all_goals subst h; simp
  all_goals obtain rfl := Option.some.inj h; simpa using hc

/-- A parenthesis is a piece by itself. -/
theorem shape_paren (hk : k = .lparen ∨ k = .rparen) (h : shape before c ahead = (some k, e)) :
    punctuation c = some k ∧ e = .alone := by
  unfold shape at h
  iterate 9 refine of_ite_eq h (fun _ h => by rcases hk with rfl | rfl <;> simp at h) fun h => ?_
  cases hp : punctuation c with
  | some kind =>
    simp only [hp, Prod.mk.injEq] at h
    exact ⟨h.1, h.2.symm⟩
  | none =>
    simp only [hp] at h
    exact of_ite_eq h (fun _ h => by rcases hk with rfl | rfl <;> simp at h) fun h =>
      of_ite_eq h (fun _ h => by rcases hk with rfl | rfl <;> simp at h) fun h => by
        rcases hk with rfl | rfl <;> simp at h

theorem Breaks.wideOperators_contains (hr : Breaks r) (c : Char) :
    wideOperators.contains (c, r) = false :=
  Bool.eq_false_iff.mpr fun h => not_breaks_of_wideOperator (c, r) (by simpa using h) hr

/-- A breaking character ahead decides as the end of the text does. -/
theorem shape_break (before : Option Char) (c : Char) (hr : Breaks r) :
    shape before c (some r) = shape before c none := by
  have hdash : (some r == some '-') = (none == some '-') := by
    simpa using hr.ne_sign.2
  have hstar : (some r == some '*') = (none == some '*') := by
    simp only [Option.some_beq_some, beq_eq_false_iff_ne, Option.none_beq_some]
    rintro rfl
    exact absurd hr (by decide)
  have hany {p : Char → Bool} (hp : p r = false) : (some r).any p = (none : Option Char).any p := by
    simp [hp]
  simp only [shape, hdash, hstar, hany hr.isDigit, hany hr.isDecimal, hany hr.isIdentStart,
    @hany (fun d => wideOperators.contains (c, d)) (hr.wideOperators_contains c)]

/-- Whatever is decided by the character ahead takes that character up. -/
theorem shape_none_or_count_pos (before : Option Char) (c y : Char) (d : List Char) :
    shape before c (some y) = shape before c none ∨
      0 < (shape before c (some y)).2.count (y :: d) := by
  let Q (s t : Option TokenKind × Ending) : Prop := s = t ∨ 0 < s.2.count (y :: d)
  -- a rule that applies without the character ahead is the same; one that needs it takes it up
  have rule {b b' : Bool} {s t u} (hb : b' = true → b = true)
      (hs : b = true → b' = false → 0 < s.2.count (y :: d)) (h : Q t u) :
      Q (if b then s else t) (if b' then s else u) := by
    cases hb' : b' with
    | true => exact .inl (by simp [hb hb'])
    | false =>
      cases hb : b with
      | true => exact .inr (hs hb hb')
      | false => exact h
  have same {b : Bool} {s t u} (h : Q t u) : Q (if b then s else t) (if b then s else u) :=
    rule id (fun h h' => by simp [h] at h') h
  show Q _ _
  unfold shape
  refine same (rule (by simp) (fun _ _ => through_cons_pos (by simp) y d)
    (rule (by simp) (fun _ _ => Nat.succ_pos _) (same (same (rule ?_ ?_ (same ?_))))))
  · simp +contextual
  · intro h h'
    simp only [Option.any_none, Bool.and_false, Bool.or_false] at h'
    simp only [h', Option.any_some, Bool.false_or, Bool.and_eq_true, beq_iff_eq] at h
    rw [h.1]
    exact numberTail_cons_pos h.2 d
  refine rule (by simp +contextual) (fun h h' => ?_) (rule (by simp) (fun h _ => ?_) ?_)
  · simp only [Option.any_none, Bool.and_false, Bool.false_or] at h'
    simp only [h', Option.any_some, Bool.or_false, Bool.and_eq_true] at h
    simp [Ending.count, h.2]
  · simp only [Option.any_some, Bool.and_eq_true] at h
    simp [Ending.count, isWordChar_of_isIdentStart h.2]
  cases punctuation c with
  | some kind => exact .inl rfl
  | none => exact rule (by simp) (fun _ _ => Nat.one_pos) (same (.inl rfl))

/-- At the end of the text a piece is as long as what it starts with. -/
theorem count_shape_nil (before : Option Char) (c : Char) :
    (shape before c none).2.count [] = 0 := by
  suffices h : ∀ s, shape before c none = s → s.2.count [] = 0 from h _ rfl
  rintro s h
  have done {k e} (he : Ending.count e [] = 0) (h : (k, e) = s) : s.2.count [] = 0 := h ▸ he
  unfold shape at h
  refine of_ite_eq h (fun _ => done rfl) fun h => of_ite_eq h (fun hc => by simp at hc) fun h =>
    of_ite_eq h (fun hc => by simp at hc) fun h => of_ite_eq h (fun _ => done rfl) fun h =>
    of_ite_eq h (fun _ => done rfl) fun h => of_ite_eq h (fun _ => done rfl) fun h =>
    of_ite_eq h (fun _ => done rfl) fun h => of_ite_eq h (fun _ => done rfl) fun h =>
    of_ite_eq h (fun _ => done rfl) fun h => ?_
  cases hp : punctuation c with
  | some kind =>
    simp only [hp] at h
    exact done rfl h
  | none =>
    simp only [hp] at h
    exact of_ite_eq h (fun hy => by simp at hy) fun h =>
      of_ite_eq h (fun _ => done rfl) (done rfl)

end Shapes

/-! ### The next piece in longer and shorter texts -/

section Next

variable {before : Option Char} {c r x y : Char} {cs d : List Char} {n : Nat}

/-- The character before a piece matters only if it is a colon. -/
theorem next_before {b b' : Option Char} (hb : b ≠ some ':') (hb' : b' ≠ some ':') (c : Char)
    (cs : List Char) : next b c cs = next b' c cs := by
  have h : (b != some ':') = true := by simpa using hb
  have h' : (b' != some ':') = true := by simpa using hb'
  rw [next_eq, next_eq]
  simp only [shape, h, h']

/-- **Cutting off.** What follows a piece does not decide on it. -/
theorem next_of_append {k : Option TokenKind} (h : next before c (cs ++ d) = (k, n))
    (hn : n ≤ cs.length) : next before c cs = (k, n) := by
  rw [next_eq, Prod.mk.injEq] at h ⊢
  obtain ⟨hk, hcount⟩ := h
  cases cs with
  | cons z cs =>
    refine ⟨hk, ?_⟩
    rw [← hcount]
    exact Ending.count_of_append (d := d) (by simpa [← hcount] using hn)
  | nil =>
    cases d with
    | nil => exact ⟨hk, hcount⟩
    | cons z d =>
      -- a decision that needed the first character of `d` would have taken it up
      obtain rfl : n = 0 := by simpa using hn
      simp only [List.nil_append, List.head?_cons, List.head?_nil] at hk hcount ⊢
      rcases shape_none_or_count_pos before c z d with hshape | hpos
      · rw [← hshape, hk]
        exact ⟨rfl, hshape ▸ count_shape_nil before c⟩
      · omega

/-- A piece before a breaking character is what it is at the end of the text, except that it may
take the character up. -/
theorem next_eq_of_break (hr : Breaks r) (before : Option Char) (c : Char) (cs d : List Char) :
    next before c cs =
      ((next before c (cs ++ r :: d)).1, min (next before c (cs ++ r :: d)).2 cs.length) := by
  rw [next_eq, next_eq]
  cases cs with
  | cons z cs =>
    simp only [List.cons_append, List.head?_cons]
    rw [Ending.count_append_break hr (by simp) d]
    rfl
  | nil =>
    simp only [List.nil_append, List.head?_cons, List.head?_nil, shape_break before c hr,
      count_shape_nil, List.length_nil, Nat.min_zero]

/-- **Going on.** A piece that ends before some character ends before every breaking one. -/
theorem next_append_break (hr : Breaks r) {k : Option TokenKind}
    (h : next before c (cs ++ y :: d) = (k, cs.length)) (d' : List Char) :
    next before c (cs ++ r :: d') = (k, cs.length) := by
  rw [next_eq, Prod.mk.injEq] at h ⊢
  obtain ⟨hk, hcount⟩ := h
  cases cs with
  | cons z cs => exact ⟨hk, Ending.count_append_of_eq hr hcount d'⟩
  | nil =>
    simp only [List.nil_append, List.head?_cons, List.length_nil] at hk hcount ⊢
    rw [shape_break before c hr]
    rcases shape_none_or_count_pos before c y d with hshape | hpos
    · rw [hshape] at hk hcount
      exact ⟨hk, @Ending.count_append_of_eq _ [] d y r hr hcount d'⟩
    · omega

/-- A token goes on with no character that breaks pieces, but for strings and quoted names: of these
only the last character is known, if they are closed inside the text. -/
theorem not_breaks_of_mem_next {k : TokenKind} (h : next before c cs = (some k, n))
    (hx : x ∈ cs.take n)
    (hlast : k = .string ∨ k = .quoted → n < cs.length ∧ (cs.take n).getLast? = some x) :
    ¬ Breaks x := by
  rw [next_eq, Prod.mk.injEq] at h
  obtain ⟨hk, rfl⟩ := h
  have hshape : shape before c cs.head? = (some k, (shape before c cs.head?).2) :=
    Prod.ext hk rfl
  rcases ending_of_token hshape with
    ⟨rfl, he⟩ | ⟨rfl, m, hm, he⟩ | ⟨b, he⟩ | ⟨p, le, he⟩ | he | ⟨he, z, hz, hbreak⟩ <;>
    rw [he] at hlast hx
  · obtain ⟨hin, hlast⟩ := hlast (.inl rfl)
    rw [Ending.count, getLast?_take_stringTail hin] at hlast
    obtain rfl := Option.some.inj hlast
    decide
  · obtain ⟨hin, hlast⟩ := hlast (.inr rfl)
    rw [Ending.count, getLast?_take_through hin] at hlast
    obtain rfl := Option.some.inj hlast
    exact hm
  · exact not_breaks_of_mem_numberTail hx
  · intro hbreaks
    rw [Ending.count, ← List.prefix_iff_eq_take.mp (List.takeWhile_prefix p)] at hx
    exact absurd (le x (List.all_eq_true.mp List.all_takeWhile x hx)) (by simp [hbreaks.1])
  · simp [Ending.count] at hx
  · obtain ⟨cs, rfl⟩ := List.head?_eq_some_iff.mp hz
    obtain rfl : x = z := by simpa [Ending.count] using hx
    exact hbreak

/-- **Last characters.** A token of several characters ends with a character that does not break
pieces; a string or quoted name does if it is closed inside the text. -/
theorem not_breaks_of_next {k : TokenKind} (h : next before c cs = (some k, n))
    (hin : k = .string ∨ k = .quoted → n < cs.length) (hx : (cs.take n).getLast? = some x) :
    ¬ Breaks x :=
  not_breaks_of_mem_next h (List.mem_of_getLast? hx) fun hk => ⟨hin hk, hx⟩

/-- A parenthesis is a piece of one character. -/
theorem next_paren {k : TokenKind} (hk : k = .lparen ∨ k = .rparen)
    (h : next before c cs = (some k, n)) : punctuation c = some k ∧ n = 0 := by
  obtain ⟨kind, e, hshape⟩ : ∃ kind e, shape before c cs.head? = (kind, e) := ⟨_, _, rfl⟩
  rw [next_eq, hshape, Prod.mk.injEq] at h
  obtain ⟨rfl, rfl⟩ := h
  obtain ⟨hc, rfl⟩ := shape_paren hk hshape
  exact ⟨hc, rfl⟩

end Next

end Piece

end IndexAdvice
