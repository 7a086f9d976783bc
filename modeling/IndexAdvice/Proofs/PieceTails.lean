import IndexAdvice.Sql.Piece

/-!
# How far a piece goes on

The rules by which the characters of a piece are counted: through a mark, through the closing quote
of a string, as a number, or as long as characters are of a class. Each is shown to depend on
nothing behind the piece, and to stop before every breaking character (`Breaks`), which no piece
but a string, a quoted name or a comment goes on with.
-/

namespace IndexAdvice

open Text

namespace Piece

/-! ### Breaking characters -/

/-- No piece but a string, a quoted name or a comment goes on with a breaking character, and none is
decided otherwise because of one. -/
def Breaks (r : Char) : Prop :=
  isWordTail r = false ∧ r ∉ ['.', '\'', '"', '\x60', '+', '-', '*', '=', '>', '|', ':', '~']

instance (r : Char) : Decidable (Breaks r) :=
  inferInstanceAs (Decidable (_ ∧ _))

theorem exists_range_of_isBlank {c : Char} (h : isBlank c = true) :
    ∃ range ∈ (9, 13) :: (28, 32) :: blankRanges, range.1 ≤ c.toNat ∧ c.toNat ≤ range.2 := by
  simp only [isBlank] at h
  split at h
  · simp only [Bool.or_eq_true, Bool.and_eq_true, decide_eq_true_eq] at h
    rcases h with h | h
    · exact ⟨(9, 13), by simp, h⟩
    · exact ⟨(28, 32), by simp, h⟩
  · obtain ⟨range, hmem, hrange⟩ := exists_of_inRanges h
    exact ⟨range, by simp [hmem], hrange⟩

/-- All characters of these ranges break, checked one by one. -/
private theorem breaks_of_mem_ranges :
    ∀ range ∈ (9, 13) :: (28, 32) :: blankRanges,
      ∀ n ∈ List.range' range.1 (range.2 + 1 - range.1), Breaks (Char.ofNat n) := by
  decide +kernel

/-- Blank characters break pieces. -/
theorem breaks_of_isBlank {c : Char} (h : isBlank c = true) : Breaks c := by
  obtain ⟨range, hmem, hlo, hhi⟩ := exists_range_of_isBlank h
  rw [← Char.ofNat_toNat c]
  refine breaks_of_mem_ranges range hmem _ ?_
  rw [List.mem_range'_1]
  omega

/-- So does a closing parenthesis. -/
theorem breaks_rparen : Breaks ')' := by
  decide

namespace Breaks

variable {r : Char}

theorem isWordChar (h : Breaks r) : isWordChar r = false := by
  have := h.1
  simp only [isWordTail, Bool.or_eq_false_iff] at this
  simp [Text.isWordChar, this]

theorem isIdentStart (h : Breaks r) : isIdentStart r = false :=
  Bool.eq_false_iff.mpr fun h' =>
    absurd (isWordChar_of_isIdentStart h') (by simp [h.isWordChar])

theorem isDigit (h : Breaks r) : isDigit r = false := by
  have := h.1
  simp only [isWordTail, isAlphanumeric, isNumeral, Bool.or_eq_false_iff] at this
  exact this.1.1.2.1

theorem isDecimal (h : Breaks r) : isDecimal r = false :=
  Bool.eq_false_iff.mpr fun h' => absurd (isDigit_of_isDecimal h') (by simp [h.isDigit])

end Breaks

/-! ### Searching for a mark -/

section Search

variable {p cs d : List Char} {n m : Nat}

/-- What is found ends behind the mark and within the text. -/
theorem le_of_searchFrom (h : searchFrom p n cs = some m) :
    n + p.length ≤ m ∧ m ≤ n + cs.length := by
  induction cs generalizing n with
  | nil =>
    simp only [searchFrom, List.isEmpty_iff] at h
    split at h <;> simp_all
  | cons c cs ih =>
    rw [searchFrom] at h
    split at h
    · next hp =>
      have := (List.isPrefixOf_iff_prefix.mp hp).length_le
      obtain rfl := Option.some.inj h
      omega
    · have := ih h
      simp only [List.length_cons]
      omega

/-- What is found is found in a longer text, too. -/
theorem searchFrom_append (h : searchFrom p n cs = some m) (d : List Char) :
    searchFrom p n (cs ++ d) = some m := by
  induction cs generalizing n with
  | nil =>
    obtain rfl : p = [] := by
      have := le_of_searchFrom h
      exact List.eq_nil_of_length_eq_zero (by simp only [List.length_nil] at this; omega)
    cases d <;> simpa [searchFrom] using h
  | cons c cs ih =>
    rw [searchFrom] at h
    rw [List.cons_append, searchFrom]
    split at h
    · next hp =>
      rw [if_pos, h]
      rw [List.isPrefixOf_iff_prefix] at hp ⊢
      exact hp.trans (List.prefix_append (c :: cs) d)
    · next hp =>
      rw [if_neg, ih h]
      -- the pattern fits into what is left, so it would be found here already
      intro hp'
      have := le_of_searchFrom h
      rw [List.isPrefixOf_iff_prefix] at hp hp'
      refine hp (List.prefix_of_prefix_length_le hp' (List.prefix_append (c :: cs) d) ?_)
      simp only [List.length_cons]
      omega

/-- What is found within the first text is found there. -/
theorem searchFrom_of_append (h : searchFrom p n (cs ++ d) = some m) (hm : m ≤ n + cs.length) :
    searchFrom p n cs = some m := by
  induction cs generalizing n with
  | nil =>
    have := le_of_searchFrom h
    obtain rfl : p = [] :=
      List.eq_nil_of_length_eq_zero (by simp only [List.length_nil] at hm; omega)
    cases d <;> simpa [searchFrom] using h
  | cons c cs ih =>
    rw [List.cons_append, searchFrom] at h
    rw [searchFrom]
    split at h
    · next hp =>
      rw [if_pos, h]
      rw [List.isPrefixOf_iff_prefix] at hp ⊢
      refine List.prefix_of_prefix_length_le hp (List.prefix_append (c :: cs) d) ?_
      obtain rfl := Option.some.inj h
      omega
    · next hp =>
      rw [if_neg, ih h (by simp only [List.length_cons] at hm; omega)]
      intro hp'
      rw [List.isPrefixOf_iff_prefix] at hp hp'
      exact hp (hp'.trans (List.prefix_append (c :: cs) d))

/-- A search that ends inside a text does not see what follows the text. -/
theorem through_eq_min (p cs d : List Char) :
    through p cs = min (through p (cs ++ d)) cs.length := by
  unfold through throughFirst?
  cases h : searchFrom p 0 cs with
  | some m =>
    have := (le_of_searchFrom h).2
    rw [searchFrom_append h, Option.getD_some, Option.getD_some]
    omega
  | none =>
    cases h' : searchFrom p 0 (cs ++ d) with
    | none =>
      simp only [Option.getD_none, List.length_append]
      omega
    | some m =>
      have : ¬ m ≤ 0 + cs.length := fun hm => by simp [searchFrom_of_append h' hm] at h
      simp only [Option.getD_none, Option.getD_some]
      omega

theorem through_cons_pos (hp : p ≠ []) (c : Char) (cs : List Char) : 0 < through p (c :: cs) := by
  unfold through throughFirst?
  cases h : searchFrom p 0 (c :: cs) with
  | none => simp
  | some m =>
    have := (le_of_searchFrom h).1
    have := List.length_pos_iff.mpr hp
    rw [Option.getD_some]
    omega

/-- A mark that ends a piece ends it whatever follows. -/
theorem through_append_of_eq {y : Char} (h : through p (cs ++ y :: d) = cs.length)
    (d' : List Char) : through p (cs ++ d') = cs.length := by
  unfold through throughFirst? at h ⊢
  cases hfound : searchFrom p 0 (cs ++ y :: d) with
  | none => simp [hfound] at h
  | some m =>
    obtain rfl : m = cs.length := by simpa [hfound] using h
    rw [searchFrom_append (searchFrom_of_append hfound (by omega)), Option.getD_some]

/-- A search for one character ends with that character. -/
theorem getLast?_take_searchFrom {mark : Char} (h : searchFrom [mark] n cs = some m) :
    (cs.take (m - n)).getLast? = some mark := by
  induction cs generalizing n with
  | nil => simp [searchFrom] at h
  | cons c cs ih =>
    rw [searchFrom] at h
    split at h
    · next hp =>
      obtain rfl : mark = c := by simpa [List.isPrefixOf] using hp
      obtain rfl := Option.some.inj h
      simp
    · have hle := (le_of_searchFrom h).1
      obtain ⟨k, rfl⟩ : ∃ k, m = n + 1 + (k + 1) :=
        ⟨m - n - 2, by simp only [List.length_singleton] at hle; omega⟩
      have hlast := ih h
      rw [show n + 1 + (k + 1) - (n + 1) = k + 1 by omega] at hlast
      rw [show n + 1 + (k + 1) - n = (k + 1) + 1 by omega, List.take_succ_cons,
        List.getLast?_cons, hlast]
      rfl

/-- A piece that ends inside a text ends with its mark. -/
theorem getLast?_take_through {mark : Char} (h : through [mark] cs < cs.length) :
    (cs.take (through [mark] cs)).getLast? = some mark := by
  unfold through throughFirst? at h ⊢
  cases hfound : searchFrom [mark] 0 cs with
  | none => simp [hfound] at h
  | some m => simpa using getLast?_take_searchFrom hfound

end Search

/-! ### Strings -/

section Strings

variable {cs d : List Char}

/-- Two quotes are part of the string, one is its end. -/
theorem stringTail_quote (c : Char) (cs : List Char) :
    stringTail ('\'' :: c :: cs) = if c = '\'' then stringTail cs + 2 else 1 := by
  simp [stringTail]

/-- A backslash takes the next character into the string. -/
theorem stringTail_backslash (c : Char) (cs : List Char) :
    stringTail ('\\' :: c :: cs) = stringTail cs + 2 := by
  simp [stringTail]

theorem stringTail_other {c : Char} (hc : c ≠ '\'') (hb : c ≠ '\\') (e : Char) (cs : List Char) :
    stringTail (c :: e :: cs) = stringTail (e :: cs) + 1 := by
  simp [stringTail, hc, hb]

theorem stringTail_cons_pos (c : Char) (cs : List Char) : 0 < stringTail (c :: cs) := by
  rcases cs with _ | ⟨e, cs⟩
  · exact Nat.one_pos
  by_cases hc : c = '\''
  · subst hc
    rw [stringTail_quote]
    split <;> omega
  by_cases hb : c = '\\'
  · subst hb
    rw [stringTail_backslash]
    omega
  · rw [stringTail_other hc hb]
    omega

/-- A string that ends inside a text does not see what follows the text. -/
theorem stringTail_eq_min (cs d : List Char) :
    stringTail cs = min (stringTail (cs ++ d)) cs.length := by
  -- what comes after the text matters only where one character is left
  fun_induction stringTail cs with
  | case1 => simp
  | case2 c =>
    have := stringTail_cons_pos c d
    rw [List.singleton_append, List.length_singleton]
    omega
  | case3 c e cs hc he ih =>
    obtain rfl := eq_of_beq hc
    obtain rfl := eq_of_beq he
    rw [List.cons_append, List.cons_append, stringTail_quote, if_pos rfl]
    simp only [List.length_cons]
    omega
  | case4 c e cs hc he =>
    obtain rfl := eq_of_beq hc
    rw [List.cons_append, List.cons_append, stringTail_quote, if_neg (by simpa using he)]
    simp only [List.length_cons]
    omega
  | case5 c e cs hc hb ih =>
    obtain rfl := eq_of_beq hb
    rw [List.cons_append, List.cons_append, stringTail_backslash]
    simp only [List.length_cons]
    omega
  | case6 c e cs hc hb ih =>
    rw [List.cons_append, List.cons_append,
      stringTail_other (by simpa using hc) (by simpa using hb), ← List.cons_append]
    simp only [List.length_cons] at ih ⊢
    omega

/-- The closing quote of a string closes it before any character but a quote. -/
theorem stringTail_append_of_eq {y r : Char} (hr : r ≠ '\'')
    (h : stringTail (cs ++ y :: d) = cs.length) (d' : List Char) :
    stringTail (cs ++ r :: d') = cs.length := by
  fun_induction stringTail cs with
  | case1 => exact absurd h (Nat.ne_of_gt (stringTail_cons_pos y d))
  | case2 c =>
    have hpos := stringTail_cons_pos y d
    rw [List.singleton_append, List.length_singleton] at h ⊢
    -- only a closing quote ends after one character
    by_cases hc : c = '\''
    · subst hc
      rw [stringTail_quote, if_neg hr]
    by_cases hb : c = '\\'
    · subst hb
      rw [stringTail_backslash] at h
      omega
    · rw [stringTail_other hc hb] at h
      omega
  | case3 c e cs hc he ih =>
    obtain rfl := eq_of_beq hc
    obtain rfl := eq_of_beq he
    rw [List.cons_append, List.cons_append, stringTail_quote, if_pos rfl] at h ⊢
    simp only [List.length_cons] at h ⊢
    have := ih (by omega)
    omega
  | case4 c e cs hc he =>
    obtain rfl := eq_of_beq hc
    rw [List.cons_append, List.cons_append, stringTail_quote, if_neg (by simpa using he)] at h ⊢
    exact h
  | case5 c e cs hc hb ih =>
    obtain rfl := eq_of_beq hb
    rw [List.cons_append, List.cons_append, stringTail_backslash] at h ⊢
    simp only [List.length_cons] at h ⊢
    have := ih (by omega)
    omega
  | case6 c e cs hc hb ih =>
    rw [List.cons_append, List.cons_append,
      stringTail_other (by simpa using hc) (by simpa using hb), ← List.cons_append] at h ⊢
    simp only [List.length_cons] at h ih ⊢
    have := ih (by omega)
    omega

/-- A string that ends inside a text ends with its closing quote. -/
theorem getLast?_take_stringTail (h : stringTail cs < cs.length) :
    (cs.take (stringTail cs)).getLast? = some '\'' := by
  have step : ∀ (a : Char) {l : List Char}, l.getLast? = some '\'' →
      (a :: l).getLast? = some '\'' := fun a l hl => by rw [List.getLast?_cons, hl]; rfl
  fun_induction stringTail cs with
  | case1 => simp at h
  | case2 => simp at h
  | case3 c e cs hc he ih => exact step c (step e (ih (by simpa using h)))
  | case4 c e cs hc he => simpa using hc
  | case5 c e cs hc hb ih => exact step c (step e (ih (by simpa using h)))
  | case6 c e cs hc hb ih => exact step c (ih (by simpa using h))

end Strings

/-! ### Numbers -/

section Numbers

variable {b : Bool} {c e x y r : Char} {cs d : List Char}

/-- Whether an exponent letter and the character after it belong to a number. -/
def isExponent (c e : Char) : Bool :=
  (c == 'e' || c == 'E') && (isDigit e || e == '+' || e == '-')

theorem numberTail_digit (hc : isDigit c = true) (b : Bool) (cs : List Char) :
    numberTail b (c :: cs) = numberTail b cs + 1 := by
  cases cs <;> simp [numberTail, hc]

/-- A number has one point at most. -/
theorem numberTail_point (hc : isDigit c = false) (hp : (c == '.' && !b) = true) (cs : List Char) :
    numberTail b (c :: cs) = numberTail true cs + 1 := by
  cases cs <;> simp [numberTail, hc, hp]

/-- An exponent goes on the number, with its sign or first digit. -/
theorem numberTail_exponent (hc : isDigit c = false) (hp : (c == '.' && !b) = false)
    (he : isExponent c e = true) (cs : List Char) :
    numberTail b (c :: e :: cs) = numberTail b cs + 2 := by
  rw [isExponent] at he
  simp [numberTail, hc, hp, he]

theorem numberTail_end (hc : isDigit c = false) (hp : (c == '.' && !b) = false)
    (he : ∀ e ∈ cs.head?, isExponent c e = false) : numberTail b (c :: cs) = 0 := by
  rcases cs with _ | ⟨e, cs⟩
  · simp [numberTail, hc, hp]
  · have := he e rfl
    rw [isExponent] at this
    simp [numberTail, hc, hp, this]

/-- **Induction along a number**, by what its next character does. -/
theorem numberTail_induction {motive : Bool → List Char → Prop} (nil : ∀ b, motive b [])
    (digit : ∀ b c cs, isDigit c = true → motive b cs → motive b (c :: cs))
    (point : ∀ b c cs, isDigit c = false → (c == '.' && !b) = true → motive true cs →
      motive b (c :: cs))
    (exponent : ∀ b c e cs, isDigit c = false → (c == '.' && !b) = false →
      isExponent c e = true → motive b cs → motive b (c :: e :: cs))
    (stop : ∀ b c cs, isDigit c = false → (c == '.' && !b) = false →
      (∀ e ∈ cs.head?, isExponent c e = false) → motive b (c :: cs))
    (b : Bool) (cs : List Char) : motive b cs := by
  fun_induction numberTail b cs with
  | case1 b => exact nil b
  | case2 b c hc =>
    by_cases hdigit : isDigit c = true
    · exact digit b c [] hdigit (nil b)
    · rw [Bool.not_eq_true] at hdigit
      rw [hdigit, Bool.false_or] at hc
      exact point b c [] hdigit hc (nil true)
  | case3 b c hc =>
    rw [Bool.or_eq_true, not_or, Bool.not_eq_true, Bool.not_eq_true] at hc
    exact stop b c [] hc.1 hc.2 (fun e he => absurd he (by simp))
  | case4 b c e cs hc ih => exact digit b c _ hc ih
  | case5 b c e cs hc hp ih => exact point b c _ (Bool.eq_false_iff.mpr hc) hp ih
  | case6 b c e cs hc hp he ih =>
    exact exponent b c e cs (Bool.eq_false_iff.mpr hc) (Bool.eq_false_iff.mpr hp) he ih
  | case7 b c e cs hc hp he =>
    refine stop b c _ (Bool.eq_false_iff.mpr hc) (Bool.eq_false_iff.mpr hp) fun e' he' => ?_
    obtain rfl := Option.some.inj he'
    exact Bool.eq_false_iff.mpr he

theorem numberTail_le (b : Bool) (cs : List Char) : numberTail b cs ≤ cs.length := by
  induction b, cs using numberTail_induction with
  | nil => exact Nat.le_refl 0
  | digit b c cs hc ih =>
    rw [numberTail_digit hc]
    exact Nat.succ_le_succ ih
  | point b c cs hc hp ih =>
    rw [numberTail_point hc hp]
    exact Nat.succ_le_succ ih
  | exponent b c e cs hc hp he ih =>
    rw [numberTail_exponent hc hp he]
    exact Nat.add_le_add_right ih 2
  | stop b c cs hc hp he =>
    rw [numberTail_end hc hp he]
    exact Nat.zero_le _

/-- A number that ends inside a text does not see what follows the text. -/
theorem numberTail_of_append (h : numberTail b (cs ++ d) ≤ cs.length) :
    numberTail b cs = numberTail b (cs ++ d) := by
  induction b, cs using numberTail_induction with
  | nil b => exact (Nat.le_zero.mp h).symm
  | digit b c cs hc ih =>
    rw [List.cons_append, numberTail_digit hc] at h ⊢
    rw [numberTail_digit hc, ih (Nat.le_of_succ_le_succ h)]
  | point b c cs hc hp ih =>
    rw [List.cons_append, numberTail_point hc hp] at h ⊢
    rw [numberTail_point hc hp, ih (Nat.le_of_succ_le_succ h)]
  | exponent b c e cs hc hp he ih =>
    rw [List.cons_append, List.cons_append, numberTail_exponent hc hp he] at h ⊢
    rw [numberTail_exponent hc hp he, ih (Nat.le_of_add_le_add_right h)]
  | stop b c cs hc hp he =>
    rw [numberTail_end hc hp he, eq_comm, List.cons_append]
    rcases cs with _ | ⟨e, cs⟩
    · -- an exponent would take up two characters, and there is one
      rcases d with _ | ⟨e, d⟩
      · exact numberTail_end hc hp (fun e he => absurd he (by simp))
      refine numberTail_end hc hp fun e' he' => Bool.eq_false_iff.mpr fun hexp => ?_
      obtain rfl := Option.some.inj he'
      rw [List.singleton_append, numberTail_exponent hc hp hexp, List.length_singleton] at h
      omega
    · exact numberTail_end hc hp he

theorem numberTail_cons_pos (hy : isDigit y = true) (d : List Char) :
    0 < numberTail b (y :: d) := by
  rw [numberTail_digit hy]
  exact Nat.succ_pos _

namespace Breaks

theorem ne_point (hr : Breaks r) : (r == '.' && !b) = false := by
  rw [Bool.and_eq_false_iff, beq_eq_false_iff_ne]
  refine .inl ?_
  rintro rfl
  exact absurd hr (by decide)

theorem ne_sign (hr : Breaks r) : r ≠ '+' ∧ r ≠ '-' := by
  constructor
  · rintro rfl
    exact absurd hr (by decide)
  · rintro rfl
    exact absurd hr (by decide)

/-- No breaking character is an exponent letter or goes on with one. -/
theorem isExponent (hr : Breaks r) (c : Char) :
    isExponent r c = false ∧ isExponent c r = false := by
  constructor
  · rw [Piece.isExponent, Bool.and_eq_false_iff, Bool.or_eq_false_iff, beq_eq_false_iff_ne,
      beq_eq_false_iff_ne]
    refine .inl ⟨?_, ?_⟩
    · rintro rfl
      exact absurd hr (by decide)
    · rintro rfl
      exact absurd hr (by decide)
  · simp [Piece.isExponent, hr.isDigit, hr.ne_sign]

end Breaks

/-- No breaking character goes on a number. -/
theorem numberTail_cons_break (b : Bool) (hr : Breaks r) (d : List Char) :
    numberTail b (r :: d) = 0 :=
  numberTail_end hr.isDigit hr.ne_point fun e _ => (hr.isExponent e).1

/-- A number ends at a breaking character. -/
theorem numberTail_append_break (b : Bool) (hr : Breaks r) (cs d : List Char) :
    numberTail b (cs ++ r :: d) = numberTail b cs := by
  induction b, cs using numberTail_induction with
  | nil b => exact numberTail_cons_break b hr d
  | digit b c cs hc ih => rw [List.cons_append, numberTail_digit hc, numberTail_digit hc, ih]
  | point b c cs hc hp ih =>
    rw [List.cons_append, numberTail_point hc hp, numberTail_point hc hp, ih]
  | exponent b c e cs hc hp he ih =>
    rw [List.cons_append, List.cons_append, numberTail_exponent hc hp he,
      numberTail_exponent hc hp he, ih]
  | stop b c cs hc hp he =>
    rw [numberTail_end hc hp he, List.cons_append]
    rcases cs with _ | ⟨e, cs⟩
    · refine numberTail_end hc hp fun e he => ?_
      obtain rfl := Option.some.inj he
      exact (hr.isExponent c).2
    · exact numberTail_end hc hp he

/-- No character that a number goes on with is a breaking one. -/
theorem not_breaks_of_mem_numberTail (hx : x ∈ cs.take (numberTail b cs)) : ¬ Breaks x := by
  intro hr
  induction b, cs using numberTail_induction with
  | nil => simp at hx
  | digit b c cs hc ih =>
    rw [numberTail_digit hc, List.take_succ_cons] at hx
    rcases List.mem_cons.mp hx with rfl | hx
    · simp [hr.isDigit] at hc
    · exact ih hx
  | point b c cs hc hp ih =>
    rw [numberTail_point hc hp, List.take_succ_cons] at hx
    rcases List.mem_cons.mp hx with rfl | hx
    · simp [hr.ne_point] at hp
    · exact ih hx
  | exponent b c e cs hc hp he ih =>
    rw [numberTail_exponent hc hp he, List.take_succ_cons, List.take_succ_cons] at hx
    rcases List.mem_cons.mp hx with rfl | hx
    · simp [(hr.isExponent e).1] at he
    rcases List.mem_cons.mp hx with rfl | hx
    · simp [(hr.isExponent c).2] at he
    · exact ih hx
  | stop b c cs hc hp he => simp [numberTail_end hc hp he] at hx

end Numbers

/-! ### Words -/

/-- As much is taken of a text as of a longer one, up to its own length. -/
theorem length_takeWhile_eq_min (p : Char → Bool) (cs d : List Char) :
    (cs.takeWhile p).length = min ((cs ++ d).takeWhile p).length cs.length := by
  induction cs with
  | nil => simp
  | cons c cs ih => cases h : p c <;> simp [h]; omega

/-- Nothing is taken beyond a character that fails the test. -/
theorem takeWhile_append_break {p : Char → Bool} {r : Char} (hr : p r = false)
    (cs d : List Char) : (cs ++ r :: d).takeWhile p = cs.takeWhile p := by
  induction cs with
  | nil => simp [hr]
  | cons c cs ih => cases h : p c <;> simp [h, ih]

end Piece

end IndexAdvice
