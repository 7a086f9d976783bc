import IndexAdvice.Proofs.Coverage

/-!
# The passages of a query text

From left to right a query text is made of string literals, quoted names, layout and code.
`IsDivided` says by a grammar what that means, without a word on tokens: a string, a quoted name or
a comment starts where code stands before its opening mark, and goes on through the mark that
closes it. Marks inside of it mean nothing. What is code comes in numbers, words, bind parameters
and single characters, because the sign of an exponent opens no comment: `1e--2` subtracts.

* `isPassage_iff`: a stretch of text is the passage at its place just if `Piece.next` reads it so,
  where an operator of two characters makes two passages.
* `existsUnique_isDivided`: every text is divided into passages in one way.
* `readings_eq`: a character of a text is read as the piece is that it belongs to.
* `paren_iff`: a parenthesis is a token of its own just if it is code.
-/

namespace IndexAdvice

open Text

/-! ### The grammar -/

/-- What a stretch of query text is. -/
inductive Reading where
  /-- Words, numbers, parameters and symbols. -/
  | code
  /-- Blanks and comments. -/
  | layout
  | string
  /-- A quoted name. -/
  | name
deriving DecidableEq, Repr

/-- What a string literal holds between its quotes: any character but a quote and a backslash, a
doubled quote, and a backslash with the character that it protects. -/
inductive IsStringBody : List Char → Prop
  | nil : IsStringBody []
  | plain {c : Char} {cs : List Char} (hc : c ≠ '\'' ∧ c ≠ '\\') (h : IsStringBody cs) :
    IsStringBody (c :: cs)
  | doubled {cs : List Char} (h : IsStringBody cs) : IsStringBody ('\'' :: '\'' :: cs)
  | escaped (c : Char) {cs : List Char} (h : IsStringBody cs) : IsStringBody ('\\' :: c :: cs)

/-- **A string literal** before the text `rest`. One that is not closed is the end of the text, and
a last backslash in it protects nothing. -/
inductive IsString : List Char → List Char → Prop
  | closed {body rest : List Char} (hbody : IsStringBody body) (hrest : rest.head? ≠ some '\'') :
    IsString rest ('\'' :: (body ++ ['\'']))
  | unclosed {body : List Char} (hbody : IsStringBody body) : IsString [] ('\'' :: body)
  | unprotected {body : List Char} (hbody : IsStringBody body) :
    IsString [] ('\'' :: (body ++ ['\\']))

/-- The marks that names are quoted with. -/
def IsNameQuote (q : Char) : Prop :=
  q = '"' ∨ q = '\x60'

/-- **A quoted name** before the text `rest`. One that is not closed is the end of the text. -/
inductive IsQuotedName : List Char → List Char → Prop
  | closed {q : Char} {body : List Char} (rest : List Char) (hq : IsNameQuote q)
    (hbody : q ∉ body) : IsQuotedName rest (q :: (body ++ [q]))
  | unclosed {q : Char} {body : List Char} (hq : IsNameQuote q) (hbody : q ∉ body) :
    IsQuotedName [] (q :: body)

/-- Whether the character `c` before `cs` is code: it is no blank, and no comment, string or quoted
name opens with it. -/
structure IsCode (c : Char) (cs : List Char) : Prop where
  not_blank : isBlank c = false
  not_quote : c ≠ '\''
  not_nameQuote : ¬ IsNameQuote c
  not_line : ¬ (c = '-' ∧ cs.head? = some '-')
  not_block : ¬ (c = '/' ∧ cs.head? = some '*')

/-- What a number goes on with: digits, one point if none has been `pointSeen`, and exponent letters
that a digit or sign follows. -/
inductive IsNumberTail : Bool → List Char → Prop
  | nil {pointSeen : Bool} : IsNumberTail pointSeen []
  | digit {pointSeen : Bool} {c : Char} {cs : List Char} (hc : isDigit c = true)
    (h : IsNumberTail pointSeen cs) : IsNumberTail pointSeen (c :: cs)
  | point {cs : List Char} (h : IsNumberTail true cs) : IsNumberTail false ('.' :: cs)
  | exponent {pointSeen : Bool} {e d : Char} {cs : List Char} (he : e = 'e' ∨ e = 'E')
    (hd : isDigit d = true ∨ d = '+' ∨ d = '-') (h : IsNumberTail pointSeen cs) :
    IsNumberTail pointSeen (e :: d :: cs)

/-- Whether `tail` is the longest text with `P` that the text `tail ++ rest` starts with. -/
def IsLongest (P : List Char → Prop) (rest tail : List Char) : Prop :=
  P tail ∧ ∀ more, more <+: rest → P (tail ++ more) → more = []

/-- Whether `tail` is what belongs together with the code `c` before it. A number, a word and a bind
parameter, which is numbered or named, go on as far as they can. A symbol is by itself. -/
def IsCodeTail (before : Option Char) (c : Char) (rest tail : List Char) : Prop :=
  if isDigit c || (c == '.' && (tail ++ rest).head?.any isDigit) then
    IsLongest (IsNumberTail (c == '.')) rest tail
  else if isLetter c || c == '_' then
    IsLongest (fun word => ∀ x ∈ word, isAlphanumeric x || x == '_' || x == '$') rest tail
  else if (c == '$' && (tail ++ rest).head?.any isDecimal) || c == '?' then
    IsLongest (fun digits => ∀ x ∈ digits, isDecimal x) rest tail
  else if ((c == ':' && before != some ':') || c == '@') &&
      (tail ++ rest).head?.any isIdentStart then
    IsLongest (fun name => ∀ x ∈ name, isWordChar x) rest tail
  else tail = []

/-- **A passage** after the character `before` and before the text `rest`. -/
inductive IsPassage (before : Option Char) (rest : List Char) : Reading → List Char → Prop
  | layout {text : List Char} (h : IsLayoutUnit rest text) : IsPassage before rest .layout text
  | string {text : List Char} (h : IsString rest text) : IsPassage before rest .string text
  | name {text : List Char} (h : IsQuotedName rest text) : IsPassage before rest .name text
  | code {c : Char} {tail : List Char} (hc : IsCode c (tail ++ rest))
    (htail : IsCodeTail before c rest tail) :
    IsPassage before rest .code (c :: tail)

/-- A stretch of query text and what it is. -/
structure Passage where
  reading : Reading
  text : List Char
deriving DecidableEq, Repr

/-- **The division of a text into passages**, one after the other. -/
inductive IsDivided : Option Char → List Char → List Passage → Prop
  | nil {before : Option Char} : IsDivided before [] []
  | cons {before : Option Char} {reading : Reading} {text rest : List Char} {ps : List Passage}
    (h : IsPassage before rest reading text) (hrest : IsDivided text.getLast? rest ps) :
    IsDivided before (text ++ rest) (⟨reading, text⟩ :: ps)

/-- What each character of a divided text is. -/
def readings (ps : List Passage) : List Reading :=
  ps.flatMap fun p => List.replicate p.text.length p.reading

/-! ### Quoted names -/

open Piece

variable {before : Option Char} {c : Char} {pattern body cs tail rest : List Char} {r : Reading}

/-- A quoted name goes through its closing mark. -/
theorem isQuotedName_iff (hc : IsNameQuote c) :
    IsQuotedName rest (c :: tail) ↔ through [c] (tail ++ rest) = tail.length := by
  rw [through_eq_length_iff List.not_mem_nil]
  simp only [List.singleton_infix_iff]
  constructor
  · intro h
    cases h with
    | closed _ _ hbody => exact .inl ⟨_, rfl, hbody⟩
    | unclosed _ hbody => exact .inr ⟨rfl, hbody⟩
  · rintro (⟨body, rfl, hbody⟩ | ⟨rfl, hbody⟩)
    · exact .closed rest hc hbody
    · exact .unclosed hc hbody

/-! ### Strings -/

/-- The body of a string is passed over. -/
theorem stringTail_body (h : IsStringBody body) (cs : List Char) :
    stringTail (body ++ cs) = body.length + stringTail cs := by
  induction h with
  | nil => simp
  | @plain c body hc _ ih =>
    cases hbody : body ++ cs with
    | nil =>
      obtain ⟨rfl, rfl⟩ := List.append_eq_nil_iff.mp hbody
      rfl
    | cons d ds =>
      rw [List.cons_append, hbody, stringTail_other hc.1 hc.2, ← hbody, ih, List.length_cons]
      omega
  | doubled _ ih =>
    rw [List.cons_append, List.cons_append, stringTail_quote, if_pos rfl, ih, List.length_cons,
      List.length_cons]
    omega
  | escaped c _ ih =>
    rw [List.cons_append, List.cons_append, stringTail_backslash, ih, List.length_cons,
      List.length_cons]
    omega

/-- What starts the body of a string may stand before any string. -/
theorem IsString.prepend (front : List Char)
    (hfront : ∀ body, IsStringBody body → IsStringBody (front ++ body))
    (h : IsString rest ('\'' :: tail)) : IsString rest ('\'' :: (front ++ tail)) := by
  cases h with
  | @closed body _ hbody hrest =>
    rw [← List.append_assoc]
    exact .closed (hfront body hbody) hrest
  | unclosed hbody => exact .unclosed (hfront tail hbody)
  | @unprotected body hbody =>
    rw [← List.append_assoc]
    exact .unprotected (hfront body hbody)

/-- An opening quote and what belongs to it are a string. -/
theorem isString_stringTail (cs : List Char) :
    IsString (cs.drop (stringTail cs)) ('\'' :: cs.take (stringTail cs)) := by
  fun_induction stringTail cs with
  | case1 => exact .unclosed .nil
  | case2 c =>
    by_cases hquote : c = '\''
    · subst hquote
      exact .closed .nil (by simp)
    by_cases hback : c = '\\'
    · subst hback
      exact .unprotected .nil
    · exact .unclosed (.plain ⟨hquote, hback⟩ .nil)
  | case3 c d cs hc hd ih =>
    obtain rfl := eq_of_beq hc
    obtain rfl := eq_of_beq hd
    exact ih.prepend ['\'', '\''] fun _ => .doubled
  | case4 c d cs hc hd =>
    obtain rfl := eq_of_beq hc
    exact .closed .nil (by simpa using hd)
  | case5 c d cs hc hb ih =>
    obtain rfl := eq_of_beq hb
    exact ih.prepend ['\\', d] fun _ => .escaped d
  | case6 c d cs hc hb ih =>
    exact ih.prepend [c] fun _ => .plain ⟨by simpa using hc, by simpa using hb⟩

/-- A string goes through its closing quote. -/
theorem isString_iff :
    IsString rest ('\'' :: tail) ↔ stringTail (tail ++ rest) = tail.length := by
  constructor
  · intro h
    cases h with
    | @closed body _ hbody hrest =>
      rw [List.append_assoc, stringTail_body hbody, List.length_append]
      cases rest with
      | nil => rfl
      | cons d ds =>
        rw [List.singleton_append, stringTail_quote, if_neg (by simpa using hrest)]
        rfl
    | unclosed hbody => exact stringTail_body hbody []
    | @unprotected body hbody =>
      rw [List.append_nil, stringTail_body hbody, List.length_append]
      rfl
  · intro h
    have := isString_stringTail (tail ++ rest)
    rwa [h, List.drop_left, List.take_left] at this

/-! ### Numbers, words and parameters -/

/-- **The longest text** is the one that a function counts, if the function counts a text with `P`
and no text with `P` has more characters than it counts. -/
theorem isLongest_iff {P : List Char → Prop} {count : List Char → Nat}
    (hle : ∀ cs, count cs ≤ cs.length) (hcount : ∀ cs, P (List.take (count cs) cs))
    (hmost : ∀ front back, P front → front.length ≤ count (front ++ back)) :
    IsLongest P rest tail ↔ tail.length = count (tail ++ rest) := by
  constructor
  · rintro ⟨htail, hmore⟩
    have hlength := hmost tail rest htail
    have hwhole := hcount (tail ++ rest)
    rw [List.take_append, List.take_of_length_le hlength] at hwhole
    have hstart := List.take_prefix (count (tail ++ rest) - tail.length) rest
    have hnone := hmore _ hstart hwhole
    have hshort := hle (tail ++ rest)
    rw [List.take_eq_nil_iff] at hnone
    rw [List.length_append] at hshort
    rcases hnone with hzero | rfl
    · omega
    · rw [List.length_nil] at hshort
      omega
  · intro h
    constructor
    · have := hcount (tail ++ rest)
      rwa [← h, List.take_left] at this
    · rintro more ⟨later, rfl⟩ hmore
      have := hmost (tail ++ more) later hmore
      rw [List.append_assoc, ← h, List.length_append] at this
      exact List.eq_nil_of_length_eq_zero (by omega)

/-- A run of characters is counted by taking them one by one. -/
theorem isLongest_run_iff (p : Char → Bool) :
    IsLongest (fun run => ∀ x ∈ run, p x) rest tail ↔
      tail.length = ((tail ++ rest).takeWhile p).length := by
  have hstart (cs : List Char) : cs.takeWhile p <+: cs := List.takeWhile_prefix p
  refine isLongest_iff (fun cs => (hstart cs).length_le) (fun cs x hx => ?_) fun front back h => ?_
  · rw [← List.prefix_iff_eq_take.mp (hstart cs)] at hx
    exact List.all_eq_true.mp List.all_takeWhile x hx
  · rw [List.takeWhile_append_of_pos h, List.length_append]
    exact Nat.le_add_right _ _

/-- What is counted of a number goes on that number. -/
theorem isNumberTail_take (pointSeen : Bool) (cs : List Char) :
    IsNumberTail pointSeen (cs.take (numberTail pointSeen cs)) := by
  induction pointSeen, cs using numberTail_induction with
  | nil => exact .nil
  | digit b c cs hc ih =>
    rw [numberTail_digit hc]
    exact .digit hc ih
  | point b c cs hc hp ih =>
    obtain ⟨rfl, rfl⟩ : c = '.' ∧ b = false := by simpa using hp
    rw [numberTail_point hc hp]
    exact .point ih
  | exponent b c e cs hc hp he ih =>
    rw [numberTail_exponent hc hp he]
    simp only [isExponent, Bool.and_eq_true, Bool.or_eq_true, beq_iff_eq, or_assoc] at he
    exact .exponent he.1 he.2 ih
  | stop b c cs hc hp he =>
    rw [numberTail_end hc hp he]
    exact .nil

/-- What a number can go on with is no longer than what is counted, whatever follows. -/
theorem IsNumberTail.length_le {pointSeen : Bool} {front : List Char}
    (h : IsNumberTail pointSeen front) (back : List Char) :
    front.length ≤ numberTail pointSeen (front ++ back) := by
  induction h with
  | nil => exact Nat.zero_le _
  | digit hc _ ih =>
    rw [List.cons_append, numberTail_digit hc]
    exact Nat.succ_le_succ ih
  | point _ ih =>
    rw [List.cons_append, numberTail_point (by decide) (by decide)]
    exact Nat.succ_le_succ ih
  | @exponent b e d cs he hd _ ih =>
    have hdigit : isDigit e = false ∧ (e == '.' && !b) = false := by
      rcases he with rfl | rfl <;> exact ⟨by decide, by simp⟩
    have hexponent : isExponent e d = true := by
      simpa [isExponent, or_assoc] using And.intro he hd
    rw [List.cons_append, List.cons_append, numberTail_exponent hdigit.1 hdigit.2 hexponent]
    exact Nat.add_le_add_right ih 2

/-- How many of the characters `cs` belong together with the code `c` before them. -/
def codeTail (before : Option Char) (c : Char) (cs : List Char) : Nat :=
  if isDigit c || (c == '.' && cs.head?.any isDigit) then numberTail (c == '.') cs
  else if isLetter c || c == '_' then (cs.takeWhile isWordTail).length
  else (parameterTail before c cs).getD 0

/-- **The tail of code** has as many characters as `codeTail` counts. -/
theorem isCodeTail_iff :
    IsCodeTail before c rest tail ↔ tail.length = codeTail before c (tail ++ rest) := by
  rw [IsCodeTail, codeTail, parameterTail_eq]
  split
  · exact isLongest_iff (numberTail_le _) (isNumberTail_take _) fun _ back h => h.length_le back
  split
  · exact isLongest_run_iff isWordTail
  split
  · exact isLongest_run_iff isDecimal
  split
  · exact isLongest_run_iff isWordChar
  · exact List.length_eq_zero_iff.symm

/-! ### A passage and a piece -/

theorem next_quote : next before '\'' cs = (some .string, stringTail cs) :=
  rfl

theorem next_nameQuote (hc : IsNameQuote c) :
    next before c cs = (some .quoted, through [c] cs) := by
  rcases hc with rfl | rfl <;> rfl

/-- **Code** is read as tokens that are neither strings nor quoted names. -/
theorem next_of_isCode (before : Option Char) (h : IsCode c cs) :
    ∃ k, (next before c cs).1 = some k ∧ (k ≠ .string ∧ k ≠ .quoted) ∧
      (k ≠ .operator → (next before c cs).2 = codeTail before c cs) ∧
      (k = .operator → codeTail before c cs = 0 ∧ ((next before c cs).2 = 0 ∨
        (next before c cs).2 = 1 ∧ ∃ d ∈ cs.head?, (c, d) ∈ wideOperators)) := by
  have hline : ¬ (c == '-' && cs.head? == some '-') = true := by simpa using h.not_line
  have hblock : ¬ (c == '/' && cs.head? == some '*') = true := by simpa using h.not_block
  have hname : ¬ (c == '"' || c == '\x60') = true := by simpa [IsNameQuote] using h.not_nameQuote
  -- the tests for layout, strings and quoted names fail, and the others tell what code it is
  rw [next, if_neg (by simp [h.not_blank]), if_neg hline, if_neg hblock,
    if_neg (by simpa using h.not_quote), if_neg hname, codeTail]
  split
  · exact ⟨.number, by simp⟩
  split
  · exact ⟨.word, by simp⟩
  cases parameterTail before c cs with
  | some n => exact ⟨.placeholder, by simp⟩
  | none =>
    dsimp only [Option.getD_none]
    cases hmark : punctuation c with
    | some k =>
      refine ⟨k, rfl, ?_, fun _ => rfl, fun _ => ⟨rfl, .inl rfl⟩⟩
      unfold punctuation at hmark
      constructor <;> rintro rfl <;> grind
    | none =>
      dsimp only
      split
      · next hwide =>
        obtain ⟨d, hd, hpair⟩ := (Option.any_eq_true _ _).mp hwide
        have hwide : (c, d) ∈ wideOperators := by simpa using hpair
        exact ⟨.operator, rfl, by simp, by simp, fun _ => ⟨rfl, .inr ⟨rfl, d, hd, hwide⟩⟩⟩
      split
      · exact ⟨.operator, by simp⟩
      · exact ⟨.other, by simp⟩

/-- What is no code is layout, a string or a quoted name. -/
theorem starts_of_not_isCode (h : ¬ IsCode c cs) :
    (isBlank c = true ∨ (c = '-' ∧ cs.head? = some '-') ∨ (c = '/' ∧ cs.head? = some '*')) ∨
      c = '\'' ∨ IsNameQuote c := by
  by_contra hno
  simp only [not_or, Bool.not_eq_true] at hno
  exact h ⟨hno.1.1, hno.2.1, hno.2.2, hno.1.2.1, hno.1.2.2⟩

/-- What starts layout starts no token. -/
theorem next_of_layout (before : Option Char)
    (h : isBlank c = true ∨ (c = '-' ∧ cs.head? = some '-') ∨ (c = '/' ∧ cs.head? = some '*')) :
    (next before c cs).1 = none := by
  rcases h with hc | ⟨rfl, hcs⟩ | ⟨rfl, hcs⟩
  · rw [next_blank hc]
  · rw [next_line hcs]
  · obtain ⟨cs, rfl⟩ := List.head?_eq_some_iff.mp hcs
    rw [next_block]

/-- What a piece of some kind is. -/
def readingOf : Option TokenKind → Reading
  | none => .layout
  | some .string => .string
  | some .quoted => .name
  | some _ => .code

/-- What the passage is that starts with `c`, and how many further characters it has. Each
character of an operator is a passage of its own. -/
def passageAt (before : Option Char) (c : Char) (cs : List Char) : Reading × Nat :=
  (readingOf (next before c cs).1,
    if (next before c cs).1 = some .operator then 0 else (next before c cs).2)

theorem readingOf_code {k : TokenKind} (hk : k ≠ .string ∧ k ≠ .quoted) :
    readingOf (some k) = .code := by
  unfold readingOf
  split <;> simp_all

/-- Code goes on as far as its number, word or parameter does. -/
theorem passageAt_of_isCode (h : IsCode c cs) :
    passageAt before c cs = (.code, codeTail before c cs) := by
  obtain ⟨k, hk, hkind, hother, hoperator⟩ := next_of_isCode before h
  rw [passageAt, hk, readingOf_code hkind, Prod.mk.injEq]
  refine ⟨rfl, ?_⟩
  by_cases hop : k = .operator
  · rw [hop, if_pos rfl, (hoperator hop).1]
  · rw [if_neg (by simpa using hop), hother hop]

/-- **Passages** are what `next` finds, symbol by symbol. -/
theorem isPassage_iff :
    IsPassage before rest r (c :: tail) ↔ passageAt before c (tail ++ rest) = (r, tail.length) := by
  constructor
  · intro h
    cases h with
    | layout h =>
      rw [passageAt, next_of_isLayoutUnit h]
      rfl
    | string h =>
      obtain rfl : c = '\'' := by cases h <;> rfl
      rw [passageAt, next_quote, isString_iff.mp h]
      rfl
    | name h =>
      have hc : IsNameQuote c := by cases h <;> assumption
      rw [passageAt, next_nameQuote hc, (isQuotedName_iff hc).mp h]
      rfl
    | code hc htail => rw [passageAt_of_isCode hc, isCodeTail_iff.mp htail]
  · intro h
    by_cases hc : IsCode c (tail ++ rest)
    · obtain ⟨rfl, hlength⟩ := Prod.mk.inj ((passageAt_of_isCode hc).symm.trans h)
      exact .code hc (isCodeTail_iff.mpr hlength.symm)
    · -- what is no code is settled by its first characters
      rcases starts_of_not_isCode hc with hlayout | rfl | hname
      · have hnone := next_of_layout before hlayout
        have hunit := isLayoutUnit_of_next hnone
        rw [passageAt, hnone, if_neg (by simp)] at h
        obtain ⟨rfl, hlength⟩ := Prod.mk.inj h
        rw [hlength, List.drop_left, List.take_left] at hunit
        exact .layout hunit
      · rw [passageAt, next_quote] at h
        obtain ⟨rfl, hlength⟩ := Prod.mk.inj h
        exact .string (isString_iff.mpr hlength)
      · rw [passageAt, next_nameQuote hname] at h
        obtain ⟨rfl, hlength⟩ := Prod.mk.inj h
        exact .name ((isQuotedName_iff hname).mpr hlength)

/-! ### The division of a text -/

theorem IsPassage.ne_nil {text : List Char} (h : IsPassage before rest r text) : text ≠ [] := by
  cases h with
  | layout h => cases h <;> exact List.cons_ne_nil _ _
  | string h => cases h <;> exact List.cons_ne_nil _ _
  | name h => cases h <;> exact List.cons_ne_nil _ _
  | code => exact List.cons_ne_nil _ _

/-- At each place there is one passage. -/
theorem IsPassage.unique {r' : Reading} {text text' rest' : List Char}
    (h : IsPassage before rest r text) (h' : IsPassage before rest' r' text')
    (heq : text ++ rest = text' ++ rest') : r = r' ∧ text = text' ∧ rest = rest' := by
  obtain ⟨c, tail, rfl⟩ := List.exists_cons_of_ne_nil h.ne_nil
  obtain ⟨c', tail', rfl⟩ := List.exists_cons_of_ne_nil h'.ne_nil
  obtain ⟨rfl, htail⟩ : c = c' ∧ tail ++ rest = tail' ++ rest' := List.cons.inj heq
  have hat := isPassage_iff.mp h'
  rw [← htail, isPassage_iff.mp h] at hat
  obtain ⟨rfl, hlength⟩ := Prod.mk.inj hat
  obtain ⟨rfl, rfl⟩ := List.append_inj htail hlength
  exact ⟨rfl, rfl, rfl⟩

/-- Every text can be divided, as some passage starts at each of its characters. -/
theorem exists_isDivided (before : Option Char) (cs : List Char) :
    ∃ ps, IsDivided before cs ps := by
  induction hn : cs.length using Nat.strong_induction_on generalizing before cs with
  | _ n ih =>
    cases cs with
    | nil => exact ⟨[], .nil⟩
    | cons c cs =>
      obtain ⟨r, m, hat⟩ : ∃ r m, passageAt before c cs = (r, m) := ⟨_, _, rfl⟩
      have hm : m ≤ cs.length := by
        have hle := next_le before c cs
        have := (Prod.mk.inj hat).2
        split at this <;> omega
      obtain ⟨ps, hps⟩ := ih (cs.drop m).length
        (by rw [← hn, List.length_drop, List.length_cons]; omega) (c :: cs.take m).getLast?
        (cs.drop m) rfl
      have hpassage : IsPassage before (cs.drop m) r (c :: cs.take m) := by
        rw [isPassage_iff, List.take_append_drop, hat, List.length_take, Nat.min_eq_left hm]
      have := IsDivided.cons hpassage hps
      rw [List.cons_append, List.take_append_drop] at this
      exact ⟨_, this⟩

/-- It can be so in one way only, as passages are settled by the text. -/
theorem IsDivided.unique {ps qs : List Passage} (h : IsDivided before cs ps)
    (h' : IsDivided before cs qs) : ps = qs := by
  induction h generalizing qs with
  | nil =>
    generalize hcs : ([] : List Char) = cs at h'
    cases h' with
    | nil => rfl
    | cons hp _ => exact absurd (List.append_eq_nil_iff.mp hcs.symm).1 hp.ne_nil
  | @cons before r text rest ps hp _ ih =>
    generalize hcs : text ++ rest = cs at h'
    cases h' with
    | nil => exact absurd (List.append_eq_nil_iff.mp hcs).1 hp.ne_nil
    | cons hp' hrest' =>
      obtain ⟨rfl, rfl, rfl⟩ := hp.unique hp' hcs
      rw [ih hrest']

/-- **Every text** is divided into passages in one way. -/
theorem existsUnique_isDivided (before : Option Char) (cs : List Char) :
    ∃! ps, IsDivided before cs ps :=
  existsUnique_of_exists_of_unique (exists_isDivided before cs) fun _ _ => IsDivided.unique

/-! ### Passages and pieces -/

/-- Where a piece has been cut off, the cutting goes on as at the start of a text. -/
theorem cut_skip {n : Nat} (h : n ≤ cs.length) :
    cut before n cs = cut ((cs.take n).getLast?.or before) 0 (cs.drop n) := by
  induction cs generalizing before n with
  | nil =>
    obtain rfl : n = 0 := Nat.le_zero.mp h
    rfl
  | cons c cs ih =>
    cases n with
    | zero => rfl
    | succ n =>
      rw [cut, ih (Nat.le_of_succ_le_succ h), List.take_succ_cons, List.drop_succ_cons,
        List.getLast?_cons]
      cases (cs.take n).getLast? <;> rfl

/-- The second character of an operator is a symbol too. -/
theorem passageAt_second {d : Char} (h : (c, d) ∈ wideOperators) :
    passageAt (some c) d cs = (.code, 0) := by
  have hcode : IsCode d cs ∧ codeTail (some c) d cs = 0 := by
    simp only [wideOperators, List.mem_cons, Prod.mk.injEq, List.not_mem_nil, or_false] at h
    rcases h with ⟨rfl, rfl⟩ | ⟨rfl, rfl⟩ | ⟨rfl, rfl⟩ | ⟨rfl, rfl⟩ | ⟨rfl, rfl⟩ | ⟨rfl, rfl⟩ |
      ⟨rfl, rfl⟩ | ⟨rfl, rfl⟩ | ⟨rfl, rfl⟩ | ⟨rfl, rfl⟩ <;>
    exact ⟨⟨by decide, by decide, by simp [IsNameQuote], by simp, by simp⟩, rfl⟩
  rw [passageAt_of_isCode hcode.1, hcode.2]

/-- In a division it is a passage by itself. -/
theorem IsDivided.second {d : Char} {ds : List Char} {ps : List Passage}
    (h : IsDivided (some c) (d :: ds) ps) (hpair : (c, d) ∈ wideOperators) :
    ∃ ps', ps = ⟨.code, [d]⟩ :: ps' ∧ IsDivided (some d) ds ps' := by
  generalize hcs : d :: ds = cs at h
  cases h with
  | nil => exact absurd hcs (List.cons_ne_nil d ds)
  | cons hp hrest =>
    obtain ⟨d', tail, rfl⟩ := List.exists_cons_of_ne_nil hp.ne_nil
    obtain ⟨rfl, rfl⟩ := List.cons.inj hcs
    have hat := isPassage_iff.mp hp
    rw [passageAt_second hpair, Prod.mk.injEq] at hat
    obtain ⟨rfl, hlength⟩ := hat
    obtain rfl : tail = [] := List.eq_nil_of_length_eq_zero hlength.symm
    exact ⟨_, rfl, hrest⟩

/-- **A character is read** as the piece is that it belongs to. -/
theorem readings_eq {ps : List Passage} (h : IsDivided before cs ps) :
    readings ps =
      (cut before 0 cs).flatMap fun p => List.replicate p.text.length (readingOf p.kind) := by
  induction hn : cs.length using Nat.strong_induction_on generalizing before cs ps with
  | _ n ih =>
    cases h with
    | nil => rfl
    | @cons _ r text rest ps hp hrest =>
      obtain ⟨c, tail, rfl⟩ := List.exists_cons_of_ne_nil hp.ne_nil
      obtain ⟨kind, m, hnext⟩ : ∃ kind m, next before c (tail ++ rest) = (kind, m) := ⟨_, _, rfl⟩
      have hat := isPassage_iff.mp hp
      rw [passageAt, hnext, Prod.mk.injEq] at hat
      obtain ⟨rfl, hlength⟩ := hat
      simp only [List.length_append, List.length_cons] at hn
      rw [List.cons_append, cut, hnext, readings, List.flatMap_cons, List.flatMap_cons,
        ← readings]
      by_cases hm : m = tail.length
      · -- the passage is the piece
        subst hm
        rw [cut_skip (by simp), List.take_left, List.drop_left]
        have hlast : (c :: tail).getLast? = tail.getLast?.or (some c) := by
          rw [List.getLast?_cons]
          cases tail.getLast? <;> rfl
        rw [ih rest.length (by omega) (hlast ▸ hrest) rfl]
      · -- an operator of two characters, of which the second one is the next passage
        obtain rfl : kind = some .operator := by
          by_contra hkind
          exact hm (by simpa [hkind] using hlength)
        obtain rfl : tail = [] := List.eq_nil_of_length_eq_zero hlength.symm
        rw [List.nil_append] at hnext
        have hcode : IsCode c rest := by
          cases hp with
          | code hc _ => exact hc
        obtain ⟨k, hk, -, -, hoperator⟩ := next_of_isCode before hcode
        rw [hnext] at hk hoperator
        obtain ⟨rfl, d, hd, hpair⟩ :=
          ((hoperator (Option.some.inj hk).symm).2).resolve_left (by simpa using hm)
        obtain ⟨ds, rfl⟩ := List.head?_eq_some_iff.mp hd
        obtain ⟨ps, rfl, hlater⟩ := hrest.second hpair
        rw [List.length_cons] at hn
        rw [readings, List.flatMap_cons, ← readings, ih ds.length (by omega) hlater rfl]
        rfl

/-! ### Parentheses -/

/-- Whether the character `c` at position `p` is a token, as a parenthesis is. -/
def IsParenAt (ts : List Token) (p : Nat) (c : Char) : Prop :=
  ∃ t ∈ ts, t.start = p ∧ t.text = String.ofList [c] ∧ t.kind = if c = '(' then .lparen else .rparen

theorem isParenAt_cons_of_ne {t : Token} {ts : List Token} {p : Nat} (h : t.start ≠ p) :
    IsParenAt (t :: ts) p c ↔ IsParenAt ts p c := by
  simp [IsParenAt, h]

/-- No token of later pieces is at an earlier place. -/
theorem not_isParenAt_locate {ps : List Piece} {start depth p : Nat} (h : p < start) :
    ¬ IsParenAt (Token.locate start depth ps) p c := by
  rintro ⟨t, ht, rfl, -⟩
  exact absurd (Token.start_le_of_mem_locate ht) (Nat.not_le.mpr h)

/-- **A parenthesis of code is a piece by itself.** -/
theorem eq_of_paren_mem {skip : Nat} {q : Piece} {x : Char} (h : q ∈ cut before skip cs)
    (hq : readingOf q.kind = .code) (hx : x ∈ q.text) (hparen : x = '(' ∨ x = ')') :
    q = ⟨punctuation x, [x]⟩ := by
  obtain ⟨b, c, ds, rfl⟩ := exists_step_of_mem_cut h
  rcases List.mem_cons.mp hx with rfl | hx
  · rcases hparen with rfl | rfl
    · rw [next_lparen_eq]
      rfl
    · rw [next_rparen]
      rfl
  · have hbreaks : Breaks x := by rcases hparen with rfl | rfl <;> decide
    cases hnext : next b c ds with
    | mk kind n =>
      rw [hnext] at hq hx
      cases kind with
      | none => simp [readingOf] at hq
      | some k =>
        refine absurd hbreaks (not_breaks_of_mem_next hnext hx ?_)
        rintro (rfl | rfl) <;> simp [readingOf] at hq

/-- In its first piece a parenthesis is a token just if it is code. -/
theorem isParenAt_locate_first {kind : Option TokenKind} {text : List Char} {ps : List Piece}
    {start depth p : Nat} (hp : text[p]? = some c) (hc : c = '(' ∨ c = ')')
    (halone : readingOf kind = .code → (⟨kind, text⟩ : Piece) = ⟨punctuation c, [c]⟩) :
    IsParenAt (Token.locate start depth (⟨kind, text⟩ :: ps)) (start + p) c ↔
      readingOf kind = .code := by
  have hkind : punctuation c = some (if c = '(' then .lparen else .rparen) := by
    rcases hc with rfl | rfl <;> rfl
  have hlt : p < text.length := (List.getElem?_eq_some_iff.mp hp).1
  have hlater (depth : Nat) :
      ¬ IsParenAt (Token.locate (start + text.length) depth ps) (start + p) c :=
    not_isParenAt_locate (by omega)
  constructor
  · intro hparen
    cases kind with
    | none =>
      rw [Token.locate_none] at hparen
      exact absurd hparen (hlater depth)
    | some k =>
      rw [Token.locate_some] at hparen
      obtain ⟨t, ht, hstart, htext, hk⟩ := hparen
      rcases List.mem_cons.mp ht with rfl | ht
      · obtain rfl : k = if c = '(' then .lparen else .rparen := hk
        split <;> rfl
      · exact absurd ⟨t, ht, hstart, htext, hk⟩ (hlater _)
  · intro hcode
    -- code with this character is the parenthesis alone
    obtain ⟨rfl, rfl⟩ := Piece.mk.inj (halone hcode)
    obtain rfl : p = 0 := Nat.lt_one_iff.mp hlt
    rw [hkind, Token.locate_some]
    exact ⟨_, List.mem_cons_self, rfl, rfl, rfl⟩

/-- After its first piece it is one just if it is one of the later tokens. -/
theorem isParenAt_locate_later {kind : Option TokenKind} {text : List Char} {ps : List Piece}
    (start depth m : Nat) (htext : text ≠ []) :
    ∃ depth', IsParenAt (Token.locate start depth (⟨kind, text⟩ :: ps))
        (start + (text.length + m)) c ↔
      IsParenAt (Token.locate (start + text.length) depth' ps) (start + text.length + m) c := by
  have hpos : 0 < text.length := List.length_pos_iff.mpr htext
  rw [← Nat.add_assoc]
  cases kind with
  | none => exact ⟨depth, by rw [Token.locate_none]⟩
  | some k =>
    refine ⟨Token.depthAfter depth k, ?_⟩
    rw [Token.locate_some, isParenAt_cons_of_ne]
    show start ≠ start + text.length + m
    omega

/-- Among pieces of which each parenthesis of code is one, a parenthesis is a token just if it is
code. -/
theorem isParenAt_locate_iff {ps : List Piece} {p : Nat} (start depth : Nat)
    (hne : ∀ q ∈ ps, q.text ≠ [])
    (halone : ∀ q ∈ ps, readingOf q.kind = .code → c ∈ q.text → q = ⟨punctuation c, [c]⟩)
    (hp : (ps.flatMap Piece.text)[p]? = some c) (hc : c = '(' ∨ c = ')') :
    IsParenAt (Token.locate start depth ps) (start + p) c ↔
      (ps.flatMap fun q => List.replicate q.text.length (readingOf q.kind))[p]? = some .code := by
  induction ps generalizing start depth p with
  | nil => simp at hp
  | cons q ps ih =>
    obtain ⟨hfirst, halone⟩ := List.forall_mem_cons.mp halone
    obtain ⟨htext, hne⟩ := List.forall_mem_cons.mp hne
    rw [List.flatMap_cons] at hp ⊢
    by_cases hin : p < q.text.length
    · rw [List.getElem?_append_left hin] at hp
      rw [List.getElem?_append_left (by rwa [List.length_replicate]), List.getElem?_replicate,
        if_pos hin, Option.some.injEq]
      exact isParenAt_locate_first hp hc fun hcode => hfirst hcode (List.mem_of_getElem? hp)
    · obtain ⟨m, rfl⟩ : ∃ m, p = q.text.length + m := ⟨p - q.text.length, by omega⟩
      obtain ⟨depth', hlater⟩ := isParenAt_locate_later start depth m htext
      rw [List.getElem?_append_right (Nat.le_add_right _ _), Nat.add_sub_cancel_left] at hp
      rw [List.getElem?_append_right (by rw [List.length_replicate]; exact Nat.le_add_right _ _),
        List.length_replicate, Nat.add_sub_cancel_left, hlater]
      exact ih (start + q.text.length) depth' hne halone hp

/-- **Parentheses count in code only.** Where the text is read as a comment, a string or a quoted
name, they are no tokens. -/
theorem paren_iff {sql : String} {ps : List Passage} {p : Nat}
    (hps : IsDivided none sql.toList ps) (hp : sql.toList[p]? = some c) (hc : c = '(' ∨ c = ')') :
    IsParenAt (tokenize sql) p c ↔ (readings ps)[p]? = some .code := by
  have hp' : ((cut none 0 sql.toList).flatMap Piece.text)[p]? = some c := by
    rwa [texts_cut, List.drop_zero]
  have hlocate := isParenAt_locate_iff 0 0 (fun q hq => text_ne_nil_of_mem_cut hq)
    (fun q hq hcode hmem => eq_of_paren_mem hq hcode hmem hc) hp' hc
  rwa [← readings_eq hps, Nat.zero_add] at hlocate

end IndexAdvice
