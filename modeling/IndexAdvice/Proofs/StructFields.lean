import IndexAdvice.Proofs.QueryCalls
import IndexAdvice.Source.Declaration

/-!
# Reading the fields of a struct

A field is written as its visibility, its name, a colon and its type. The types are those whose
brackets nest: `awaitedThrough` goes through a text with the closing brackets that are still
awaited, and fails where another one closes, or where a comma or a line break stands outside all
brackets. The splitting of a body counts brackets without telling them apart; on such a text the
count is the number of brackets awaited, so a field is never split (`segmentsFrom_append`), and the
braces in it never close the body (`bracesAfter_of_awaited`).

Blanks, commas and line breaks between the fields end the segments, so the fields read in a body are
those written in it, in order (`fieldsFrom_written`).
-/

namespace IndexAdvice

namespace Text

variable {c : Char}

/-- Trimming the end stops before the last character that is no blank. -/
theorem trimEnd_append_cons (xs : List Char) (hc : isBlank c = false) (cs : List Char) :
    trimEnd (xs ++ c :: cs) = xs ++ c :: trimEnd cs := by
  have hreverse : (xs ++ c :: cs).reverse = cs.reverse ++ c :: xs.reverse := by simp
  rw [trimEnd, trimEnd, hreverse]
  induction cs.reverse with
  | nil => simp [hc]
  | cons d ds ih =>
    rw [List.cons_append, List.dropWhile_cons, List.dropWhile_cons]
    split
    · exact ih
    · simp

theorem trimEnd_isPrefix (cs : List Char) : trimEnd cs <+: cs := by
  have hsuffix := List.dropWhile_suffix (l := cs.reverse) isBlank
  rwa [← List.reverse_prefix, List.reverse_reverse] at hsuffix

end Text

namespace Source

open Text

variable {c d : Char} {before : Option Char} {depth n : Nat}
  {awaited awaited' blanks cs xs ys held name tail lead : List Char}

/-! ### Brackets that nest -/

/-- The bracket that closes a bracket. -/
def closing? (c : Char) : Option Char :=
  if c == '<' then some '>' else if c == '(' then some ')' else if c == '[' then some ']'
  else if c == '{' then some '}' else none

/-- Whether a character closes a bracket. The bracket of an arrow closes nothing. -/
def isClosing (before : Option Char) (c : Char) : Bool :=
  [')', ']', '}'].contains c || (c == '>' && before != some '-')

/-- Whether a character separates the fields of a body. -/
def isSeparator (c : Char) : Bool :=
  c == ',' || c == '\n'

/-- The closing brackets awaited after a character, the innermost first. -/
def awaitedAfter (before : Option Char) (c : Char) (awaited : List Char) : Option (List Char) :=
  match closing? c with
  | some d => some (d :: awaited)
  | none =>
    if isClosing before c then if awaited.head? == some c then some awaited.tail else none
    else if isSeparator c && awaited.isEmpty then none
    else some awaited

/-- The closing brackets awaited after a text. There are none if a bracket closes another one than
the innermost, or if a comma or a line break stands outside all brackets. -/
def awaitedThrough (before : Option Char) (awaited : List Char) : List Char → Option (List Char)
  | [] => some awaited
  | c :: cs =>
    (awaitedAfter before c awaited).bind fun awaited => awaitedThrough (some c) awaited cs

/-- Brackets are awaited through two texts one after the other. -/
theorem awaitedThrough_append (before : Option Char) (awaited xs ys : List Char) :
    awaitedThrough before awaited (xs ++ ys) =
      (awaitedThrough before awaited xs).bind fun awaited =>
        awaitedThrough (xs.getLast?.or before) awaited ys := by
  induction xs generalizing before awaited with
  | nil => rfl
  | cons x xs ih =>
    rw [List.cons_append, awaitedThrough, awaitedThrough, Option.bind_assoc]
    refine congrArg _ (funext fun awaited => ?_)
    rw [ih, List.getLast?_cons]
    cases xs.getLast? <;> rfl

/-- What a character does to the brackets awaited. -/
theorem awaitedAfter_cases (h : awaitedAfter before c awaited = some awaited') :
    (∃ d, closing? c = some d ∧ awaited' = d :: awaited) ∨
      (closing? c = none ∧ isClosing before c = true ∧ awaited = c :: awaited') ∨
      (closing? c = none ∧ isClosing before c = false ∧ awaited' = awaited ∧
        (isSeparator c = true → awaited ≠ [])) := by
  rw [awaitedAfter] at h
  split at h
  · next d hd => exact .inl ⟨d, hd, (Option.some.inj h).symm⟩
  · next hnone =>
    refine .inr ?_
    split at h
    · next hclosing =>
      split at h
      · next hhead =>
        cases awaited with
        | nil => exact absurd hhead (by simp)
        | cons d awaited =>
          obtain rfl : d = c := by simpa using hhead
          obtain rfl := Option.some.inj h
          exact .inl ⟨hnone, hclosing, rfl⟩
      · exact absurd h (by simp)
    · next hclosing =>
      split at h
      · exact absurd h (by simp)
      · next hseparator =>
        refine .inr ⟨hnone, by simpa using hclosing, (Option.some.inj h).symm, fun hc hempty => ?_⟩
        exact hseparator (by simp [hc, hempty])

theorem contains_opening (c : Char) : ['<', '(', '[', '{'].contains c = (closing? c).isSome := by
  rw [closing?]
  by_cases h₁ : c = '<' <;> by_cases h₂ : c = '(' <;> by_cases h₃ : c = '[' <;>
    by_cases h₄ : c = '{' <;> simp [h₁, h₂, h₃, h₄]

/-- What closes a bracket separates nothing. -/
theorem not_isSeparator (h : isClosing before c = true) : isSeparator c = false := by
  rw [Bool.eq_false_iff]
  intro hc
  obtain rfl | rfl : c = ',' ∨ c = '\n' := by simpa [isSeparator] using hc
  · exact absurd h (by simp [isClosing])
  · exact absurd h (by simp [isClosing])

/-- The depth is the number of brackets awaited. -/
theorem bracketDepth_of_awaited (h : awaitedAfter before c awaited = some awaited') :
    bracketDepth before c awaited.length = awaited'.length ∧
      (isSeparator c = true → awaited'.length ≠ 0) := by
  have hdepth : bracketDepth before c awaited.length =
      if (closing? c).isSome then awaited.length + 1
      else if isClosing before c then awaited.length - 1 else awaited.length := by
    rw [bracketDepth, contains_opening]
    rfl
  rw [hdepth]
  obtain ⟨d, hd, rfl⟩ | ⟨hnone, hclosing, rfl⟩ | ⟨hnone, hclosing, rfl, hseparator⟩ :=
    awaitedAfter_cases h
  · simp [hd]
  · simp only [hnone, hclosing]
    exact ⟨rfl, fun hc => Bool.noConfusion ((not_isSeparator hclosing).symm.trans hc)⟩
  · simp only [hnone, hclosing]
    exact ⟨rfl, fun hc hlength => hseparator hc (List.eq_nil_of_length_eq_zero hlength)⟩

/-- A stretch whose brackets nest stays in its segment. -/
theorem segmentsFrom_append (h : awaitedThrough before awaited xs = some awaited')
    (held : List Char) (done : List (List Char)) (ys : List Char) :
    segmentsFrom awaited.length before held done (xs ++ ys) =
      segmentsFrom awaited'.length (xs.getLast?.or before) (xs.reverse ++ held) done ys := by
  induction xs generalizing before awaited held with
  | nil =>
    obtain rfl := Option.some.inj h
    rfl
  | cons x xs ih =>
    obtain ⟨next, hnext, hrest⟩ := Option.bind_eq_some_iff.mp h
    obtain ⟨hdepth, hseparator⟩ := bracketDepth_of_awaited hnext
    have hkept : ((x == ',' || x == '\n') && next.length == 0) = false := by
      rw [Bool.and_eq_false_imp]
      exact fun hx => by simpa using hseparator hx
    rw [List.cons_append, segmentsFrom, hdepth, hkept, if_neg Bool.false_ne_true, ih hrest,
      List.getLast?_cons, List.reverse_cons, List.append_assoc, List.singleton_append]
    cases xs.getLast? <;> rfl

/-! ### Braces -/

/-- How many braces are open after a text where `depth` are before it, if the last of these is not
closed in it. -/
def bracesAfter (depth : Nat) : List Char → Option Nat
  | [] => some depth
  | c :: cs =>
    if c == '{' then bracesAfter (depth + 1) cs
    else if c == '}' then if depth ≤ 1 then none else bracesAfter (depth - 1) cs
    else bracesAfter depth cs

/-- Braces are counted through two texts one after the other. -/
theorem bracesAfter_append (depth : Nat) (xs ys : List Char) :
    bracesAfter depth (xs ++ ys) = (bracesAfter depth xs).bind (bracesAfter · ys) := by
  induction xs generalizing depth with
  | nil => rfl
  | cons x xs ih =>
    simp only [List.cons_append, bracesAfter, ih]
    split
    · rfl
    · split
      · split <;> rfl
      · rfl

theorem bracesAfter_cons_of_ne (hopen : c ≠ '{') (hclose : c ≠ '}') (depth : Nat)
    (cs : List Char) : bracesAfter depth (c :: cs) = bracesAfter depth cs := by
  simp [bracesAfter, hopen, hclose]

theorem bracesAfter_of_not_mem (hopen : '{' ∉ xs) (hclose : '}' ∉ xs) (depth : Nat) :
    bracesAfter depth xs = some depth := by
  induction xs with
  | nil => rfl
  | cons x xs ih =>
    rw [List.mem_cons, not_or] at hopen hclose
    rw [bracesAfter_cons_of_ne (Ne.symm hopen.1) (Ne.symm hclose.1), ih hopen.2 hclose.2]

/-- A body ends at the first brace that closes it. -/
theorem bodyLength_append (h : bracesAfter depth xs = some 1) (n : Nat) (ys : List Char) :
    bodyLength depth n (xs ++ '}' :: ys) = n + xs.length := by
  induction xs generalizing depth n with
  | nil =>
    obtain rfl := Option.some.inj h
    rfl
  | cons x xs ih =>
    rw [bracesAfter] at h
    rw [List.cons_append, bodyLength, List.length_cons, Nat.add_comm xs.length, ← Nat.add_assoc]
    split at h
    · next hx => rw [if_pos hx, ih h]
    · next hx =>
      rw [if_neg hx]
      split at h
      · next hclose =>
        rw [if_pos hclose]
        split at h
        · exact absurd h (by simp)
        · next hdepth => rw [if_neg hdepth, ih h]
      · next hclose => rw [if_neg hclose, ih h]

theorem closing?_cases (h : closing? c = some d) :
    c = '{' ∧ d = '}' ∨ c ≠ '{' ∧ c ≠ '}' ∧ d ≠ '}' := by
  simp only [closing?, beq_iff_eq] at h
  split_ifs at h with hangle hround hsquare hbrace
  all_goals
    obtain rfl := Option.some.inj h
    simp [*]

theorem ne_of_closing? (h : closing? c = none) : c ≠ '{' := by
  rintro rfl
  exact absurd h (by decide)

/-- Where brackets nest, braces do. -/
theorem bracesAfter_of_awaited (h : awaitedThrough before awaited xs = some awaited') :
    bracesAfter (awaited.count '}' + 1) xs = some (awaited'.count '}' + 1) := by
  induction xs generalizing before awaited with
  | nil =>
    obtain rfl := Option.some.inj h
    rfl
  | cons x xs ih =>
    obtain ⟨next, hnext, hrest⟩ := Option.bind_eq_some_iff.mp h
    rw [← ih hrest]
    obtain ⟨d, hd, rfl⟩ | ⟨hnone, -, rfl⟩ | ⟨hnone, hclosing, rfl, -⟩ := awaitedAfter_cases hnext
    · obtain ⟨rfl, rfl⟩ | ⟨hopen, hclose, hd⟩ := closing?_cases hd
      · rw [List.count_cons_self]
        rfl
      · rw [bracesAfter_cons_of_ne hopen hclose, List.count_cons_of_ne hd]
    · by_cases hx : x = '}'
      · rw [hx, List.count_cons_self]
        simp [bracesAfter]
      · rw [bracesAfter_cons_of_ne (ne_of_closing? hnone) hx, List.count_cons_of_ne hx]
    · refine bracesAfter_cons_of_ne (ne_of_closing? hnone) ?_ _ _
      rintro rfl
      exact absurd hclosing (by simp [isClosing])

/-! ### Written fields -/

/-- The visibility of a field. -/
inductive Visibility
  | inherited
  | everywhere
  | within (scope : List Char)
deriving DecidableEq, Repr

/-- The scope of a restricted visibility. -/
def Visibility.scope : Visibility → List Char
  | within scope => scope
  | _ => []

/-- A visibility with the blank after it. -/
def Visibility.text : Visibility → List Char
  | inherited => []
  | everywhere => "pub ".toList
  | within scope => "pub(".toList ++ (scope ++ ") ".toList)

/-- A field of a struct. -/
structure Field where
  visibility : Visibility
  /-- Whether its name is a raw one. -/
  raw : Bool
  name : List Char
  type : List Char
deriving DecidableEq, Repr

namespace Field

/-- The mark of a raw name. -/
def mark (f : Field) : List Char :=
  if f.raw then ['r', '#'] else []

/-- A field as it is written. -/
def text (f : Field) : List Char :=
  f.visibility.text ++ (f.mark ++ (f.name ++ ':' :: ' ' :: f.type))

end Field

/-- The characters that open or close brackets. -/
def brackets : List Char :=
  ['<', '(', '[', '{', '>', ')', ']', '}']

/-- A field whose name can be read: the brackets of its type nest, and no comma or line break stands
outside them. -/
structure Field.Reads (f : Field) : Prop where
  name : IsIdentifier f.name
  scope : ∀ c ∈ f.visibility.scope, c ∉ brackets
  type : awaitedThrough (some ' ') [] f.type = some []

instance (f : Field) : Decidable f.Reads :=
  decidable_of_iff (IsIdentifier f.name ∧ (∀ c ∈ f.visibility.scope, c ∉ brackets) ∧
      awaitedThrough (some ' ') [] f.type = some [])
    ⟨fun h => ⟨h.1, h.2.1, h.2.2⟩, fun h => ⟨h.name, h.scope, h.type⟩⟩

variable {f : Field}

/-- Text without brackets changes nothing in what is awaited. -/
theorem awaitedAfter_of_not_mem (hc : c ∉ brackets)
    (h : awaited ≠ [] ∨ isSeparator c = false) (before : Option Char) :
    awaitedAfter before c awaited = some awaited := by
  simp only [brackets, List.mem_cons, List.not_mem_nil, or_false, not_or] at hc
  have hopen : closing? c = none := by simp [closing?, hc]
  have hclose : isClosing before c = false := by simp [isClosing, hc]
  have hkept : (isSeparator c && awaited.isEmpty) = false := by
    obtain h | h := h
    · simp [h]
    · simp [h]
  simp [awaitedAfter, hopen, hclose, hkept]

/-- A text without brackets leaves what is awaited. -/
theorem awaitedThrough_of_not_mem (hxs : ∀ c ∈ xs, c ∉ brackets)
    (h : awaited ≠ [] ∨ ∀ c ∈ xs, isSeparator c = false) (before : Option Char) :
    awaitedThrough before awaited xs = some awaited := by
  induction xs generalizing before with
  | nil => rfl
  | cons x xs ih =>
    rw [List.forall_mem_cons] at hxs
    have hfirst :=
      awaitedAfter_of_not_mem hxs.1 (h.imp_right fun h => h x List.mem_cons_self) before
    rw [awaitedThrough, hfirst]
    exact ih hxs.2 (h.imp_right fun h c hc => h c (List.mem_cons_of_mem x hc)) (some x)

theorem Visibility.nests {v : Visibility}
    (hv : ∀ c ∈ v.scope, c ∉ brackets) (before : Option Char) :
    awaitedThrough before [] v.text = some [] := by
  cases v with
  | inherited => rfl
  | everywhere => exact awaitedThrough_of_not_mem (by decide) (.inr (by decide)) before
  | within scope =>
    have hopen : awaitedThrough before [] "pub(".toList = some [')'] := rfl
    have hscope : ∀ before, awaitedThrough before [')'] scope = some [')'] :=
      awaitedThrough_of_not_mem hv (.inl (by decide))
    have hclose (before : Option Char) : awaitedThrough before [')'] ") ".toList = some [] := rfl
    rw [Visibility.text, awaitedThrough_append, hopen, Option.bind_some, awaitedThrough_append,
      hscope, Option.bind_some, hclose]

theorem IsWord.not_mem_brackets (h : IsWord name) : ∀ c ∈ name, c ∉ brackets := by
  intro c hc hmem
  have hbrackets : ∀ d ∈ brackets, isWordChar d = false := by decide
  exact Bool.noConfusion ((h c hc).symm.trans (hbrackets c hmem))

/-- The brackets of a written field nest. -/
theorem Field.Reads.nests (hf : f.Reads) (before : Option Char) :
    awaitedThrough before [] f.text = some [] := by
  have htext : f.text = f.visibility.text ++ ((f.mark ++ (f.name ++ ": ".toList)) ++ f.type) := by
    simp [Field.text]
  have hlast (before : Option Char) :
      (f.mark ++ (f.name ++ ": ".toList)).getLast?.or before = some ' ' := by
    rw [List.getLast?_append, List.getLast?_append]
    rfl
  have hfront (before : Option Char) :
      awaitedThrough before [] (f.mark ++ (f.name ++ ": ".toList)) = some [] := by
    refine awaitedThrough_of_not_mem ?_ (.inr ?_) before
    · simp only [List.forall_mem_append]
      refine ⟨?_, hf.name.word.not_mem_brackets, by decide⟩
      cases hraw : f.raw <;> simp [Field.mark, hraw, brackets]
    · simp only [List.forall_mem_append]
      refine ⟨?_, fun c hc => ?_, by decide⟩
      · cases hraw : f.raw <;> simp [Field.mark, hraw, isSeparator]
      · have hcomma := hf.name.word.ne hc (d := ',') (by decide)
        have hbreak := hf.name.word.ne hc (d := '\n') (by decide)
        simp [isSeparator, hcomma, hbreak]
  rw [htext, awaitedThrough_append, Visibility.nests hf.scope, Option.bind_some,
    awaitedThrough_append, hfront, Option.bind_some, hlast, hf.type]

/-- No name starts with the mark of a raw one. -/
theorem afterPrefix?_rawMark_eq_none (hname : IsIdentifier name) (hc : c ≠ '#') (cs : List Char) :
    afterPrefix? ['r', '#'] (name ++ c :: cs) = none := by
  rw [Option.eq_none_iff_forall_ne_some]
  intro rest hrest
  have htext := eq_append_of_afterPrefix? hrest
  obtain ⟨d, inner, rfl, -⟩ := hname.exists_cons
  have hnext : inner ++ c :: cs = '#' :: rest := (List.cons.inj htext).2
  cases inner with
  | nil => exact hc (List.cons.inj hnext).1
  | cons e inner => exact hname.word.ne (by simp) (by decide) (List.cons.inj hnext).1

/-- The name before a colon is read, without its mark. -/
theorem nameBeforeColon?_written (hname : IsIdentifier f.name) (htail : tail.head? ≠ some ':') :
    nameBeforeColon? (f.mark ++ (f.name ++ ':' :: tail)) = some f.name := by
  have hmark : (afterPrefix? ['r', '#'] (f.mark ++ (f.name ++ ':' :: tail))).getD
      (f.mark ++ (f.name ++ ':' :: tail)) = f.name ++ ':' :: tail := by
    cases hraw : f.raw with
    | true =>
      simp only [Field.mark, hraw, if_true, afterPrefix?_append, Option.getD_some]
    | false =>
      have hread : afterPrefix? ['r', '#'] (f.name ++ ':' :: tail) = none :=
        afterPrefix?_rawMark_eq_none hname (by decide) tail
      simp only [Field.mark, hraw, Bool.false_eq_true, if_false, List.nil_append, hread]
      rfl
  have hcolon : isWordChar ':' = false := by decide
  have hblank : isBlank ':' = false := by decide
  simp only [nameBeforeColon?, hmark, takeWhile_word hname.word hcolon, hname.start, if_true,
    List.drop_left, trimStart_cons hblank]
  rw [if_neg (by simpa using htail)]

/-- Apart from its visibility, a field starts with a word character. -/
theorem exists_mark_name (hname : IsIdentifier f.name) (rest : List Char) :
    ∃ c cs, f.mark ++ (f.name ++ rest) = c :: cs ∧ isWordChar c = true := by
  cases hraw : f.raw with
  | true => exact ⟨'r', '#' :: (f.name ++ rest), by simp [Field.mark, hraw], by decide⟩
  | false =>
    obtain ⟨c, inner, hinner, hc⟩ := hname.exists_cons
    exact ⟨c, inner ++ rest, by simp [Field.mark, hraw, hinner], isWordChar_of_isIdentStart hc⟩

theorem afterRestriction?_eq_none (hblanks : ∀ c ∈ blanks, isBlank c = true)
    (hblank : isBlank c = false) (hc : c ≠ '(') (cs : List Char) :
    afterRestriction? (blanks ++ c :: cs) = none := by
  have hnone : afterPrefix? ['('] (c :: cs) = none := by
    simp [afterPrefix?, List.isPrefixOf, hc.symm]
  rw [afterRestriction?, trimStart_append_cons hblanks hblank, hnone]
  rfl

/-- A restriction is passed over up to its parenthesis. -/
theorem afterRestriction?_written {scope : List Char} (hscope : ')' ∉ scope) (cs : List Char) :
    afterRestriction? ('(' :: (scope ++ ')' :: cs)) = some cs := by
  have hparen : isBlank '(' = false := by decide
  have hopened : afterPrefix? ['('] ('(' :: (scope ++ ([')'] ++ cs))) =
      some (scope ++ ([')'] ++ cs)) := afterPrefix?_append ['('] _
  have hclosed : throughFirst? [')'] (scope ++ ([')'] ++ cs)) = some (0 + scope.length + 1) :=
    searchFrom_first (by simp) (fun h => hscope (h.subset List.mem_cons_self)) 0 cs
  have hdrop : (scope ++ ([')'] ++ cs)).drop (0 + scope.length + 1) = cs := by
    rw [Nat.zero_add, List.drop_length_add_append]
    rfl
  rw [← List.singleton_append (x := ')'), afterRestriction?, trimStart_cons hparen]
  simp only [hopened, Option.bind_eq_bind, Option.bind_some, hclosed, hdrop]

/-- What follows `pub` in a name is neither blank nor a parenthesis. -/
theorem exists_after_pub (hname : IsWord name)
    (h : name ++ ':' :: tail = "pub".toList ++ cs) :
    ∃ c rest, cs = c :: rest ∧ isBlank c = false ∧ c ≠ '(' := by
  have hcolon : isBlank ':' = false := by decide
  obtain ⟨left, hleft, hrest⟩ | ⟨left, rfl, rfl⟩ := List.append_eq_append_iff.mp h
  · cases left with
    | nil => exact ⟨':', tail, hrest.symm, hcolon, by decide⟩
    | cons d left =>
      obtain ⟨rfl, -⟩ := List.cons.inj hrest
      have hmem : ':' ∈ "pub".toList := by
        rw [hleft]
        simp
      exact absurd hmem (by decide)
  · cases left with
    | nil => exact ⟨':', tail, rfl, hcolon, by decide⟩
    | cons d left =>
      have hd : isWordChar d = true := hname d (by simp)
      exact ⟨d, _, rfl, isBlank_of_isWordChar hd, hname.ne (by simp) (by decide)⟩

/-- The name of a field is looked for behind its visibility first. -/
theorem nameStarts_written (hf : f.Reads) (tail : List Char) :
    ∃ later, nameStarts (f.visibility.text ++ (f.mark ++ (f.name ++ ':' :: tail))) =
      (f.mark ++ (f.name ++ ':' :: tail)) :: later := by
  obtain ⟨c, cs, hstart, hc⟩ := exists_mark_name hf.name (':' :: tail)
  have hblank := isBlank_of_isWordChar hc
  have hopen : c ≠ '(' := by
    rintro rfl
    exact absurd hc (by decide)
  have hspace : ∀ d ∈ [' '], isBlank d = true := by decide
  have hread : afterBlanks? (' ' :: c :: cs) = some (c :: cs) :=
    congrArg some (trimStart_append_cons hspace hblank cs)
  -- a name that starts like a visibility is read on as a name
  cases hv : f.visibility with
  | inherited =>
    refine ⟨[], ?_⟩
    rw [Visibility.text, List.nil_append, nameStarts]
    cases hpub : afterPrefix? "pub".toList (f.mark ++ (f.name ++ ':' :: tail)) with
    | none => rfl
    | some rest =>
      have htext := eq_append_of_afterPrefix? hpub
      have hplain : f.mark = [] := by
        cases hraw : f.raw with
        | true =>
          simp only [Field.mark, hraw] at htext
          exact absurd (List.cons.inj htext).1 (by decide)
        | false => simp [Field.mark, hraw]
      rw [hplain, List.nil_append] at htext
      obtain ⟨d, rest, rfl, hd, hparen⟩ := exists_after_pub hf.name.word htext
      have hnone : afterRestriction? (d :: rest) = none :=
        afterRestriction?_eq_none (List.forall_mem_nil _) hd hparen rest
      simp [hnone, afterBlanks?, hd]
  | everywhere =>
    have hrest : afterPrefix? "pub".toList ("pub ".toList ++ c :: cs) = some (' ' :: c :: cs) := rfl
    have hnone : afterRestriction? (' ' :: c :: cs) = none :=
      afterRestriction?_eq_none hspace hblank hopen cs
    rw [hstart, Visibility.text, nameStarts, hrest]
    simp only [hnone, hread]
    exact ⟨_, rfl⟩
  | within scope =>
    have hrest : afterPrefix? "pub".toList ("pub(".toList ++ (scope ++ ") ".toList) ++ c :: cs) =
        some ('(' :: (scope ++ ')' :: ' ' :: c :: cs)) := by
      simp [afterPrefix?]
    have hclose : ')' ∉ scope := fun hmem => hf.scope ')' (hv ▸ hmem) (by decide)
    rw [hstart, Visibility.text, nameStarts, hrest]
    simp only [afterRestriction?_written hclose, Option.bind_some, hread]
    exact ⟨_, rfl⟩

/-- **Field names.** A field is read behind blanks, whatever follows it. -/
theorem fieldName?_written (hf : f.Reads) (hlead : ∀ c ∈ lead, isBlank c = true)
    (trail : List Char) :
    fieldName? (lead ++ (f.text ++ trail)) = some (String.ofList f.name) := by
  have htext : f.text ++ trail =
      (f.visibility.text ++ (f.mark ++ f.name)) ++ ':' :: ' ' :: (f.type ++ trail) := by
    simp [Field.text]
  obtain ⟨c, cs, hstart, hc⟩ : ∃ c cs, f.text ++ trail = c :: cs ∧ isBlank c = false := by
    obtain ⟨c, cs, hname, hc⟩ := exists_mark_name hf.name (':' :: ' ' :: (f.type ++ trail))
    have hp : isBlank 'p' = false := by decide
    rw [htext, List.append_assoc, List.append_assoc, hname]
    cases f.visibility with
    | inherited => exact ⟨c, cs, rfl, isBlank_of_isWordChar hc⟩
    | everywhere => exact ⟨'p', _, rfl, hp⟩
    | within scope => exact ⟨'p', _, rfl, hp⟩
  have hcolon : isBlank ':' = false := by decide
  have htrim : trim (lead ++ (f.text ++ trail)) = f.visibility.text ++ (f.mark ++ (f.name ++
      ':' :: trimEnd (' ' :: (f.type ++ trail)))) := by
    rw [trim, hstart, trimStart_append_cons hlead hc, ← hstart, htext,
      trimEnd_append_cons _ hcolon, List.append_assoc, List.append_assoc]
  -- a colon by itself ends the name, two are a path
  have htail : (trimEnd (' ' :: (f.type ++ trail))).head? ≠ some ':' := by
    obtain ⟨rest, hrest⟩ := trimEnd_isPrefix (' ' :: (f.type ++ trail))
    intro hhead
    obtain ⟨inner, hinner⟩ := List.head?_eq_some_iff.mp hhead
    rw [hinner] at hrest
    exact absurd (List.cons.inj hrest).1 (by decide)
  obtain ⟨later, hlater⟩ := nameStarts_written hf (trimEnd (' ' :: (f.type ++ trail)))
  rw [fieldName?, htrim, hlater, List.findSome?_cons, nameBeforeColon?_written hf.name htail]
  rfl

theorem fieldName?_of_isBlank (hblanks : ∀ c ∈ blanks, isBlank c = true) :
    fieldName? blanks = none := by
  rw [fieldName?, trim, trimStart_of_isBlank hblanks]
  rfl

/-! ### Attributes -/

theorem attribute?_cons_of_ne (hc : c ≠ '#') (cs : List Char) : attribute? (c :: cs) = none := by
  have hnone : afterPrefix? ['#'] (c :: cs) = none := by
    simp [afterPrefix?, List.isPrefixOf, hc.symm]
  rw [attribute?, hnone]
  rfl

/-- A hash sign starts no attribute if a sign other than `!` comes before the next square
bracket. -/
theorem attribute?_eq_none (hxs : '[' ∉ xs) (hblank : isBlank d = false) (hbang : d ≠ '!')
    (hopen : d ≠ '[') (ys : List Char) : attribute? ('#' :: (xs ++ d :: ys)) = none := by
  -- blanks and a mark may be passed over, but no bracket comes before `d`
  have htrim : ∀ xs, '[' ∉ xs → ∃ inner, '[' ∉ inner ∧
      trimStart (xs ++ d :: ys) = inner ++ d :: ys := by
    intro xs hxs
    induction xs with
    | nil => exact ⟨[], hxs, trimStart_cons hblank ys⟩
    | cons x xs ih =>
      cases hx : isBlank x with
      | true =>
        obtain ⟨inner, hinner, heq⟩ := ih fun h => hxs (List.mem_cons_of_mem x h)
        refine ⟨inner, hinner, ?_⟩
        rw [← heq, List.cons_append, trimStart, List.dropWhile_cons_of_pos hx]
        rfl
      | false => exact ⟨x :: xs, hxs, trimStart_cons hx _⟩
  obtain ⟨inner, hinner, hmarked⟩ := htrim xs hxs
  obtain ⟨last, hlast, hnamed⟩ : ∃ last, '[' ∉ last ∧
      (inner ++ d :: ys).drop (markCount '!' (inner ++ d :: ys)) = last ++ d :: ys := by
    cases inner with
    | nil => exact ⟨[], by simp, by simp [markCount, hbang]⟩
    | cons x inner =>
      rw [List.mem_cons, not_or] at hinner
      by_cases hx : x = '!'
      · exact ⟨inner, hinner.2, by simp [markCount, hx]⟩
      · exact ⟨x :: inner, by simp [hinner], by simp [markCount, hx]⟩
  obtain ⟨front, hfront, hopened⟩ := htrim last hlast
  have hstart : afterPrefix? ['#'] ('#' :: (xs ++ d :: ys)) = some (xs ++ d :: ys) :=
    afterPrefix?_append ['#'] _
  have hnone : afterPrefix? ['['] (front ++ d :: ys) = none := by
    cases front with
    | nil => simp [afterPrefix?, List.isPrefixOf, hopen.symm]
    | cons x front =>
      rw [List.mem_cons, not_or] at hfront
      simp [afterPrefix?, List.isPrefixOf, hfront.1]
  simp only [attribute?, hstart, Option.bind_eq_bind, Option.bind_some, hmarked, hnamed, hopened,
    hnone, Option.bind_none]

theorem replaceAll_attribute?_of_not_mem (hxs : '#' ∉ xs) (ys : List Char) :
    replaceAll attribute? [' '] (xs ++ ys) = xs ++ replaceAll attribute? [' '] ys :=
  replaceAll_append [' '] fun _ rest hsuffix => attribute?_cons_of_ne
    (fun heq => hxs (heq ▸ hsuffix.subset List.mem_cons_self)) (rest ++ ys)

theorem Visibility.replaceAll_attribute? {v : Visibility}
    (hv : ∀ c ∈ v.scope, c ∉ brackets) (ys : List Char) :
    replaceAll attribute? [' '] (v.text ++ ys) = v.text ++ replaceAll attribute? [' '] ys := by
  cases v with
  | inherited => rfl
  | everywhere => exact replaceAll_attribute?_of_not_mem (by decide) ys
  | within scope =>
    have hopen : '#' ∉ "pub(".toList := by decide
    have hclose : '#' ∉ ") ".toList := by decide
    rw [Visibility.text, List.append_assoc, List.append_assoc,
      replaceAll_attribute?_of_not_mem hopen, replaceAll_append [' '] fun c rest hsuffix => ?_,
      replaceAll_attribute?_of_not_mem hclose, List.append_assoc, List.append_assoc]
    by_cases hc : c = '#'
    · have hrest : '[' ∉ rest := fun h =>
        hv '[' (hsuffix.subset (List.mem_cons_of_mem c h)) (by decide)
      rw [hc]
      exact attribute?_eq_none hrest (by decide) (by decide) (by decide) (' ' :: ys)
    · exact attribute?_cons_of_ne hc _

theorem Field.mark_replaceAll_attribute? (hname : IsIdentifier f.name) (ys : List Char) :
    replaceAll attribute? [' '] (f.mark ++ (f.name ++ ys)) =
      f.mark ++ (f.name ++ replaceAll attribute? [' '] ys) := by
  have hword : '#' ∉ f.name := fun h => hname.word.ne h (by decide) rfl
  have hkept := replaceAll_attribute?_of_not_mem hword ys
  cases hraw : f.raw with
  | false =>
    simp only [Field.mark, hraw, Bool.false_eq_true, if_false, List.nil_append]
    exact hkept
  | true =>
    obtain ⟨c, inner, hinner, hc⟩ := hname.exists_cons
    have hmark : attribute? ('#' :: (f.name ++ ys)) = none := by
      have hword := isWordChar_of_isIdentStart hc
      rw [hinner]
      refine attribute?_eq_none List.not_mem_nil (isBlank_of_isWordChar hword) ?_ ?_
        (inner ++ ys)
      · rintro rfl
        exact absurd hword (by decide)
      · rintro rfl
        exact absurd hword (by decide)
    have hr : attribute? ('r' :: '#' :: (f.name ++ ys)) = none :=
      attribute?_cons_of_ne (by decide) _
    have hmarks : f.mark = ['r', '#'] := by simp [Field.mark, hraw]
    rw [hmarks, List.cons_append, List.singleton_append, replaceAll_cons_of_none [' '] hr,
      replaceAll_cons_of_none [' '] hmark, hkept]
    rfl

/-- No attribute starts in a field whose type has no hash sign. -/
theorem Field.Reads.replaceAll_attribute? (hf : f.Reads) (htype : '#' ∉ f.type)
    (ys : List Char) :
    replaceAll attribute? [' '] (f.text ++ ys) = f.text ++ replaceAll attribute? [' '] ys := by
  have htext (zs : List Char) : f.text ++ zs =
      f.visibility.text ++ (f.mark ++ (f.name ++ ((':' :: ' ' :: f.type) ++ zs))) := by
    simp [Field.text]
  have htail : '#' ∉ ':' :: ' ' :: f.type := by simpa using htype
  rw [htext, htext, Visibility.replaceAll_attribute? hf.scope,
    Field.mark_replaceAll_attribute? hf.name, replaceAll_attribute?_of_not_mem htail]

/-! ### Fields in a body -/

/-- The fields of the segments of a text, where `held` is read already of the first one, backwards,
outside all brackets. -/
def fieldsFrom (before : Option Char) (held cs : List Char) : List String :=
  (segmentsFrom 0 before held [] cs).filterMap fieldName?

theorem segmentsFrom_done (depth : Nat) (before : Option Char) (held : List Char)
    (done : List (List Char)) (cs : List Char) :
    segmentsFrom depth before held done cs =
      done.reverse ++ segmentsFrom depth before held [] cs := by
  induction cs generalizing depth before held done with
  | nil => simp [segmentsFrom]
  | cons c cs ih =>
    simp only [segmentsFrom]
    split
    · rw [ih, ih _ _ _ [held.reverse]]
      simp
    · exact ih _ _ _ _

/-- What is read of a segment: blanks, or a field behind blanks. -/
def Holds : Option Field → List Char → Prop
  | none, held => ∀ c ∈ held, isBlank c = true
  | some f, held => ∃ lead trail, (∀ c ∈ lead, isBlank c = true) ∧
      held.reverse = lead ++ (f.text ++ trail)

variable {o : Option Field}

/-- Blanks may be held beside a field. -/
theorem Holds.cons (h : Holds o held) (hc : isBlank c = true) : Holds o (c :: held) := by
  cases o with
  | none => exact List.forall_mem_cons.mpr ⟨hc, h⟩
  | some f =>
    obtain ⟨lead, trail, hlead, hheld⟩ := h
    exact ⟨lead, trail ++ [c], hlead, by simp [hheld]⟩

/-- A field may be held beside blanks. -/
theorem Holds.text (h : Holds none held) : Holds (some f) (f.text.reverse ++ held) :=
  ⟨held.reverse, [], fun c hc => h c (List.mem_reverse.mp hc), by simp⟩

/-- The name of a field as it is listed. -/
def Field.listed (f : Field) : String :=
  String.ofList f.name

/-- What is held is read as the field in it, if there is one. -/
theorem Holds.fieldName? (h : Holds o held) (ho : ∀ f ∈ o, f.Reads) :
    fieldName? held.reverse = o.map Field.listed := by
  cases o with
  | none => exact fieldName?_of_isBlank fun c hc => h c (List.mem_reverse.mp hc)
  | some f =>
    obtain ⟨lead, trail, hlead, hheld⟩ := h
    rw [hheld, fieldName?_written (ho f rfl) hlead trail]
    rfl

theorem fieldsFrom_nil (h : Holds o held) (ho : ∀ f ∈ o, f.Reads) (before : Option Char) :
    fieldsFrom before held [] = (o.map Field.listed).toList := by
  rw [fieldsFrom, segmentsFrom]
  simp only [List.reverse_cons, List.reverse_nil, List.nil_append, List.filterMap_cons,
    h.fieldName? ho, List.filterMap_nil]
  cases o <;> rfl

/-- No separator is in the text of a field, so all of it is held. -/
theorem fieldsFrom_text (hf : f.Reads) (before : Option Char) (held ys : List Char) :
    fieldsFrom before held (f.text ++ ys) =
      fieldsFrom (f.text.getLast?.or before) (f.text.reverse ++ held) ys :=
  congrArg (·.filterMap Source.fieldName?)
    (segmentsFrom_append (hf.nests before) held [] ys)

/-- A character between fields: a separator ends the field before it. -/
theorem fieldsFrom_cons (hc : isBlank c = true ∨ c = ',') (h : Holds o held)
    (ho : ∀ f ∈ o, f.Reads) (before : Option Char) (ys : List Char) :
    fieldsFrom before held (c :: ys) =
      if isSeparator c then (o.map Field.listed).toList ++ fieldsFrom (some c) [] ys
      else fieldsFrom (some c) (c :: held) ys := by
  have hopen : ['<', '(', '[', '{'].contains c = false := by
    obtain hc | rfl := hc
    · have hne (d : Char) (hd : isBlank d = false) : c ≠ d := ne_of_isBlank hd hc
      simp [hne '<' (by decide), hne '(' (by decide), hne '[' (by decide), hne '{' (by decide)]
    · decide
  have hdepth : bracketDepth before c 0 = 0 := by
    rw [bracketDepth, hopen]
    simp
  rw [fieldsFrom, segmentsFrom, hdepth]
  cases hseparator : isSeparator c with
  | true =>
    rw [isSeparator] at hseparator
    simp only [hseparator, beq_self_eq_true, Bool.and_self, if_true]
    rw [segmentsFrom_done]
    simp only [List.reverse_cons, List.reverse_nil, List.nil_append, List.filterMap_append,
      List.filterMap_cons, h.fieldName? ho, List.filterMap_nil]
    cases o <;> rfl
  | false =>
    rw [isSeparator] at hseparator
    simp only [hseparator, Bool.false_and, Bool.false_eq_true, if_false]
    rfl

/-- A gap between fields ends the field before it if there is a separator in it. -/
theorem fieldsFrom_gap {gap : List Char} (hgap : ∀ c ∈ gap, isBlank c = true ∨ c = ',')
    (h : Holds o held) (ho : ∀ f ∈ o, f.Reads) (before : Option Char) :
    ∃ before' held', Holds (if gap.any isSeparator then none else o) held' ∧ ∀ ys,
      fieldsFrom before held (gap ++ ys) =
        (if gap.any isSeparator then (o.map Field.listed).toList else []) ++
          fieldsFrom before' held' ys := by
  induction gap generalizing o held before with
  | nil => exact ⟨before, held, h, fun _ => rfl⟩
  | cons c gap ih =>
    obtain ⟨hc, hgap⟩ := List.forall_mem_cons.mp hgap
    cases hseparator : isSeparator c with
    | true =>
      have hempty : Holds none [] := by simp [Holds]
      obtain ⟨before', held', hheld, hread⟩ := ih hgap hempty (by simp) (some c)
      refine ⟨before', held', by simpa [hseparator] using hheld, fun ys => ?_⟩
      rw [List.cons_append, fieldsFrom_cons hc h ho, hread]
      simp [hseparator]
    | false =>
      have hblank : isBlank c = true := hc.resolve_right fun heq => by
        rw [heq] at hseparator
        exact absurd hseparator (by decide)
      have hany : (c :: gap).any isSeparator = gap.any isSeparator := by
        rw [List.any_cons, hseparator, Bool.false_or]
      obtain ⟨before', held', hheld, hread⟩ := ih hgap (h.cons hblank) ho (some c)
      refine ⟨before', held', hany ▸ hheld, fun ys => ?_⟩
      rw [List.cons_append, fieldsFrom_cons hc h ho, hread, hany, hseparator]
      rfl

/-- **Fields.** Of fields with gaps behind them, all but the last one with a separator in it, the
names are read in order. -/
theorem fieldsFrom_written {entries : List (Field × List Char)}
    (hfields : ∀ e ∈ entries, e.1.Reads)
    (hgaps : ∀ e ∈ entries, ∀ c ∈ e.2, isBlank c = true ∨ c = ',')
    (hseparated : ∀ e ∈ entries.dropLast, e.2.any isSeparator = true) (h : Holds none held)
    (before : Option Char) :
    fieldsFrom before held (entries.flatMap fun e => e.1.text ++ e.2) =
      entries.map (·.1.listed) := by
  induction entries generalizing held before with
  | nil => exact fieldsFrom_nil h (by simp) before
  | cons e entries ih =>
    obtain ⟨f, gap⟩ := e
    obtain ⟨hf, hfields⟩ := List.forall_mem_cons.mp hfields
    obtain ⟨hgap, hgaps⟩ := List.forall_mem_cons.mp hgaps
    have ho : ∀ g ∈ some f, g.Reads := by simpa using hf
    obtain ⟨before', held', hheld, hread⟩ :=
      fieldsFrom_gap hgap (h.text (f := f)) ho (f.text.getLast?.or before)
    rw [List.flatMap_cons, List.append_assoc, fieldsFrom_text hf, hread, List.map_cons]
    -- only the last field may go without a separator
    cases entries with
    | nil =>
      rw [List.flatMap_nil]
      by_cases hseparator : gap.any isSeparator = true
      · rw [if_pos hseparator] at hheld ⊢
        rw [fieldsFrom_nil hheld (by simp)]
        rfl
      · rw [if_neg hseparator] at hheld ⊢
        rw [fieldsFrom_nil hheld ho]
        rfl
    | cons e entries =>
      rw [List.dropLast_cons_cons, List.forall_mem_cons] at hseparated
      have hseparator : gap.any isSeparator = true := hseparated.1
      rw [if_pos hseparator] at hheld ⊢
      rw [ih hfields hgaps hseparated.2 hheld]
      rfl

end Source

end IndexAdvice
