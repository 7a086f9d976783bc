import IndexAdvice.Proofs.PieceTails
import IndexAdvice.Proofs.Searching
import IndexAdvice.Proofs.SourcePlaces
import IndexAdvice.Source.Extract

/-!
# Reading a query call

A call is a name, `::`, the name of a method, and a literal in a parenthesis. Where a text has one,
the scan finds it and goes on behind its literal (`callsFrom_written`), whatever the literal holds
and whatever follows; all that matters is that the literal is read whole (`IsLiteral`). One method
is never read in the name of another one, so a call of another method is no call
(`call?_eq_none_of_not_mem`), and a text without `::` has none (`callsFrom_of_no_path`).
-/

namespace IndexAdvice

namespace Text

variable {c d : Char} {cs xs ys : List Char}

theorem trimStart_cons (hc : isBlank c = false) (cs : List Char) : trimStart (c :: cs) = c :: cs :=
  List.dropWhile_cons_of_neg (by simp [hc])

/-- Trimming takes off the blanks at the start and stops at the first other character. -/
theorem trimStart_append_cons {blanks : List Char}
    (hblanks : ∀ c ∈ blanks, isBlank c = true) (hc : isBlank c = false) (cs : List Char) :
    trimStart (blanks ++ c :: cs) = c :: cs := by
  rw [trimStart, List.dropWhile_append_of_pos hblanks]
  exact trimStart_cons hc cs

theorem blankCount_cons (hc : isBlank c = false) (cs : List Char) : blankCount (c :: cs) = 0 := by
  rw [blankCount, List.takeWhile_cons_of_neg (by simp [hc])]
  rfl

theorem isBlank_of_isWordChar (h : isWordChar c = true) : isBlank c = false :=
  Bool.eq_false_iff.mpr fun hc => by
    rw [(Piece.breaks_of_isBlank hc).isWordChar] at h
    exact Bool.noConfusion h

theorem ne_of_isBlank (hd : isBlank d = false) (h : isBlank c = true) : c ≠ d := by
  rintro rfl
  exact Bool.noConfusion (h.symm.trans hd)

/-- A text with a character of some kind goes on to the first of that kind. -/
theorem exists_append_cons_of_any {p : Char → Bool} (hc : c ∈ xs) (hp : p c = false) :
    ∃ front d rest, xs = front ++ d :: rest ∧ (∀ x ∈ front, p x = true) ∧ p d = false := by
  induction xs with
  | nil => exact absurd hc List.not_mem_nil
  | cons x xs ih =>
    cases hx : p x with
    | false => exact ⟨[], x, xs, rfl, by simp, hx⟩
    | true =>
      have hmem : c ∈ xs := (List.mem_cons.mp hc).resolve_left fun h => by
        rw [h, hx] at hp
        exact Bool.noConfusion hp
      obtain ⟨front, d, rest, rfl, hfront, hd⟩ := ih hmem
      exact ⟨x :: front, d, rest, rfl, List.forall_mem_cons.mpr ⟨hx, hfront⟩, hd⟩

end Text

namespace Source

open Text

variable {c : Char} {cs xs ys : List Char}

/-! ### Lines of their own -/

section Lines

variable {text before indent : List Char} (hindent : ∀ c ∈ indent, isBlank c = true)
  (hbreak : before = [] ∨ '\n' ∈ indent)

include hindent hbreak

/-- A name can start on a line of its own. -/
theorem Place.atWordStart_of_isBlank :
    ((Place.start text).after (before ++ indent)).atWordStart = true := by
  rw [Place.after_append]
  refine Place.atWordStart_after _ (fun c hc => ?_) fun hnil => ?_
  · exact (Piece.breaks_of_isBlank (hindent c (List.mem_of_getLast? hc))).isWordChar
  · rw [hbreak.resolve_right (hnil ▸ List.not_mem_nil)]
    rfl

/-- What starts on a line of its own is commented out by block comments only. -/
theorem Place.isCommented_of_isBlank
    (hlive : inBlockComment text (before ++ indent).length = false) :
    ((Place.start text).after (before ++ indent)).isCommented = false := by
  rw [Place.isCommented_start_after, hlive,
    startsMarked_of_isBlank (lastLine_append_of_isBlank hindent hbreak)]
  rfl

end Lines

/-! ### Names -/

/-- What holds of all characters of a text is decided on that text, not by way of all the characters
that there are. -/
scoped instance decidableOnText (p : Char → Prop) [DecidablePred p] (text : List Char) :
    Decidable (∀ c ∈ text, p c) :=
  List.decidableBAll p text

/-- A text of word characters. -/
def IsWord (name : List Char) : Prop :=
  ∀ c ∈ name, isWordChar c = true

instance (name : List Char) : Decidable (IsWord name) :=
  decidable_of_iff (name.all isWordChar = true) List.all_eq_true

/-- A name that code can have: it does not start with a digit. -/
structure IsIdentifier (name : List Char) : Prop where
  start : name.head?.any isIdentStart = true
  word : IsWord name

instance (name : List Char) : Decidable (IsIdentifier name) :=
  decidable_of_iff (name.head?.any isIdentStart = true ∧ IsWord name)
    ⟨fun h => ⟨h.1, h.2⟩, fun h => ⟨h.start, h.word⟩⟩

theorem IsIdentifier.exists_cons {name : List Char} (h : IsIdentifier name) :
    ∃ c rest, name = c :: rest ∧ isIdentStart c = true := by
  cases name with
  | nil => exact absurd h.start (by simp)
  | cons c rest => exact ⟨c, rest, rfl, by simpa using h.start⟩

theorem IsWord.ne {name : List Char} (h : IsWord name) (hc : c ∈ name) {d : Char}
    (hd : isWordChar d = false) : c ≠ d := by
  rintro rfl
  exact Bool.noConfusion ((h c hc).symm.trans hd)

/-- A word is read up to the first character that belongs to none. -/
theorem takeWhile_word {word : List Char} (hword : IsWord word) (hc : isWordChar c = false)
    (cs : List Char) : (word ++ c :: cs).takeWhile isWordChar = word := by
  rw [List.takeWhile_append_of_pos hword, List.takeWhile_cons_of_neg (by simp [hc]),
    List.append_nil]

/-! ### Arguments -/

/-- A literal that is read to its last character, whatever follows. -/
def IsLiteral (value literal : List Char) : Prop :=
  ∀ after, literal? (literal ++ after) = some (value, literal.length)

variable {value literal m other subject : List Char} {methods : List (List Char)}

theorem literal?_eq_none (hr : c ≠ 'r') (hq : c ≠ '"') (cs : List Char) :
    literal? (c :: cs) = none := by
  rw [literal?]
  · rintro _ h
    exact hr (List.cons.inj h).1
  · rintro _ h
    exact hq (List.cons.inj h).1

/-- A literal starts with a quote or with the mark of a raw one. -/
theorem IsLiteral.exists_cons (h : IsLiteral value literal) :
    ∃ c rest, literal = c :: rest ∧ (c = 'r' ∨ c = '"') := by
  have hread := h []
  cases literal with
  | nil => exact absurd hread (by simp [literal?])
  | cons c rest =>
    refine ⟨c, rest, rfl, ?_⟩
    by_contra hno
    rw [not_or] at hno
    rw [List.cons_append, literal?_eq_none hno.1 hno.2] at hread
    exact absurd hread (by simp)

theorem IsLiteral.exists_not_blank (h : IsLiteral value literal) :
    ∃ c rest, literal = c :: rest ∧ isBlank c = false := by
  obtain ⟨c, rest, hliteral, rfl | rfl⟩ := h.exists_cons
  · exact ⟨_, rest, hliteral, by decide⟩
  · exact ⟨_, rest, hliteral, by decide⟩

/-- What stands between the name of a method and the parenthesis of a call. -/
def callMark (bang : Bool) : List Char :=
  if bang then ['!'] else []

/-- The argument of a call. -/
theorem argument?_written (bang : Bool) (h : IsLiteral value literal) (after : List Char) :
    argument? (callMark bang ++ '(' :: (literal ++ after)) =
      some (value, (callMark bang).length + (1 + literal.length)) := by
  obtain ⟨c, rest, hliteral, hc⟩ := h.exists_not_blank
  have hparen : isBlank '(' = false := by decide
  have hmark : isBlank '!' = false := by decide
  have htrim : trimStart (literal ++ after) = literal ++ after := by
    rw [hliteral, List.cons_append, trimStart_cons hc]
  have hcount : blankCount (literal ++ after) = 0 := by
    rw [hliteral, List.cons_append, blankCount_cons hc]
  have hopened : afterPrefix? ['('] ('(' :: (literal ++ after)) = some (literal ++ after) :=
    afterPrefix?_append ['('] _
  -- with or without the mark, no blanks are passed over
  cases bang
  · have hbang : markCount '!' ('(' :: (literal ++ after)) = 0 := by simp [markCount]
    simp only [callMark, argument?, List.nil_append, trimStart_cons hparen, blankCount_cons hparen,
      hbang, List.drop_zero, hopened, Option.bind_eq_bind, Option.bind_some, htrim, hcount, h after,
      Bool.false_eq_true, if_false]
    congr 2
    simp only [List.length_nil]
    omega
  · have hbang : markCount '!' ('!' :: '(' :: (literal ++ after)) = 1 := by simp [markCount]
    simp only [callMark, argument?, List.cons_append, List.nil_append, trimStart_cons hmark,
      blankCount_cons hmark, hbang, List.drop_succ_cons, List.drop_zero, trimStart_cons hparen,
      blankCount_cons hparen, hopened, Option.bind_eq_bind, Option.bind_some, htrim, hcount,
      h after, if_true]
    congr 2
    simp only [List.length_singleton]
    omega

/-- No argument follows a word character. -/
theorem argument?_eq_none_of_isWordChar (hc : isWordChar c = true) (cs : List Char) :
    argument? (c :: cs) = none := by
  have hne : ∀ d, isWordChar d = false → c ≠ d := by
    rintro d hd rfl
    exact Bool.noConfusion (hc.symm.trans hd)
  have hblank := isBlank_of_isWordChar hc
  have hopened : afterPrefix? ['('] (c :: cs) = none := by
    rw [afterPrefix?, if_neg (by simp [List.isPrefixOf, (hne '(' (by decide)).symm])]
  have hbang : markCount '!' (c :: cs) = 0 := by
    simp [markCount, hne '!' (by decide)]
  simp only [argument?, trimStart_cons hblank, hbang, List.drop_zero, hopened,
    Option.bind_eq_bind, Option.bind_none]

/-! ### Methods -/

/-- A method is not read in the name of another one. -/
theorem methodCall_of_ne (hm : IsWord m) (hother : IsWord other) (hne : other ≠ m)
    (hc : isWordChar c = false) (after : List Char) :
    (afterPrefix? other (m ++ c :: after)).bind argument? = none := by
  by_cases hprefix : other.isPrefixOf (m ++ c :: after) = true
  · obtain ⟨rest, hrest⟩ := List.isPrefixOf_iff_prefix.mp hprefix
    rw [← hrest, afterPrefix?_append, Option.bind_some]
    obtain ⟨left, rfl, rfl⟩ | ⟨left, rfl, hleft⟩ := List.append_eq_append_iff.mp hrest
    · cases left with
      | nil => exact absurd (List.append_nil other).symm hne
      | cons d left => exact argument?_eq_none_of_isWordChar (hm d (by simp)) _
    · cases left with
      | nil => exact absurd (List.append_nil m) hne
      | cons d left => exact absurd (List.cons.inj hleft).1.symm (hother.ne (by simp) hc)
  · rw [afterPrefix?, if_neg hprefix]
    rfl

/-- The mark of a call ends the name of its method. -/
theorem exists_callMark_append (bang : Bool) (rest : List Char) :
    ∃ c cs, callMark bang ++ '(' :: rest = c :: cs ∧ isWordChar c = false ∧
      isBlank c = false := by
  cases bang
  · exact ⟨'(', rest, rfl, by decide, by decide⟩
  · exact ⟨'!', '(' :: rest, rfl, by decide, by decide⟩

/-- The call of a method with a literal, at its name. -/
theorem methodCall?_written (hm : m ∈ methods) (hwords : ∀ name ∈ methods, IsWord name)
    (bang : Bool) (h : IsLiteral value literal) (after : List Char) :
    methodCall? methods (m ++ (callMark bang ++ '(' :: (literal ++ after))) =
      some (m, value, m.length + ((callMark bang).length + (1 + literal.length))) := by
  obtain ⟨earlier, later, hsplit, hearlier⟩ := List.eq_append_cons_of_mem hm
  rw [methodCall?, List.findSome?_eq_some_iff]
  refine ⟨earlier, m, later, hsplit, ?_, fun other hother => ?_⟩
  · simp [afterPrefix?_append, argument?_written bang h]
  · obtain ⟨c, cs, hmark, hc, -⟩ := exists_callMark_append bang (literal ++ after)
    have hnone := methodCall_of_ne (hwords m hm) (hwords other (hsplit ▸ by simp [hother]))
      (fun heq => hearlier (heq ▸ hother)) hc cs
    rw [Option.bind_eq_none_iff] at hnone
    simp only [Option.bind_eq_bind, Option.bind_eq_none_iff]
    rintro rest hrest value hvalue
    rw [hmark] at hrest
    rw [hnone rest hrest] at hvalue
    exact absurd hvalue (by simp)

/-- The name of another method is none of the methods. -/
theorem methodCall?_eq_none (hm : m ∉ methods) (hwords : ∀ name ∈ methods, IsWord name)
    (hword : IsWord m) (hc : isWordChar c = false) (after : List Char) :
    methodCall? methods (m ++ c :: after) = none := by
  rw [methodCall?, List.findSome?_eq_none_iff]
  intro other hother
  have hnone := methodCall_of_ne hword (hwords other hother) (fun heq => hm (heq ▸ hother)) hc after
  rw [Option.bind_eq_none_iff] at hnone
  simp only [Option.bind_eq_bind, Option.bind_eq_none_iff]
  rintro rest hrest value hvalue
  rw [hnone rest hrest] at hvalue
  exact absurd hvalue (by simp)

/-! ### Calls -/

/-- The text of a call through its literal. -/
def writtenCall (subject method : List Char) (bang : Bool) (literal : List Char) : List Char :=
  subject ++ ':' :: ':' :: (method ++ (callMark bang ++ '(' :: literal))

/-- What is read after a name and `::` decides about a call. -/
theorem call?_path (hsubject : IsWord subject) (hc : isBlank c = false) (place : Place)
    (cs : List Char) :
    call? methods place (subject ++ ':' :: ':' :: c :: cs) =
      (methodCall? methods (c :: cs)).map fun (m, value, n) =>
        (⟨String.ofList subject, String.ofList m, value, place⟩, subject.length + 2 + n) := by
  have htake := takeWhile_word hsubject (c := ':') (by decide) (':' :: c :: cs)
  have hcolon : isBlank ':' = false := by decide
  have hpath : afterPrefix? [':', ':'] (':' :: ':' :: c :: cs) = some (c :: cs) :=
    afterPrefix?_append [':', ':'] _
  have hends : blankEnds (c :: cs) = [(0, c :: cs)] := by
    rw [blankEnds, blankEndsFrom, hc]
    rfl
  simp only [call?, htake, List.drop_left, trimStart_cons hcolon, hpath, hends,
    blankCount_cons hcolon, List.findSome?_cons, List.findSome?_nil, Option.bind_eq_bind,
    Option.bind_some]
  cases methodCall? methods (c :: cs) with
  | none => rfl
  | some found => simp

theorem exists_method_append (hm : IsWord m) (bang : Bool) (rest : List Char) :
    ∃ c cs, m ++ (callMark bang ++ '(' :: rest) = c :: cs ∧ isBlank c = false := by
  cases m with
  | nil =>
    obtain ⟨c, cs, hmark, -, hc⟩ := exists_callMark_append bang rest
    exact ⟨c, cs, hmark, hc⟩
  | cons c m => exact ⟨c, _, rfl, isBlank_of_isWordChar (hm c List.mem_cons_self)⟩

/-- A call is read up to the end of its literal. -/
theorem call?_written (hsubject : IsWord subject) (hm : m ∈ methods)
    (hwords : ∀ name ∈ methods, IsWord name) (bang : Bool) (h : IsLiteral value literal)
    (place : Place) (after : List Char) :
    call? methods place (writtenCall subject m bang literal ++ after) =
      some (⟨String.ofList subject, String.ofList m, value, place⟩,
        (writtenCall subject m bang literal).length) := by
  have htext : writtenCall subject m bang literal ++ after =
      subject ++ ':' :: ':' :: (m ++ (callMark bang ++ '(' :: (literal ++ after))) := by
    simp [writtenCall]
  have hread := methodCall?_written hm hwords bang h after
  obtain ⟨c, cs, hmethod, hc⟩ := exists_method_append (hwords m hm) bang (literal ++ after)
  rw [hmethod] at hread htext
  rw [htext, call?_path hsubject hc, hread, Option.map_some]
  refine congrArg some (Prod.ext rfl ?_)
  simp only [writtenCall, List.length_append, List.length_cons]
  omega

/-- The call of another method is none. -/
theorem call?_eq_none_of_not_mem (hsubject : IsWord subject) (hm : m ∉ methods)
    (hwords : ∀ name ∈ methods, IsWord name) (hword : IsWord m) (bang : Bool) (place : Place)
    (after : List Char) :
    call? methods place (subject ++ ':' :: ':' :: (m ++ (callMark bang ++ '(' :: after))) =
      none := by
  obtain ⟨c, cs, hmethod, hc⟩ := exists_method_append hword bang after
  obtain ⟨d, ds, hmark, hd, -⟩ := exists_callMark_append bang after
  have hnone := methodCall?_eq_none hm hwords hword hd ds
  rw [← hmark, hmethod] at hnone
  rw [hmethod, call?_path hsubject hc, hnone, Option.map_none]

/-- A name before a text without `::` starts no call, where the text ends with a sign of its
own. -/
theorem call?_eq_none_of_no_path (hpath : ¬ [':', ':'] <:+: xs) (hc : isWordChar c = false)
    (hblank : isBlank c = false) (hcolon : c ≠ ':') (place : Place) (ys : List Char) :
    call? methods place (xs ++ c :: ys) = none := by
  obtain ⟨word, d, rest, hsplit, hword, hd⟩ : ∃ word d rest, xs ++ [c] = word ++ d :: rest ∧
      (∀ x ∈ word, isWordChar x = true) ∧ isWordChar d = false :=
    exists_append_cons_of_any (by simp) hc
  obtain ⟨blanks, e, last, hrest, hblanks, he⟩ : ∃ blanks e last, d :: rest = blanks ++ e :: last ∧
      (∀ x ∈ blanks, isBlank x = true) ∧ isBlank e = false := by
    refine exists_append_cons_of_any (c := c) ?_ hblank
    have hend := congrArg List.getLast? hsplit
    rw [List.getLast?_concat, List.getLast?_append, List.getLast?_cons, Option.some_or,
      ← List.getLast?_cons] at hend
    exact List.mem_of_getLast? hend.symm
  have htext : xs ++ c :: ys = word ++ (d :: rest ++ ys) := by
    rw [← List.append_assoc, ← hsplit, List.append_assoc, List.singleton_append]
  have htake : (word ++ (d :: rest ++ ys)).takeWhile isWordChar = word :=
    takeWhile_word hword hd (rest ++ ys)
  have htrim : trimStart (d :: rest ++ ys) = e :: (last ++ ys) := by
    rw [hrest, List.append_assoc]
    exact trimStart_append_cons hblanks he (last ++ ys)
  -- two colons after the word would be two colons in the text
  have hnone : afterPrefix? [':', ':'] (e :: (last ++ ys)) = none := by
    have hwhole : xs ++ [c] = word ++ blanks ++ e :: last := by
      rw [hsplit, hrest, List.append_assoc]
    rw [afterPrefix?, if_neg]
    rw [List.isPrefixOf_iff_prefix, List.cons_prefix_cons]
    rintro ⟨rfl, hnext⟩
    cases last with
    | nil =>
      have hend := congrArg List.getLast? hwhole
      simp only [List.getLast?_concat, Option.some.injEq] at hend
      exact hcolon hend
    | cons f last =>
      rw [List.cons_append, List.cons_prefix_cons] at hnext
      obtain ⟨rfl, -⟩ := hnext
      have hpair : [':', ':'] <:+: xs ++ [c] := by
        rw [hwhole]
        exact ⟨word ++ blanks, last, by simp⟩
      refine not_pair_infix_append hpath ?_ ?_ hpair
      · exact not_pair_infix_of_not_mem (by simpa using hcolon.symm)
      · simpa using fun _ => hcolon
  simp only [htext, call?, htake, List.drop_left, htrim, hnone, Option.bind_eq_bind,
    Option.bind_none]

/-! ### The scan -/

/-- The characters of a call found already are passed over. -/
theorem callsFrom_skip (methods : List (List Char)) (place : Place) (xs ys : List Char) :
    callsFrom methods place xs.length (xs ++ ys) = callsFrom methods (place.after xs) 0 ys := by
  induction xs generalizing place with
  | nil => rfl
  | cons x xs ih => exact ih (place.next x)

/-- No call starts with something that starts no name. -/
theorem callsFrom_cons (hc : isIdentStart c = false) (place : Place) (cs : List Char) :
    callsFrom methods place 0 (c :: cs) = callsFrom methods (place.next c) 0 cs := by
  rw [callsFrom, hc, Bool.and_false]
  rfl

/-- A stretch in which no call starts is passed over. -/
theorem callsFrom_append
    (h : ∀ c rest, c :: rest <:+ xs → isIdentStart c = true → ∀ place,
      call? methods place (c :: (rest ++ ys)) = none) (place : Place) :
    callsFrom methods place 0 (xs ++ ys) = callsFrom methods (place.after xs) 0 ys := by
  induction xs generalizing place with
  | nil => rfl
  | cons c xs ih =>
    have hlater := ih (fun d rest hsuffix => h d rest (hsuffix.trans (List.suffix_cons c xs)))
      (place.next c)
    rw [List.cons_append, callsFrom, Place.after_cons]
    split
    · next hstart =>
      rw [Bool.and_eq_true] at hstart
      rw [h c xs List.suffix_rfl hstart.2]
      exact hlater
    · exact hlater

/-- A stretch without `::` that ends with a sign of its own has no call in it. -/
theorem callsFrom_of_no_path (hpath : ¬ [':', ':'] <:+: xs) (hc : isWordChar c = false)
    (hblank : isBlank c = false) (hcolon : c ≠ ':') (place : Place) (ys : List Char) :
    callsFrom methods place 0 (xs ++ c :: ys) =
      callsFrom methods ((place.after xs).next c) 0 ys := by
  have hstart : isIdentStart c = false :=
    Bool.eq_false_iff.mpr fun h => Bool.noConfusion ((isWordChar_of_isIdentStart h).symm.trans hc)
  rw [callsFrom_append fun d rest hsuffix _ place => ?_, callsFrom_cons hstart]
  rw [← List.cons_append]
  exact call?_eq_none_of_no_path (fun hpair => hpath (hpair.trans hsuffix.isInfix)) hc hblank
    hcolon place ys

/-- No call starts at a blank. -/
theorem callsFrom_of_isBlank (hxs : ∀ c ∈ xs, isBlank c = true) (place : Place)
    (ys : List Char) :
    callsFrom methods place 0 (xs ++ ys) = callsFrom methods (place.after xs) 0 ys := by
  refine callsFrom_append (fun c rest hsuffix hstart => ?_) place
  have hblank := hxs c (hsuffix.subset List.mem_cons_self)
  rw [isBlank_of_isWordChar (isWordChar_of_isIdentStart hstart)] at hblank
  exact Bool.noConfusion hblank

/-- **Calls.** A call is found, and the scan goes on behind its literal. -/
theorem callsFrom_written (hsubject : IsIdentifier subject) (hm : m ∈ methods)
    (hwords : ∀ name ∈ methods, IsWord name) (bang : Bool) (h : IsLiteral value literal)
    {place : Place} (hplace : place.atWordStart = true) (after : List Char) :
    callsFrom methods place 0 (writtenCall subject m bang literal ++ after) =
      ⟨String.ofList subject, String.ofList m, value, place⟩ ::
        callsFrom methods (place.after (writtenCall subject m bang literal)) 0 after := by
  have hcall := call?_written hsubject.word hm hwords bang h place after
  obtain ⟨c, rest, rfl, hc⟩ := hsubject.exists_cons
  obtain ⟨inner, hinner⟩ : ∃ inner, writtenCall (c :: rest) m bang literal = c :: inner :=
    ⟨_, rfl⟩
  rw [hinner, List.length_cons, List.cons_append] at hcall
  rw [hinner, List.cons_append, callsFrom, if_pos (by rw [hplace, hc]; rfl), hcall,
    Place.after_cons]
  simp only [callsFrom_skip]

/-- A call of another method whose literal has no `::` is passed over. -/
theorem callsFrom_of_not_mem (hsubject : IsWord subject) (hm : m ∉ methods)
    (hwords : ∀ name ∈ methods, IsWord name) (hword : IsWord m) (bang : Bool)
    (hpath : ¬ [':', ':'] <:+: literal) (hc : isWordChar c = false) (hblank : isBlank c = false)
    (hcolon : c ≠ ':') (place : Place) (after : List Char) :
    callsFrom methods place 0 (writtenCall subject m bang literal ++ c :: after) =
      callsFrom methods ((place.after (writtenCall subject m bang literal)).next c) 0 after := by
  let signature := m ++ (callMark bang ++ ['('])
  have hsignature : ':' ∉ signature := by
    have hname : ':' ∉ m := fun h => hword.ne h (by decide) rfl
    cases bang <;> simp [signature, callMark, hname]
  have hrest : ¬ [':', ':'] <:+: signature ++ literal := by
    refine not_pair_infix_append (not_pair_infix_of_not_mem hsignature) hpath fun h => ?_
    exact hsignature (List.mem_of_getLast? h.1)
  have htext : writtenCall subject m bang literal =
      subject ++ ':' :: ':' :: (signature ++ literal) := by
    simp [writtenCall, signature]
  have hname : ∀ d rest, d :: rest <:+ subject → isIdentStart d = true → ∀ place,
      call? methods place (d :: (rest ++ ':' :: ':' :: (signature ++ literal ++ c :: after))) =
        none := by
    intro d rest hsuffix _ place
    have hcall := call?_eq_none_of_not_mem (fun x hx => hsubject x (hsuffix.subset hx)) hm hwords
      hword bang place (literal ++ c :: after)
    simpa [signature] using hcall
  have hcolons : isIdentStart ':' = false := by decide
  rw [htext, List.append_assoc, List.cons_append, List.cons_append, callsFrom_append hname,
    callsFrom_cons hcolons, callsFrom_cons hcolons, callsFrom_of_no_path hrest hc hblank hcolon]
  simp only [Place.after_append, Place.after_cons]

/-! ### Queries -/

/-- Whether a call gives a query. -/
def givesQuery (c : Call) : Bool :=
  !c.place.isCommented && !isBlankText c.argument

/-- What a call tells about its query. -/
def outline (c : Call) : String × String × String × Int :=
  (c.subject, c.method, String.ofList (trim c.argument), c.place.line)

/-- The queries of a file are its calls with a text, leaving out those in comments. -/
theorem outline_queries (methods : List String) (fallback : Catalog) (file : String)
    (text : List Char) :
    (queries methods fallback file text).map (fun q => (q.table, q.method, q.sql, q.line)) =
      ((calls (effectiveMethods methods) text).filter givesQuery).map outline := by
  simp only [queries, List.map_map]
  rfl

end Source

end IndexAdvice
