import IndexAdvice.Proofs.QueryCalls

/-!
# Writing a text as a plain string literal

`Written s t` says that `t` is a way to write the text `s` between two quotes: some characters are
escaped and others may be, and a line may be continued after its break and the blanks of the next
line. The value of a literal is found in two passes, of which the first takes the continuations out
and the second resolves the escapes. The first pass does not tell a backslash that continues a line
from the second one of an escaped backslash, so the value is the text that was written if no escaped
backslash stands right before a literal line break, and a shorter one otherwise
(`plainValue_of_written`).

`sql_of_written` carries this to the query that a call gives: its text is the value of the literal
without the blanks at its ends, and a blank value gives no query.
-/

namespace IndexAdvice

namespace Source

open Text

variable {c e : Char} {s t x indent cs : List Char}

/-! ### Written texts -/

/-- The characters that can be escaped in a literal, and what stands for them after the
backslash. -/
def escapes : List (Char × Char) :=
  [('\\', '\\'), ('"', '"'), ('\n', 'n'), ('\t', 't'), ('\r', 'r'), ('\x00', '0')]

/-- The characters that a literal has only escaped. -/
def alwaysEscaped : List Char :=
  ['\\', '"', '\r', '\x00']

/-- The ways to write a text between the quotes of a literal: characters stand for themselves or
are escaped, and a line is continued where something other than a blank goes on. -/
inductive Written : List Char → List Char → Prop
  | nil : Written [] []
  | plain {c : Char} {s t : List Char} :
      c ∉ alwaysEscaped → Written s t → Written (c :: s) (c :: t)
  | escape {c e : Char} {s t : List Char} :
      (c, e) ∈ escapes → Written s t → Written (c :: s) ('\\' :: e :: t)
  | continuation {indent s t : List Char} : (∀ c ∈ indent, isBlank c = true) →
      t.head?.any isBlank = false → Written s t → Written s ('\\' :: '\n' :: indent ++ t)

/-- Whether an escaped backslash stands right before a literal line break. -/
def breaksAfterBackslash : List Char → Bool
  | '\\' :: '\\' :: '\n' :: _ => true
  | '\\' :: _ :: cs => breaksAfterBackslash cs
  | _ :: cs => breaksAfterBackslash cs
  | [] => false

theorem breaksAfterBackslash_cons (hc : c ≠ '\\') :
    breaksAfterBackslash (c :: cs) = breaksAfterBackslash cs := by
  rw [breaksAfterBackslash]
  · rintro _ rfl
    exact absurd rfl hc
  · rintro _ _ rfl
    exact absurd rfl hc

theorem breaksAfterBackslash_append_of_isBlank (h : ∀ c ∈ indent, isBlank c = true) :
    breaksAfterBackslash (indent ++ cs) = breaksAfterBackslash cs := by
  induction indent with
  | nil => rfl
  | cons c indent ih =>
    rw [List.forall_mem_cons] at h
    rw [List.cons_append, breaksAfterBackslash_cons (ne_of_isBlank (by decide) h.1), ih h.2]

/-- A literal with a text written in it does not begin with a carriage return. -/
theorem Written.head?_ne (h : Written s t) : t.head? ≠ some '\r' := by
  cases h with
  | nil => simp
  | plain hc _ =>
    intro heq
    exact hc (by rw [Option.some.inj heq]; decide)
  | escape | continuation => simp

/-! ### Values -/

theorem resolveEscapes_append (done front cs : List Char) :
    resolveEscapes (done ++ front) cs = front.reverse ++ resolveEscapes done cs := by
  fun_induction resolveEscapes done cs with
  | case1 done => simp [resolveEscapes]
  | case2 done c => simp [resolveEscapes]
  | case3 done c d cs h ih => rw [resolveEscapes, if_pos h, ← List.cons_append, ih]
  | case4 done c d cs h ih => rw [resolveEscapes, if_neg h, ← List.cons_append, ih]

theorem resolveEscapes_cons (hc : c ≠ '\\') (cs : List Char) :
    resolveEscapes [] (c :: cs) = c :: resolveEscapes [] cs := by
  cases cs with
  | nil => rfl
  | cons d cs =>
    rw [resolveEscapes, if_neg (by simp [hc])]
    exact resolveEscapes_append [] [c] _

/-- An escape is resolved by its second character. -/
theorem resolveEscapes_escape (he : e ≠ '\n') (cs : List Char) :
    resolveEscapes [] ('\\' :: e :: cs) = escaped e :: resolveEscapes [] cs := by
  rw [resolveEscapes, if_pos (by simp [he])]
  exact resolveEscapes_append [] [escaped e] _

/-- One more character makes the value of a text by at most one character longer, and not
shorter. -/
theorem length_resolveEscapes_cons (c : Char) (x : List Char) :
    (resolveEscapes [] (c :: x)).length ≤ (resolveEscapes [] x).length + 1 ∧
      (resolveEscapes [] x).length ≤ (resolveEscapes [] (c :: x)).length := by
  induction x generalizing c with
  | nil => simp [resolveEscapes]
  | cons d x ih =>
    by_cases hescape : c = '\\' ∧ d ≠ '\n'
    · obtain ⟨rfl, hd⟩ := hescape
      have := ih d
      rw [resolveEscapes_escape hd, List.length_cons]
      omega
    · have hvalue : resolveEscapes [] (c :: d :: x) = c :: resolveEscapes [] (d :: x) := by
        rw [resolveEscapes, if_neg (by simpa using hescape)]
        exact resolveEscapes_append [] [c] _
      rw [hvalue, List.length_cons]
      omega

theorem continuation?_eq_none_of_ne (hc : c ≠ '\\') (cs : List Char) :
    continuation? (c :: cs) = none := by
  rw [continuation?]
  · rintro _ h
    exact hc (List.cons.inj h).1
  · rintro _ h
    exact hc (List.cons.inj h).1

/-- A backslash that no line break follows is no continuation. -/
theorem continuation?_eq_none_of_head? (hn : cs.head? ≠ some '\n') (hr : cs.head? ≠ some '\r') :
    continuation? ('\\' :: cs) = none := by
  rw [continuation?]
  · rintro _ h
    exact hn (by rw [(List.cons.inj h).2]; rfl)
  · rintro _ h
    exact hr (by rw [(List.cons.inj h).2]; rfl)

theorem plainValue_cons (hc : c ≠ '\\') (t : List Char) :
    plainValue (c :: t) = c :: plainValue t := by
  rw [plainValue, replaceAll_cons_of_none [] (continuation?_eq_none_of_ne hc t),
    resolveEscapes_cons hc]
  rfl

/-- Indentation belongs to the value as it stands. -/
theorem plainValue_append_of_isBlank (h : ∀ c ∈ indent, isBlank c = true) (t : List Char) :
    plainValue (indent ++ t) = indent ++ plainValue t := by
  induction indent with
  | nil => rfl
  | cons c indent ih =>
    rw [List.forall_mem_cons] at h
    rw [List.cons_append, plainValue_cons (ne_of_isBlank (by decide) h.1), ih h.2]
    rfl

/-- A continued line is joined with what follows the blanks of the next one. -/
theorem replaceAll_continuation (rest : List Char) :
    replaceAll continuation? [] ('\\' :: '\n' :: rest) =
      replaceAll continuation? [] (trimStart rest) := by
  have hrest : '\\' :: ('\n' :: rest.takeWhile isBlank) ++ trimStart rest = '\\' :: '\n' :: rest := by
    rw [List.cons_append, List.cons_append, trimStart, List.takeWhile_append_dropWhile]
  have hfound : continuation? ('\\' :: '\n' :: rest) =
      some ('\\' :: '\n' :: rest.takeWhile isBlank).length := by
    rw [continuation?, blankCount, List.length_cons, List.length_cons, Nat.add_comm]
  rw [← hrest] at hfound ⊢
  exact replaceAll_append_of_some [] hfound

theorem trimStart_append (h : ∀ c ∈ indent, isBlank c = true)
    (ht : t.head?.any isBlank = false) : trimStart (indent ++ t) = t := by
  rw [trimStart, List.dropWhile_append_of_pos h]
  cases t with
  | nil => rfl
  | cons c t => exact List.dropWhile_cons_of_neg (by simpa using ht)

/-- A continuation takes the line break and the indentation out of the value. -/
theorem plainValue_continuation (h : ∀ c ∈ indent, isBlank c = true)
    (ht : t.head?.any isBlank = false) :
    plainValue ('\\' :: '\n' :: indent ++ t) = plainValue t := by
  rw [plainValue, List.cons_append, List.cons_append, replaceAll_continuation,
    trimStart_append h ht, plainValue]

/-- Each listed escape stands for its character and is no line break. -/
theorem escaped_of_mem_escapes (he : (c, e) ∈ escapes) :
    escaped e = c ∧ e ≠ '\n' ∧ e ≠ '\r' := by
  have hall : ∀ p ∈ escapes, escaped p.2 = p.1 ∧ p.2 ≠ '\n' ∧ p.2 ≠ '\r' := by decide
  exact hall (c, e) he

/-- An escape stands for its character in the value. One that writes a backslash must not come
before a line break. -/
theorem plainValue_escape (he : (c, e) ∈ escapes) (hn : e = '\\' → t.head? ≠ some '\n')
    (hr : t.head? ≠ some '\r') : plainValue ('\\' :: e :: t) = c :: plainValue t := by
  obtain ⟨rfl, hline, hreturn⟩ := escaped_of_mem_escapes he
  have hsecond : continuation? (e :: t) = none := by
    by_cases h : e = '\\'
    · rw [h]
      exact continuation?_eq_none_of_head? (hn h) hr
    · exact continuation?_eq_none_of_ne h t
  have hfirst : continuation? ('\\' :: e :: t) = none :=
    continuation?_eq_none_of_head? (by simpa using hline) (by simpa using hreturn)
  rw [plainValue, replaceAll_cons_of_none [] hfirst, replaceAll_cons_of_none [] hsecond,
    resolveEscapes_escape hline, plainValue]

/-- Where an escaped backslash stands before a line break, the second backslash continues the line:
the break and the blanks after it are gone, and the first backslash escapes what comes next. -/
theorem plainValue_break (t : List Char) :
    plainValue ('\\' :: '\\' :: '\n' :: t) =
      resolveEscapes [] ('\\' :: replaceAll continuation? [] (trimStart t)) := by
  have hfirst : continuation? ('\\' :: '\\' :: '\n' :: t) = none :=
    continuation?_eq_none_of_head? (by simp) (by simp)
  rw [plainValue, replaceAll_cons_of_none [] hfirst, replaceAll_continuation]

/-- An escaped backslash before a line break adds nothing to the value, as its second half is taken
for a continuation. -/
theorem length_plainValue_break_le (t : List Char) :
    (plainValue ('\\' :: '\\' :: '\n' :: t)).length ≤ (plainValue ('\n' :: t)).length := by
  have hblank : ∀ c ∈ t.takeWhile isBlank, isBlank c = true :=
    List.all_eq_true.mp List.all_takeWhile
  have hvalue : plainValue t = t.takeWhile isBlank ++ plainValue (trimStart t) := by
    rw [← plainValue_append_of_isBlank hblank, trimStart, List.takeWhile_append_dropWhile]
  have hle := (length_resolveEscapes_cons '\\' (replaceAll continuation? [] (trimStart t))).1
  rw [← plainValue] at hle
  rw [plainValue_break, plainValue_cons (by decide), List.length_cons, hvalue, List.length_append]
  omega

/-- The value of a literal is the text that was written in it, or shorter if the literal has an
escaped backslash before a line break. -/
theorem plainValue_of_written (h : Written s t) :
    (breaksAfterBackslash t = false → plainValue t = s) ∧
      (breaksAfterBackslash t = true → (plainValue t).length < s.length) := by
  induction h with
  | nil => exact ⟨fun _ => rfl, fun h => absurd h (by decide)⟩
  | @plain c s t hc _ ih =>
    have hbackslash : c ≠ '\\' := by
      rintro rfl
      exact hc (by decide)
    rw [breaksAfterBackslash_cons hbackslash, plainValue_cons hbackslash, List.length_cons,
      List.length_cons]
    exact ⟨fun h => by rw [ih.1 h], fun h => Nat.succ_lt_succ (ih.2 h)⟩
  | @escape c e s t he ht ih =>
    have hle : (plainValue t).length ≤ s.length := by
      cases hbreaks : breaksAfterBackslash t with
      | false => exact Nat.le_of_eq (congrArg List.length (ih.1 hbreaks))
      | true => exact Nat.le_of_lt (ih.2 hbreaks)
    -- an escaped backslash before a line break is the one escape that is not read back
    by_cases hbreak : e = '\\' ∧ t.head? = some '\n'
    · obtain ⟨rfl, hline⟩ := hbreak
      obtain ⟨rest, rfl⟩ : ∃ rest, t = '\n' :: rest := List.head?_eq_some_iff.mp hline
      refine ⟨fun h => absurd h (by simp [breaksAfterBackslash]), fun _ => ?_⟩
      exact Nat.lt_succ_of_le (Nat.le_trans (length_plainValue_break_le rest) hle)
    · have hvalue := plainValue_escape he (fun h hline => hbreak ⟨h, hline⟩) ht.head?_ne
      have hbreaks : breaksAfterBackslash ('\\' :: e :: t) = breaksAfterBackslash t := by
        rw [breaksAfterBackslash]
        rintro rest rfl rfl
        exact hbreak ⟨rfl, rfl⟩
      rw [hbreaks, hvalue, List.length_cons, List.length_cons]
      exact ⟨fun h => by rw [ih.1 h], fun h => Nat.succ_lt_succ (ih.2 h)⟩
  | @continuation indent s t hindent ht _ ih =>
    have hbreaks : breaksAfterBackslash ('\\' :: '\n' :: indent ++ t) =
        breaksAfterBackslash t := by
      rw [List.cons_append, List.cons_append, breaksAfterBackslash,
        breaksAfterBackslash_append_of_isBlank hindent]
      rintro _ h
      exact absurd h (by decide)
    rw [hbreaks, plainValue_continuation hindent ht]
    exact ih

/-! ### The closing quote -/

theorem plainLength?_cons (hq : c ≠ '"') (hb : c ≠ '\\') (n : Nat) (cs : List Char) :
    plainLength? n (c :: cs) = plainLength? (n + 1) cs := by
  cases cs with
  | nil => simp [plainLength?, hq]
  | cons d cs => simp [plainLength?, hq, hb]

theorem plainLength?_append_of_isBlank (h : ∀ c ∈ indent, isBlank c = true) (n : Nat)
    (cs : List Char) : plainLength? n (indent ++ cs) = plainLength? (n + indent.length) cs := by
  induction indent generalizing n with
  | nil => rfl
  | cons c indent ih =>
    rw [List.forall_mem_cons] at h
    rw [List.cons_append, plainLength?_cons (ne_of_isBlank (by decide) h.1)
      (ne_of_isBlank (by decide) h.1), ih h.2, List.length_cons, Nat.add_right_comm, Nat.add_assoc]

/-- A literal goes on to the quote after the text that is written in it. -/
theorem Written.plainLength? (h : Written s t) (n : Nat) (after : List Char) :
    plainLength? n (t ++ '"' :: after) = some (n + t.length) := by
  induction h generalizing n with
  | nil => cases after <;> rfl
  | @plain c s t hc _ ih =>
    have hne : ∀ d ∈ alwaysEscaped, c ≠ d := by
      rintro d hd rfl
      exact hc hd
    rw [List.cons_append, plainLength?_cons (hne '"' (by decide)) (hne '\\' (by decide)), ih,
      List.length_cons, Nat.add_right_comm, Nat.add_assoc]
  | @escape c e s t _ _ ih =>
    have hskip : Source.plainLength? n ('\\' :: e :: (t ++ '"' :: after)) =
        Source.plainLength? (n + 2) (t ++ '"' :: after) := by
      simp [Source.plainLength?]
    rw [List.cons_append, List.cons_append, hskip, ih, List.length_cons, List.length_cons,
      Nat.add_right_comm, Nat.add_assoc]
  | @continuation indent s t hindent _ _ ih =>
    have hskip : Source.plainLength? n ('\\' :: '\n' :: (indent ++ (t ++ '"' :: after))) =
        Source.plainLength? (n + 2) (indent ++ (t ++ '"' :: after)) := by
      simp [Source.plainLength?]
    rw [List.append_assoc, List.cons_append, List.cons_append, hskip,
      plainLength?_append_of_isBlank hindent, ih]
    simp only [List.length_append, List.length_cons]
    congr 1
    omega

/-- Reading a literal gives its value and goes just behind its closing quote. -/
theorem Written.literal? (h : Written s t) (after : List Char) :
    literal? ('"' :: (t ++ '"' :: after)) = some (plainValue t, t.length + 2) := by
  rw [Source.literal?, h.plainLength?]
  simp

/-- Written text between quotes is a literal. -/
theorem Written.isLiteral (h : Written s t) : IsLiteral (plainValue t) ('"' :: (t ++ ['"'])) := by
  intro after
  rw [List.cons_append, List.append_assoc, List.singleton_append, h.literal?, List.length_cons,
    List.length_append, List.length_singleton]

/-! ### The call -/

variable {m subject : List Char} {methods : List (List Char)}

/-- The text of a call with a literal. -/
def callText (subject method literal : List Char) : List Char :=
  subject ++ ':' :: ':' :: (method ++ '(' :: '"' :: (literal ++ ['"', ')']))

theorem callText_eq (subject method literal : List Char) :
    callText subject method literal =
      writtenCall subject method false ('"' :: (literal ++ ['"'])) ++ [')'] := by
  simp [callText, writtenCall, callMark]

/-- A text that is a call has no other call in it. -/
theorem callsFrom_callText (hsubject : IsIdentifier subject) (hm : m ∈ methods)
    (hwords : ∀ name ∈ methods, IsWord name) (h : Written s t) {place : Place}
    (hplace : place.atWordStart = true) :
    callsFrom methods place 0 (callText subject m t) =
      [⟨String.ofList subject, String.ofList m, plainValue t, place⟩] := by
  have hend : isIdentStart ')' = false := by decide
  rw [callText_eq, callsFrom_written hsubject hm hwords false h.isLiteral hplace, callsFrom, hend,
    Bool.and_false]
  rfl

/-! ### The query -/

/-- No text that begins with a name begins in a comment. -/
theorem isCommented_start (hc : c ≠ '/') (cs : List Char) :
    (Place.start (c :: cs)).isCommented = false := by
  have hcomments : ∀ span ∈ blockComments (c :: cs), 1 ≤ span.1 := by
    intro span hspan
    have hprefix : afterPrefix? ['/', '*'] (c :: cs) = none := by
      rw [afterPrefix?, if_neg (by simp [List.isPrefixOf, hc.symm])]
    rw [blockComments, blockCommentsFrom, hprefix] at hspan
    exact le_of_mem_blockCommentsFrom hspan
  have hmarks : (commentMarks.any (·.isPrefixOf [])) = false := by decide
  rw [Place.isCommented, Place.start, hmarks, Bool.or_false]
  cases hhead : (blockComments (c :: cs)).head? with
  | none => rfl
  | some span =>
    have := hcomments span (List.mem_of_head? hhead)
    simp only [Option.any_some, decide_eq_false_iff_not]
    omega

/-- The texts of the queries that the value of a literal gives. -/
def textsOf (value : List Char) : List String :=
  if isBlankText value then [] else [String.ofList (trim value)]

/-- The query of a call has the value of its literal for its text. -/
theorem sql_queries_callText {settings : List String} {method : String} (fallback : Catalog)
    (file : String) (hsubject : IsIdentifier subject) (hm : method ∈ effectiveMethods settings)
    (hwords : ∀ name ∈ effectiveMethods settings, IsWord name.toList) (h : Written s t) :
    (queries settings fallback file (callText subject method.toList t)).map (·.sql) =
      textsOf (plainValue t) := by
  have hcalls : calls (effectiveMethods settings) (callText subject method.toList t) =
      [⟨String.ofList subject, method, plainValue t,
        Place.start (callText subject method.toList t)⟩] := by
    rw [calls, callsFrom_callText hsubject _ _ h rfl, String.ofList_toList]
    · exact mem_sortBy.mpr (List.mem_map_of_mem hm)
    · intro name hname
      obtain ⟨x, hx, rfl⟩ := List.mem_map.mp (mem_sortBy.mp hname)
      exact hwords x hx
  have hlive : (Place.start (callText subject method.toList t)).isCommented = false := by
    obtain ⟨c, rest, rfl, hc⟩ := hsubject.exists_cons
    refine isCommented_start ?_ _
    rintro rfl
    exact absurd hc (by decide)
  simp only [queries, hcalls, textsOf]
  cases hblank : isBlankText (plainValue t) <;> simp [hlive, hblank]

/-- **Written texts.** The query of a call has as its text what was written in the literal, without
the blanks at its ends, and there is none if that is blank; but where an escaped backslash stands
before a line break, the query is read from something shorter. -/
theorem sql_of_written {settings : List String} {method : String} (fallback : Catalog)
    (file : String) (hsubject : IsIdentifier subject) (hm : method ∈ effectiveMethods settings)
    (hwords : ∀ name ∈ effectiveMethods settings, IsWord name.toList) (h : Written s t) :
    let sqls := (queries settings fallback file (callText subject method.toList t)).map (·.sql)
    (breaksAfterBackslash t = false → sqls = textsOf s) ∧
      (breaksAfterBackslash t = true →
        ∃ value, value.length < s.length ∧ sqls = textsOf value) := by
  have hvalue := plainValue_of_written h
  rw [sql_queries_callText fallback file hsubject hm hwords h]
  exact ⟨fun hbreaks => congrArg textsOf (hvalue.1 hbreaks),
    fun hbreaks => ⟨plainValue t, hvalue.2 hbreaks, rfl⟩⟩

theorem Written.plains (hx : x.any alwaysEscaped.contains = false) (h : Written s t) :
    Written (x ++ s) (x ++ t) := by
  induction x with
  | nil => exact h
  | cons c x ih =>
    rw [List.any_cons, Bool.or_eq_false_iff] at hx
    exact .plain (by simpa using hx.1) (ih hx.2)

theorem isIdentifier_order : IsIdentifier "Order".toList := by
  decide

theorem isWord_of_mem_defaultQueryMethods :
    ∀ name ∈ effectiveMethods [], IsWord name.toList := by
  decide

/-- A search with quotes, a backslash, a continued line and a line break at its end is read as it
was written. -/
theorem continued_search_read :
    let s := "path = \"C:\\new\" AND open\n".toList
    let t := "path = \\\"C:\\\\new\\\" \\\n    AND open\n".toList
    Written s t ∧ breaksAfterBackslash t = false ∧
      (queries [] [] "" (callText "Order".toList "where_query".toList t)).map (·.sql) =
        ["path = \"C:\\new\" AND open"] := by
  intro s t
  have hindent : ∀ c ∈ "    ".toList, isBlank c = true :=
    List.all_eq_true.mp (by decide)
  have hwritten : Written s t := by
    refine .plains (x := "path = ".toList) (by decide) (.escape (by decide) ?_)
    refine .plains (x := "C:".toList) (by decide) (.escape (by decide) ?_)
    refine .plains (x := "new".toList) (by decide) (.escape (by decide) ?_)
    refine .plain (c := ' ') (by decide) ?_
    refine .continuation hindent (by decide) ?_
    exact .plains (x := "AND open\n".toList) (by decide) .nil
  have hbreaks : breaksAfterBackslash t = false := by decide
  have hmethod : "where_query" ∈ effectiveMethods [] := by decide
  obtain ⟨hread, -⟩ := sql_of_written [] "" isIdentifier_order hmethod
    isWord_of_mem_defaultQueryMethods hwritten
  exact ⟨hwritten, hbreaks, (hread hbreaks).trans (by decide +kernel)⟩

/-- **A lost line break.** A backslash at the end of a line of a quoted text is lost together with
the line break. -/
theorem break_after_backslash_lost :
    let s := "note = 'a\\\nb'".toList
    let t := "note = 'a\\\\\nb'".toList
    Written s t ∧ textsOf s = ["note = 'a\\\nb'"] ∧
      (queries [] [] "" (callText "Order".toList "where_query".toList t)).map (·.sql) =
        ["note = 'ab'"] := by
  intro s t
  have hwritten : Written s t := by
    refine .plains (x := "note = 'a".toList) (by decide) (.escape (by decide) ?_)
    exact .plains (x := "\nb'".toList) (by decide) .nil
  refine ⟨hwritten, by decide +kernel, ?_⟩
  rw [sql_queries_callText [] "" isIdentifier_order (by decide) isWord_of_mem_defaultQueryMethods
    hwritten]
  decide +kernel

end Source

end IndexAdvice
