import IndexAdvice.Proofs.StringLiterals

/-!
# Lines of calls

A text that is a sequence of calls, each of which starts on a line of its own, is read call by call:
the queries are those of the calls with one of the methods and an argument that is not blank, in
order, each with its subject, method, text and line (`queries_of_lines`). The argument is a raw
literal or a plain one on one line. What it holds does not matter, be it quotes, hash signs, or text
that looks like another call; only the literals of other methods must not hold `::`, since they are
not passed over as a whole.
-/

namespace IndexAdvice

namespace Source

open Text

variable {c e : Char} {s t cs literal : List Char}

/-! ### Literals -/

/-- The ways to write a text on one line between the quotes of a literal: quotes, backslashes and
line breaks are escaped, and other characters may be. -/
inductive Escaped : List Char → List Char → Prop
  | nil : Escaped [] []
  | plain {c : Char} {s t : List Char} :
      c ∉ ['\\', '"', '\n'] → Escaped s t → Escaped (c :: s) (c :: t)
  | escape {c e : Char} {s t : List Char} :
      (c, e) ∈ escapes → Escaped s t → Escaped (c :: s) ('\\' :: e :: t)

/-- Escaped text has no line breaks, since these are written as escapes. -/
theorem Escaped.not_mem (h : Escaped s t) : '\n' ∉ t := by
  induction h with
  | nil => simp
  | plain hc _ ih =>
    rw [List.mem_cons, not_or]
    exact ⟨fun heq => hc (by rw [← heq]; decide), ih⟩
  | escape he _ ih =>
    rw [List.mem_cons, List.mem_cons, not_or, not_or]
    exact ⟨by decide, (escaped_of_mem_escapes he).2.1.symm, ih⟩

theorem continuation?_eq_none_of_not_mem (h : '\n' ∉ cs) : continuation? cs = none := by
  rw [continuation?]
  · rintro _ rfl
    exact h (by simp)
  · rintro _ rfl
    exact h (by simp)

/-- Escaped text is read back as the value that was written. -/
theorem Escaped.plainValue (h : Escaped s t) : plainValue t = s := by
  have hwhole : replaceAll continuation? [] t = t := by
    have hkept : replaceAll continuation? [] (t ++ []) = t ++ replaceAll continuation? [] [] :=
      replaceAll_append [] fun c rest hsuffix => continuation?_eq_none_of_not_mem fun hmem =>
        h.not_mem (hsuffix.subset (by simpa using hmem))
    rw [List.append_nil] at hkept
    exact hkept.trans (List.append_nil t)
  rw [Source.plainValue, hwhole]
  clear hwhole
  induction h with
  | nil => rfl
  | plain hc _ ih =>
    rw [resolveEscapes_cons (fun heq => hc (by rw [heq]; decide)), ih]
  | escape he _ ih =>
    obtain ⟨rfl, hline, -⟩ := escaped_of_mem_escapes he
    rw [resolveEscapes_escape hline, ih]

/-- The literal ends at the quote after the escaped text, as every quote inside is escaped. -/
theorem Escaped.plainLength? (h : Escaped s t) (n : Nat) (after : List Char) :
    plainLength? n (t ++ '"' :: after) = some (n + t.length) := by
  induction h generalizing n with
  | nil => cases after <;> rfl
  | plain hc _ ih =>
    rw [List.cons_append, plainLength?_cons (fun heq => hc (by rw [heq]; decide))
      (fun heq => hc (by rw [heq]; decide)), ih, List.length_cons, Nat.add_right_comm,
      Nat.add_assoc]
  | @escape c e s t _ _ ih =>
    have hskip : Source.plainLength? n ('\\' :: e :: (t ++ '"' :: after)) =
        Source.plainLength? (n + 2) (t ++ '"' :: after) := by
      simp [Source.plainLength?]
    rw [List.cons_append, List.cons_append, hskip, ih, List.length_cons, List.length_cons,
      Nat.add_right_comm, Nat.add_assoc]

/-- The literals with a value: raw ones between quotes with hash signs, where the value has no quote
with as many, and plain ones on one line. -/
inductive WritesValue : List Char → List Char → Prop
  | raw {s : List Char} (hashes : Nat) :
      ¬ '"' :: List.replicate hashes '#' <:+: s →
      WritesValue s ('r' :: (List.replicate hashes '#' ++
        '"' :: (s ++ '"' :: List.replicate hashes '#')))
  | plain {s t : List Char} : Escaped s t → WritesValue s ('"' :: (t ++ ['"']))

/-- A raw literal is read as it stands, up to a quote with as many hashes as it was opened with. -/
theorem literal?_raw {hashes : Nat} (hs : ¬ '"' :: List.replicate hashes '#' <:+: s)
    (after : List Char) :
    literal? ('r' :: (List.replicate hashes '#' ++
        '"' :: (s ++ '"' :: List.replicate hashes '#')) ++ after) =
      some (s, 1 + hashes + 1 + (s.length + (hashes + 1))) := by
  have hquote : '"' ∉ List.replicate hashes '#' := by simp
  have hopened : (List.replicate hashes '#' ++ '"' :: (s ++ '"' :: List.replicate hashes '#')) ++
      after = List.replicate hashes '#' ++
        ('"' :: (s ++ ('"' :: List.replicate hashes '#' ++ after))) := by
    simp
  have htake : (List.replicate hashes '#' ++
      ('"' :: (s ++ ('"' :: List.replicate hashes '#' ++ after)))).takeWhile (· == '#') =
        List.replicate hashes '#' := by
    rw [List.takeWhile_append_of_pos (by simp), List.takeWhile_cons_of_neg (by decide),
      List.append_nil]
  have hfound : throughFirst? ('"' :: List.replicate hashes '#')
      (s ++ ('"' :: List.replicate hashes '#' ++ after)) = some (s.length + (hashes + 1)) := by
    rw [throughFirst?, searchFrom_first hquote hs, List.length_replicate, Nat.zero_add]
  have hcontent : afterPrefix? ['"'] ('"' :: (s ++ ('"' :: List.replicate hashes '#' ++ after))) =
      some (s ++ ('"' :: List.replicate hashes '#' ++ after)) := afterPrefix?_append ['"'] _
  have hdrop (rest : List Char) :
      (List.replicate hashes '#' ++ rest).drop hashes = rest :=
    List.drop_left' List.length_replicate
  rw [List.cons_append, literal?, hopened]
  simp only [htake, hdrop, hcontent, hfound, Option.bind_eq_bind, Option.bind_some,
    List.length_replicate, Nat.add_sub_cancel, List.take_left]

theorem WritesValue.isLiteral (h : WritesValue s literal) : IsLiteral s literal := by
  intro after
  cases h with
  | raw hashes hs =>
    rw [literal?_raw hs]
    congr 2
    simp only [List.length_cons, List.length_append, List.length_replicate]
    omega
  | plain ht =>
    rw [List.cons_append, List.append_assoc, List.singleton_append, literal?, ht.plainLength?]
    simp [ht.plainValue]

/-! ### Lines -/

/-- A call on a line of its own. -/
structure CallLine where
  /-- The blanks before it, with the line break. -/
  indent : List Char
  subject : String
  method : String
  /-- Whether there is a mark behind the method. -/
  bang : Bool
  value : List Char
  /-- How the value is written. -/
  literal : List Char

namespace CallLine

/-- The text of a call through its literal. -/
def call (l : CallLine) : List Char :=
  writtenCall l.subject.toList l.method.toList l.bang l.literal

/-- The text of a line. -/
def text (l : CallLine) : List Char :=
  l.indent ++ (l.call ++ [')', ';'])

/-- What a line of calls of the given methods and of other ones must keep to. -/
structure IsWritten (methods : List String) (l : CallLine) : Prop where
  indent : ∀ c ∈ l.indent, isBlank c = true
  subject : IsIdentifier l.subject.toList
  method : IsWord l.method.toList
  literal : WritesValue l.value l.literal
  no_path : l.method ∉ methods → ¬ [':', ':'] <:+: l.literal

/-- The queries that lines give after a text: subject, method, text and line. -/
def queriesAfter (methods : List String) (before : List Char) :
    List CallLine → List (String × String × String × Int)
  | [] => []
  | l :: lines =>
    if l.method ∈ methods ∧ isBlankText l.value = false then
      (l.subject, l.method, String.ofList (trim l.value),
        ((before ++ l.indent).count '\n' + 1 : Nat)) ::
          queriesAfter methods (before ++ l.text) lines
    else queriesAfter methods (before ++ l.text) lines

end CallLine

open CallLine

variable {text before after : List Char} {methods : List String} {lines : List CallLine}
  {longest : List (List Char)}

/-- The calls in lines that follow a text, as far as they give queries. -/
theorem outline_callsFrom (hcomments : blockComments text = [])
    (hwords : ∀ name ∈ longest, IsWord name)
    (hmethods : ∀ name : String, name ∈ methods ↔ name.toList ∈ longest)
    (hlines : ∀ l ∈ lines, l.IsWritten methods)
    (hfirst : ∀ l ∈ lines.head?, before = [] ∨ '\n' ∈ l.indent)
    (hbreaks : ∀ l ∈ lines.tail, '\n' ∈ l.indent) (hafter : ∀ c ∈ after, isBlank c = true) :
    ((callsFrom longest ((Place.start text).after before) 0
        (lines.flatMap CallLine.text ++ after)).filter givesQuery).map outline =
      queriesAfter methods before lines := by
  induction lines generalizing before with
  | nil =>
    rw [List.flatMap_nil, List.nil_append, ← List.append_nil after, callsFrom_of_isBlank hafter]
    rfl
  | cons l lines ih =>
    obtain ⟨hl, hlines⟩ := List.forall_mem_cons.mp hlines
    have hrest := @ih (before ++ l.text) hlines
      (fun m hm => .inr (hbreaks m (List.mem_of_mem_head? hm)))
      (fun m hm => hbreaks m (List.mem_of_mem_tail hm))
    -- where the call starts, after the indentation of its line
    set place := (Place.start text).after (before ++ l.indent) with hplace
    have hstart : place.atWordStart = true :=
      Place.atWordStart_of_isBlank hl.indent (hfirst l rfl)
    have hlive : place.isCommented = false := by
      refine Place.isCommented_of_isBlank hl.indent (hfirst l rfl) ?_
      rw [inBlockComment, hcomments]
      rfl
    have hnumber : place.line = (before ++ l.indent).count '\n' + 1 := by
      rw [hplace, Place.line_after, Place.start, Nat.add_comm]
    have hparen : isIdentStart ')' = false := by decide
    have hsemicolon : isIdentStart ';' = false := by decide
    have hnext : ((place.after l.call).next ')').next ';' =
        (Place.start text).after (before ++ l.text) := by
      simp only [hplace, CallLine.text, Place.after_append, Place.after_cons, Place.after_nil]
    have htext : (l :: lines).flatMap CallLine.text ++ after =
        l.indent ++ (l.call ++ ')' :: ';' :: (lines.flatMap CallLine.text ++ after)) := by
      simp [CallLine.text]
    rw [htext, callsFrom_of_isBlank hl.indent, ← Place.after_append, ← hplace, queriesAfter]
    -- a call of another method gives no query and is passed over
    by_cases hm : l.method ∈ methods
    · have hcall := callsFrom_written hl.subject ((hmethods _).mp hm) hwords l.bang
        hl.literal.isLiteral hstart (')' :: ';' :: (lines.flatMap CallLine.text ++ after))
      rw [CallLine.call, hcall, ← CallLine.call, callsFrom_cons hparen, callsFrom_cons hsemicolon,
        hnext, List.filter_cons]
      cases hblank : isBlankText l.value
      · simp [givesQuery, hlive, hblank, hm, outline, hnumber, hrest]
      · simp [givesQuery, hblank, hrest]
    · have hpass := callsFrom_of_not_mem hl.subject.word ((hmethods _).not.mp hm) hwords hl.method
        l.bang (hl.no_path hm) (c := ')') (by decide) (by decide) (by decide) place
        (';' :: (lines.flatMap CallLine.text ++ after))
      rw [CallLine.call, hpass, ← CallLine.call, callsFrom_cons hsemicolon, hnext, hrest]
      simp [hm]

/-- **Lines of calls.** For a text of calls that start on lines of their own, the queries are those
of the calls with one of the methods and an argument that is not blank, in order. -/
theorem queries_of_lines {methods : List String} {lines : List CallLine} {after : List Char}
    (fallback : Catalog) (file : String) (hmethods : methods ≠ [])
    (hwords : ∀ name ∈ methods, IsWord name.toList) (hlines : ∀ l ∈ lines, l.IsWritten methods)
    (hbreaks : ∀ l ∈ lines.tail, '\n' ∈ l.indent) (hafter : ∀ c ∈ after, isBlank c = true)
    (hopen : ¬ ['/', '*'] <:+: lines.flatMap CallLine.text ++ after) :
    (queries methods fallback file (lines.flatMap CallLine.text ++ after)).map
        (fun q => (q.table, q.method, q.sql, q.line)) = queriesAfter methods [] lines := by
  have heffective : effectiveMethods methods = methods := by
    simp [effectiveMethods, hmethods]
  have hfirst : ∀ l ∈ lines.head?, ([] : List Char) = [] ∨ '\n' ∈ l.indent := fun _ _ => .inl rfl
  rw [outline_queries, heffective, calls]
  refine outline_callsFrom (blockComments_eq_nil hopen) (fun name hname => ?_) (fun name => ?_)
    hlines hfirst hbreaks hafter
  · obtain ⟨method, hmethod, rfl⟩ := List.mem_map.mp (mem_sortBy.mp hname)
    exact hwords method hmethod
  · rw [mem_sortBy, List.mem_map]
    refine ⟨fun hname => ⟨name, hname, rfl⟩, ?_⟩
    rintro ⟨other, hother, heq⟩
    exact String.toList_inj.mp heq ▸ hother

/-- Lines with calls of two methods and of a third one. -/
def searchLines : List CallLine :=
  [{ indent := "  ".toList, subject := "User", method := "where_query", bang := true,
     value := "id = 1\n// Order::where_query(\"x\")".toList,
     literal := "r#\"id = 1\n// Order::where_query(\"x\")\"#".toList },
   { indent := "\n".toList, subject := "Order", method := "where_query_count", bang := false,
     value := "id = 2".toList, literal := "\"id = 2\"".toList },
   { indent := "\n\n\t".toList, subject := "Order", method := "where_query_all", bang := false,
     value := " ".toList, literal := "r\" \"".toList },
   { indent := "\n".toList, subject := "Item", method := "where_query_all", bang := true,
     value := "name = \"x\"\n".toList, literal := "\"name = \\\"x\\\"\\n\"".toList }]

/-- Characters that need no escape are written as they are. -/
theorem Escaped.plains {x : List Char} (hx : x.any ['\\', '"', '\n'].contains = false)
    (h : Escaped s t) : Escaped (x ++ s) (x ++ t) := by
  induction x with
  | nil => exact h
  | cons c x ih =>
    rw [List.any_cons, Bool.or_eq_false_iff] at hx
    exact .plain (by simpa using hx.1) (ih hx.2)

theorem isWritten_searchLines :
    ∀ l ∈ searchLines, l.IsWritten ["where_query", "where_query_all"] := by
  have hcount : Escaped "id = 2".toList "id = 2".toList :=
    .plains (x := "id = 2".toList) (by decide) .nil
  have hitem : Escaped "name = \"x\"\n".toList "name = \\\"x\\\"\\n".toList := by
    refine .plains (x := "name = ".toList) (by decide) (.escape (by decide) ?_)
    exact .plain (by decide) (.escape (by decide) (.escape (by decide) .nil))
  have hblank : ∀ l ∈ searchLines, ∀ c ∈ l.indent, isBlank c = true := by decide +kernel
  have hsubject : ∀ l ∈ searchLines, IsIdentifier l.subject.toList := by decide +kernel
  have hmethod : ∀ l ∈ searchLines, IsWord l.method.toList := by decide +kernel
  have hpath : ∀ l ∈ searchLines, l.method ∉ ["where_query", "where_query_all"] →
      ¬ [':', ':'] <:+: l.literal := by decide +kernel
  have hvalue : ∀ l ∈ searchLines, WritesValue l.value l.literal := by
    refine List.forall_mem_cons.mpr ⟨.raw 1 (by decide +kernel), List.forall_mem_cons.mpr
      ⟨.plain hcount, List.forall_mem_cons.mpr ⟨.raw 0 (by decide +kernel), ?_⟩⟩⟩
    exact List.forall_mem_singleton.mpr (.plain hitem)
  exact fun l hl => ⟨hblank l hl, hsubject l hl, hmethod l hl, hvalue l hl, hpath l hl⟩

/-- Two of the lines give queries. -/
theorem searchLines_read :
    (queries ["where_query", "where_query_all"] [] ""
        (searchLines.flatMap CallLine.text ++ ['\n'])).map
        (fun q => (q.table, q.method, q.sql, q.line)) =
      [("User", "where_query", "id = 1\n// Order::where_query(\"x\")", 1),
        ("Item", "where_query_all", "name = \"x\"", 6)] := by
  have hbreaks : ∀ l ∈ searchLines.tail, '\n' ∈ l.indent := by decide +kernel
  refine Eq.trans (queries_of_lines [] "" (List.cons_ne_nil _ _) (by decide +kernel)
    isWritten_searchLines hbreaks (by decide +kernel) (by decide +kernel)) ?_
  decide +kernel

end Source

end IndexAdvice
