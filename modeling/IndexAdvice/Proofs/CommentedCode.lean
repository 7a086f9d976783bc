import IndexAdvice.Proofs.QueryCalls
import IndexAdvice.Proofs.SourceParts

/-!
# Which code is skipped

A call or a declaration is skipped if its place is commented out: it lies in a block comment, or its
line starts with a comment mark (`skipsAt`). This is a guess from the beginning of the line. It is
right about a position if the line up to there tells whether it lies in a comment (`IsTelling`): the
line starts with `//`, and no block comment ends on it, or it has no `//` at all and does not start
with another mark. It is wrong about code on a line that starts with a star, about code after a
block comment, and about a comment after code.
-/

namespace IndexAdvice.Source

open Text IndexAdvice.Source.Part

variable {c : Char} {k skip : Nat} {text xs ys front : List Char} {place : Place}
  {methods : List (List Char)} {ps qs : List Part}

/-! ### Where calls and heads start -/

/-- A place in a text after another place at which a name can start. -/
def StartsIn (place : Place) (text : List Char) (found : Place) : Prop :=
  ∃ front c rest, text = front ++ c :: rest ∧ isIdentStart c = true ∧ found = place.after front

theorem StartsIn.cons {found : Place} (h : StartsIn (place.next c) xs found) :
    StartsIn place (c :: xs) found := by
  obtain ⟨front, d, rest, rfl, hd, rfl⟩ := h
  exact ⟨c :: front, d, rest, rfl, hd, rfl⟩

theorem place_of_call? {found : Call} {n : Nat} (h : call? methods place xs = some (found, n)) :
    found.place = place := by
  simp only [call?, Option.bind_eq_bind, Option.bind_eq_some_iff, Option.some.injEq] at h
  obtain ⟨_, -, _, -, h⟩ := h
  exact congrArg (·.1.place) h.symm

/-- Calls are found at places of the text. -/
theorem startsIn_of_mem_callsFrom {found : Call} (h : found ∈ callsFrom methods place skip xs) :
    StartsIn place xs found.place := by
  induction xs generalizing place skip with
  | nil => exact absurd h List.not_mem_nil
  | cons c xs ih =>
    cases skip with
    | succ => exact (ih h).cons
    | zero =>
      rw [callsFrom] at h
      split at h
      · next hstart =>
        split at h
        · next first n hcall =>
          obtain rfl | h := List.mem_cons.mp h
          · exact ⟨[], c, xs, rfl, (Bool.and_eq_true_iff.mp hstart).2, place_of_call? hcall⟩
          · exact (ih h).cons
        · exact (ih h).cons
      · exact (ih h).cons

theorem startsIn_of_mem_headsFrom {found : Head} (h : found ∈ headsFrom place skip xs) :
    StartsIn place xs found.place := by
  induction xs generalizing place skip with
  | nil => exact absurd h List.not_mem_nil
  | cons c xs ih =>
    cases skip with
    | succ => exact (ih h).cons
    | zero =>
      rw [headsFrom] at h
      split at h
      · next hstart =>
        obtain rfl : c = 's' := by simpa using (Bool.and_eq_true_iff.mp hstart).2
        split at h
        · obtain rfl | h := List.mem_cons.mp h
          · exact ⟨[], 's', xs, rfl, by decide, rfl⟩
          · exact (ih h).cons
        · exact (ih h).cons
      · exact (ih h).cons

/-! ### Comments and skipped code -/

/-- Whether code at a position of a text is skipped. -/
def skipsAt (text : List Char) (k : Nat) : Bool :=
  inBlockComment text k || startsMarked (lastLine (text.take k))

/-- The part of a text that a position lies in. -/
def partIn? (text : List Char) (k : Nat) : Option Part :=
  partAt? (partsOf text) k

/-- Whether a position of a text lies in a comment. -/
def inComment (text : List Char) (k : Nat) : Bool :=
  (partIn? text k).any Part.isComment

/-- The flag that a place carries tells whether its line starts as a comment. -/
theorem StartsIn.isCommented {found : Place} (h : StartsIn (Place.start text) text found) :
    found.isCommented = skipsAt text found.position := by
  obtain ⟨front, c, rest, rfl, -, rfl⟩ := h
  rw [Place.isCommented_start_after, Place.position_after, Place.start, Nat.zero_add, skipsAt,
    List.take_left]

/-- The line up to a position tells whether that lies in a line comment. -/
def IsTelling (line : List Char) : Prop :=
  ['/', '/'] <+: trimStart line ∧ ¬ ['*', '/'] <:+: line ∨
    ¬ ['/', '/'] <:+: line ∧ startsMarked line = false

instance (line : List Char) : Decidable (IsTelling line) :=
  inferInstanceAs (Decidable (_ ∨ _))

theorem lastLine_suffix (front : List Char) : lastLine front <:+ front := by
  have hprefix := List.takeWhile_prefix (l := front.reverse) (· != '\n')
  rwa [← List.reverse_suffix, List.reverse_reverse] at hprefix

theorem lastLine_append (xs : List Char) (hys : '\n' ∉ ys) :
    lastLine (xs ++ ys) = lastLine xs ++ ys := by
  induction ys using List.reverseRecOn with
  | nil => rw [List.append_nil, List.append_nil]
  | append_singleton ys c ih =>
    rw [List.mem_append, List.mem_singleton, not_or] at hys
    rw [← List.append_assoc, lastLine_concat, if_neg (Ne.symm hys.2), ih hys.1,
      List.append_assoc]

/-- A line that starts with a comment mark after its blanks is commented. -/
theorem startsMarked_of_mark {mark : List Char} (hmark : mark ∈ commentMarks)
    (h : mark <+: trimStart front) : startsMarked front = true :=
  List.any_eq_true.mpr ⟨mark, hmark, List.isPrefixOf_iff_prefix.mpr h⟩

/-- A block comment ends on the line that it ends. -/
theorem closed_lastLine (ps : List Part) (content : List Char) :
    ['*', '/'] <:+: lastLine (textOf (ps ++ [block content])) := by
  have htext : textOf (ps ++ [block content]) =
      textOf ps ++ '/' :: '*' :: content ++ ['*', '/'] := by simp [text]
  rw [htext, lastLine_append _ (by decide)]
  exact (List.suffix_append _ _).isInfix

/-- Behind the mark of a line comment, its line has the mark. -/
theorem slashes_lastLine {content : List Char} (ps : List Part) (hcontent : '\n' ∉ content)
    (m : Nat) : ['/', '/'] <:+: lastLine (textOf ps ++ (line content).text.take (m + 2)) := by
  have hinner : '\n' ∉ '/' :: '/' :: content.take m := by
    simpa using fun hmem => hcontent (List.mem_of_mem_take hmem)
  rw [Part.text, List.take_succ_cons, List.take_succ_cons, lastLine_append _ hinner]
  exact ⟨lastLine (textOf ps), content.take m, by simp⟩

/-- A slash that ends a block comment is the only one that another one can follow in code. -/
theorem closed_of_slashes (h : AreParts (ps ++ code '/' :: qs))
    (hlast : (textOf ps).getLast? = some '/') : ['*', '/'] <:+: lastLine (textOf ps) := by
  induction ps using List.reverseRecOn with
  | nil => exact absurd hlast (by decide)
  | append_singleton ps p =>
    rw [List.append_assoc] at h
    cases p with
    | code d =>
      obtain rfl : d = '/' := by simpa [text] using hlast
      cases h.right with
      | code hline => exact absurd hline (by simp [lineComment?, afterPrefix?, text])
    | line content =>
      cases h.right with
      | line _ hnext => exact absurd (hnext '/' rfl) (by decide)
    | block content => exact closed_lastLine ps content

/-- Two slashes at the beginning of a line start a comment. -/
theorem not_prefix_trimStart_lastLine (h : AreParts (ps ++ code c :: qs)) (hc : c ≠ '\n')
    (hline : ¬ ['*', '/'] <:+: lastLine (textOf ps)) :
    ¬ ['/', '/'] <+: trimStart (lastLine (textOf ps)) := by
  induction ps using List.reverseRecOn generalizing c qs with
  | nil => decide
  | append_singleton ps p ih =>
    have hparts : AreParts (ps ++ p :: code c :: qs) := by simpa using h
    cases p with
    | code d =>
      have htext : textOf (ps ++ [code d]) = textOf ps ++ [d] := by simp [text]
      rw [htext, lastLine_concat] at hline ⊢
      by_cases hd : d = '\n'
      · rw [if_pos hd]
        decide
      · rw [if_neg hd] at hline
        rw [if_neg hd, trimStart_concat]
        have hbefore : ¬ ['*', '/'] <:+: lastLine (textOf ps) := fun h =>
          hline (h.trans (List.prefix_append _ _).isInfix)
        split
        · decide
        · rw [List.prefix_concat_iff, not_or]
          refine ⟨fun hslashes => hbefore ?_, ih hparts hd hbefore⟩
          obtain ⟨htrim, hslash⟩ : ['/'] = trimStart (lastLine (textOf ps)) ∧ ['/'] = [d] :=
            List.append_inj' (by simpa using hslashes) rfl
          obtain rfl : '/' = d := (List.cons.inj hslash).1
          obtain ⟨front, hfront⟩ : ['/'] <:+ textOf ps := by
            rw [htrim]
            exact (List.dropWhile_suffix isBlank).trans (lastLine_suffix (textOf ps))
          exact closed_of_slashes hparts (by rw [← hfront, List.getLast?_concat])
    | line content =>
      -- the character after a line comment is a line break
      cases hparts.right with
      | line _ hnext => exact absurd (hnext c rfl) hc
    | block content => exact absurd (closed_lastLine ps content) hline

/-- Where the line up to a name tells, the name is skipped just if it lies in a comment. -/
theorem skipsAt_eq_inComment (hopeners : ∀ p ∈ partsOf text, p.HidesNoOpener)
    (hk : text[k]?.any isIdentStart = true)
    (htold : (partIn? text k).any Part.isBlock = true ∨ IsTelling (lastLine (text.take k))) :
    skipsAt text k = inComment text k := by
  obtain ⟨htext, hparts⟩ := partsOf_spec text
  have hblock : inBlockComment text k = (partIn? text k).any Part.isBlock := by
    rw [partIn?, ← inBlockComment_textOf hparts hopeners, htext]
  rw [skipsAt, inComment, hblock]
  cases hp : partIn? text k with
  | none =>
    have hlong := partAt?_eq_none_iff.mp hp
    rw [htext] at hlong
    rw [List.getElem?_eq_none hlong] at hk
    exact absurd hk (by decide)
  | some p =>
    obtain ⟨before, after, n, hsplit, rfl, hn⟩ := exists_of_partAt? hp
    rw [hp] at htold
    have hwhole : text = textOf before ++ (p.text ++ textOf after) := by
      rw [← htext, hsplit, textOf_append, textOf_cons]
    have htake : text.take ((textOf before).length + n) = textOf before ++ p.text.take n := by
      rw [hwhole, List.take_length_add_append, List.take_append_of_le_length (Nat.le_of_lt hn)]
    have hstart : p.text[n]?.any isIdentStart = true := by
      rwa [hwhole, List.getElem?_append_right (Nat.le_add_right _ _), Nat.add_sub_cancel_left,
        List.getElem?_append_left hn] at hk
    rw [hsplit] at hparts
    rw [htake] at htold ⊢
    cases p with
    | block content => rfl
    | line content =>
      have hslash : isIdentStart '/' = false := by decide
      -- an identifier starts after the two slashes
      obtain ⟨m, rfl⟩ : ∃ m, n = m + 2 := by
        obtain _ | _ | m := n
        · exact Bool.noConfusion (hslash.symm.trans hstart)
        · exact Bool.noConfusion (hslash.symm.trans hstart)
        · exact ⟨m, rfl⟩
      obtain hblock | ⟨hmark, -⟩ | ⟨hnone, -⟩ := htold
      · exact Bool.noConfusion hblock
      · rw [startsMarked_of_mark (by decide) hmark]
        rfl
      · cases hparts.right with
        | line hcontent => exact absurd (slashes_lastLine before hcontent m) hnone
    | code c =>
      obtain rfl : n = 0 := Nat.lt_one_iff.mp hn
      rw [List.take_zero, List.append_nil] at htold ⊢
      obtain hblock | ⟨hmark, hclosed⟩ | ⟨-, hunmarked⟩ := htold
      · exact Bool.noConfusion hblock
      · refine absurd hmark (not_prefix_trimStart_lastLine hparts ?_ hclosed)
        rintro rfl
        exact absurd hstart (by decide)
      · rw [hunmarked]
        rfl

/-- **Skipped code.** For every text, the queries are those of the calls at places that are not
skipped and with arguments that are not blank, and the declarations those of the heads at such
places. Where no line comment hides an opening mark, what is skipped at the beginning of a name is
what lies in a comment, as long as the line up to there tells. -/
theorem live_code_read (methods : List String) (fallback : Catalog) (file : String)
    (text : List Char) :
    (queries methods fallback file text).map (fun q => (q.table, q.method, q.sql, q.line)) =
        ((calls (effectiveMethods methods) text).filter fun c =>
          !skipsAt text c.place.position && !isBlankText c.argument).map outline ∧
      (declarations file text).map (fun d => (d.name, d.position)) =
        ((headsFrom (Place.start text) 0 text).filter fun h =>
          !skipsAt text h.place.position).map (fun h => (String.ofList h.name, h.place.position)) ∧
      ((∀ p ∈ partsOf text, p.HidesNoOpener) → ∀ k, text[k]?.any isIdentStart = true →
        (partIn? text k).any Part.isBlock = true ∨ IsTelling (lastLine (text.take k)) →
          skipsAt text k = inComment text k) := by
  refine ⟨?_, ?_, fun hopeners k => skipsAt_eq_inComment hopeners⟩
  · rw [outline_queries]
    congr 1
    refine List.filter_congr fun c hc => ?_
    rw [givesQuery, (startsIn_of_mem_callsFrom hc).isCommented]
  · rw [declarations, List.map_map]
    refine (List.map_congr_left fun h _ => rfl).trans (congrArg (List.map _) ?_)
    refine List.filter_congr fun h hh => ?_
    rw [(startsIn_of_mem_headsFrom hh).isCommented]

/-- A call in a block comment and one in a line comment are skipped, and one behind them is not. -/
theorem call_after_comments_read :
    let text :=
      "/* A::where_query(\"a\") */\n// B::where_query(\"b\")\nC::where_query(\"c\")".toList
    [3, 29, 49].map (skipsAt text) = [true, true, false] := by
  intro text
  obtain ⟨-, -, hread⟩ := live_code_read [] [] "" text
  have hsame : ∀ k ∈ [3, 29, 49], skipsAt text k = inComment text k := by
    have hstart : ∀ k ∈ [3, 29, 49], text[k]?.any isIdentStart = true := by decide +kernel
    have htold : ∀ k ∈ [3, 29, 49], (partIn? text k).any Part.isBlock = true ∨
        IsTelling (lastLine (text.take k)) := by decide +kernel
    exact fun k hk => hread (by decide +kernel) k (hstart k hk) (htold k hk)
  rw [List.map_congr_left hsame]
  decide +kernel

/-- A call in a comment after code is read, and one on a line that starts with a star is skipped. -/
theorem call_after_code_read :
    let commented := "let n = 1; // User::where_query!(\"id = $1\");\n".toList
    let starred := "*n = User::where_query!(\"id = $1\");\n".toList
    (calls ["where_query"] commented).map (fun c => inComment commented c.place.position) = [true] ∧
      (queries ["where_query"] [] "" commented).map (·.sql) = ["id = $1"] ∧
      (calls ["where_query"] starred).map (fun c => inComment starred c.place.position) = [false] ∧
      queries ["where_query"] [] "" starred = [] := by
  decide +kernel

end IndexAdvice.Source
