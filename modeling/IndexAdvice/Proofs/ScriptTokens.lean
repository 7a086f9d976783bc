import IndexAdvice.Proofs.Coverage
import IndexAdvice.Proofs.Grafting
import IndexAdvice.Proofs.ScriptRuns
import IndexAdvice.Proofs.Spacing

/-!
# What a script executes

A script holds remarks, which are comments and blank lines, and statements. A line break is a piece
by itself after a statement in which nothing is open, and it ends a comment, so each line is read
apart from the next one (`Piece.tokens_lines`). If no remark has a line break of its own and every
statement is closed, the tokens of a script are therefore those of its statements
(`Report.script_executes_statements`).

Nothing in a report keeps line breaks out of the names that a remark repeats: a joined table may
bring a statement of its own along (`joinedName_drops_table`).
-/

namespace IndexAdvice

open Text

/-! ### Texts on lines -/

namespace Piece

variable {cs : List Char}

/-- The end of a line. -/
def lineBreak : Piece :=
  ⟨none, ['\n']⟩

/-- Whether nothing is open at the end of a text: a line break after it is a piece by itself. -/
def IsFinished (cs : List Char) : Prop :=
  ofText (cs ++ ['\n']) = ofText cs ++ [lineBreak]

instance : DecidablePred IsFinished := fun _ => inferInstanceAs (Decidable (_ = _))

/-- What follows a finished line is cut by itself. -/
theorem IsFinished.ofText_line (h : IsFinished cs) (d : List Char) :
    ofText (cs ++ '\n' :: d) = ofText cs ++ lineBreak :: ofText d := by
  have htexts : (ofText cs).flatMap text = cs.drop 0 := texts_ofText cs
  rw [ofText, cut_append_break (r := '\n') (by decide) (Nat.zero_le _) h htexts,
    cut_blank (by decide)]
  rfl

/-- A remark: a blank line, or a comment that ends with its line. -/
def IsRemark (line : List Char) : Prop :=
  line = [] ∨ ['-', '-'] <+: line ∧ '\n' ∉ line

instance : DecidablePred IsRemark := fun _ => inferInstanceAs (Decidable (_ ∨ _ ∧ _))

/-- A comment ends with its line. -/
theorem ofText_comment_line (h : '\n' ∉ cs) (d : List Char) :
    ofText ('-' :: '-' :: cs ++ '\n' :: d) = ⟨none, '-' :: '-' :: cs ++ ['\n']⟩ :: ofText d := by
  have hnext : next none '-' ('-' :: cs ++ '\n' :: d) =
      (none, ('-' :: cs ++ ['\n']).length) := by
    simpa using next_of_isLayoutUnit (.line d h)
  have hsplit : '-' :: cs ++ '\n' :: d = ('-' :: cs ++ ['\n']) ++ d := by simp
  have hcut : cut none 0 (('-' :: '-' :: cs ++ ['\n']) ++ d) =
      [⟨none, '-' :: '-' :: cs ++ ['\n']⟩] ++
        cut (some '-') ('-' :: cs ++ ['\n']).length (('-' :: cs ++ ['\n']) ++ d) := by
    rw [List.cons_append, List.cons_append, List.cons_append, cut, ← List.cons_append,
      ← List.cons_append, ← hsplit, hnext, hsplit, List.take_left]
    rfl
  have hrest := (cut_append (Nat.zero_le _) hcut (by simp)).2
  rw [List.getLast?_concat, Option.some_or, cut_before (by decide)] at hrest
  have hwhole : '-' :: '-' :: cs ++ '\n' :: d = ('-' :: '-' :: cs ++ ['\n']) ++ d := by simp
  rw [hwhole, ofText, hcut, ← hrest]
  rfl

/-- The pieces of a text that are tokens. -/
def tokens (cs : List Char) : List Piece :=
  (ofText cs).filter isToken

/-- Whether a line may be cut by itself, whatever stands on the lines below it. -/
def StandsAlone (line : List Char) : Prop :=
  ∀ d, tokens (line ++ '\n' :: d) = tokens line ++ tokens d

/-- A finished statement leaves the next line alone. -/
theorem IsFinished.standsAlone (h : IsFinished cs) : StandsAlone cs := by
  intro d
  rw [tokens, h.ofText_line, List.filter_append, List.filter_cons_of_neg (by decide)]
  rfl

/-- A comment is no token. -/
theorem tokens_comment (h : '\n' ∉ cs) : tokens ('-' :: '-' :: cs) = [] := by
  have hnext : next none '-' ('-' :: cs) = (none, ('-' :: cs).length) := by
    simpa using next_of_isLayoutUnit (.lastLine h)
  rw [tokens, ofText, cut, hnext, cut_eq_nil (Nat.le_refl _)]
  rfl

/-- A remark is all layout. -/
theorem IsRemark.tokens_eq_nil (h : IsRemark cs) : tokens cs = [] := by
  rcases h with rfl | ⟨⟨rest, rfl⟩, hline⟩
  · rfl
  · exact tokens_comment fun hmem => hline (List.mem_append_right _ hmem)

/-- A remark leaves the next line alone. -/
theorem IsRemark.standsAlone (h : IsRemark cs) : StandsAlone cs := by
  intro d
  rw [h.tokens_eq_nil, List.nil_append]
  rcases h with rfl | ⟨⟨rest, rfl⟩, hline⟩
  · rw [List.nil_append, tokens, ofText, cut_blank (by decide)]
    rfl
  · have hrest : '\n' ∉ rest := fun hmem => hline (List.mem_append_right _ hmem)
    show tokens ('-' :: '-' :: rest ++ '\n' :: d) = tokens d
    rw [tokens, ofText_comment_line hrest d]
    rfl

/-- **Lines that stand alone** make the tokens of a text one after the other. -/
theorem tokens_lines {lines : List (List Char)} (h : ∀ line ∈ lines, StandsAlone line) :
    tokens (lines.flatMap (· ++ ['\n'])) = lines.flatMap tokens := by
  induction lines with
  | nil => rfl
  | cons line lines ih =>
    obtain ⟨hline, hlines⟩ := List.forall_mem_cons.mp h
    rw [List.flatMap_cons, List.append_assoc, List.singleton_append, hline, ih hlines,
      List.flatMap_cons]

end Piece

namespace Token

variable {start depth : Nat}

/-- What a token is, wherever it stands. -/
def spelling (t : Token) : TokenKind × String :=
  (t.kind, t.text)

/-- What the token of a piece is. -/
def spellingOf (p : Piece) : Option (TokenKind × String) :=
  p.kind.map (·, String.ofList p.text)

theorem spellings_locate (start depth : Nat) (ps : List Piece) :
    (locate start depth ps).map spelling = (ps.filter Piece.isToken).filterMap spellingOf := by
  induction ps generalizing start depth with
  | nil => rfl
  | cons p ps ih =>
    obtain ⟨kind, text⟩ := p
    cases kind with
    | none => exact ih _ _
    | some kind =>
      rw [List.filter_cons_of_pos rfl, locate_some, List.map_cons, ih]
      rfl

theorem depthThrough_filter (depth : Nat) (ps : List Piece) :
    depthThrough depth (ps.filter Piece.isToken) = depthThrough depth ps := by
  induction ps generalizing depth with
  | nil => rfl
  | cons p ps ih =>
    obtain ⟨kind, text⟩ := p
    cases kind with
    | none => exact ih depth
    | some kind => exact ih (depthAfter depth kind)

instance : DecidablePred IsBalanced := fun _ => inferInstanceAs (Decidable (_ = _))

/-- Texts in which parentheses match have the same depths one after the other as alone. -/
theorem lexemes_flatMap {texts : List (List Char)}
    (h : ∀ text ∈ texts, IsBalanced (Piece.ofText text)) (start : Nat) :
    (locate start 0 (texts.flatMap Piece.tokens)).map lexeme =
      texts.flatMap fun text => (locate 0 0 (Piece.ofText text)).map lexeme := by
  induction texts generalizing start with
  | nil => rfl
  | cons text texts ih =>
    obtain ⟨htext, htexts⟩ := List.forall_mem_cons.mp h
    have hdepth : depthThrough 0 (Piece.tokens text) = 0 := by
      rw [Piece.tokens, depthThrough_filter, htext.depthThrough_eq]
    rw [List.flatMap_cons, List.flatMap_cons, locate_append, hdepth, List.map_append, ih htexts,
      Piece.tokens, ← lexemes_locate_filter 0 start]

end Token

/-! ### Texts without line breaks -/

namespace Text

variable {cs word : List Char} {c : Char}

theorem not_isBlank_of_mem_wordsFrom {w : List Char} (hword : ∀ c ∈ word, isBlank c = false)
    (h : w ∈ wordsFrom word cs) : ∀ c ∈ w, isBlank c = false := by
  induction cs generalizing word with
  | nil =>
    rw [wordsFrom] at h
    split at h
    · simp at h
    · obtain rfl := List.mem_singleton.mp h
      simpa using hword
  | cons c cs ih =>
    rw [wordsFrom] at h
    split at h
    · split at h
      · exact ih (by simp) h
      · rcases List.mem_cons.mp h with rfl | h
        · simpa using hword
        · exact ih (by simp) h
    · next hc => exact ih (List.forall_mem_cons.mpr ⟨Bool.eq_false_iff.mpr hc, hword⟩) h

/-- An excerpt is on one line. -/
theorem shorten_on_line (limit : Int) (s : String) : '\n' ∉ (shorten limit s).toList := by
  have hline : '\n' ∉ [' '].intercalate (words s.toList) := by
    refine fun h => forall_mem_intercalate (p := (· ≠ '\n')) (by simp)
      (fun w hw c hc hn => ?_) _ h rfl
    have hblank := not_isBlank_of_mem_wordsFrom (by simp) hw c hc
    rw [hn] at hblank
    exact absurd hblank (by decide)
  have htake : '\n' ∉ takeTo (limit - 3) ([' '].intercalate (words s.toList)) := by
    intro h
    rw [takeTo] at h
    split at h <;> exact hline (List.mem_of_mem_take h)
  rw [shorten]
  split
  · rwa [String.toList_ofList]
  · rw [String.toList_ofList]
    simpa using htake

theorem nat_on_line (n : Nat) : '\n' ∉ (toString n).toList := by
  intro h
  have hdigit : ('\n').isDigit = true := by
    refine Nat.isDigit_of_mem_toDigits (b := 10) (n := n) (by decide) (by decide) ?_
    rwa [← Nat.toList_repr]
  exact absurd hdigit (by decide)

theorem int_on_line (n : Int) : '\n' ∉ (toString n).toList := by
  cases n with
  | ofNat m => exact nat_on_line m
  | negSucc m =>
    intro h
    have h : '\n' ∈ ("-" ++ toString (m + 1)).toList := h
    rw [String.toList_append, List.mem_append] at h
    rcases h with h | h
    · exact absurd h (by decide)
    · exact nat_on_line _ h

end Text

/-! ### The lines of a script -/

/-- The capabilities of a database fit on one line. -/
theorem Capabilities.summary_on_line (caps : Capabilities) : '\n' ∉ caps.summary.toList := by
  have hlabel : '\n' ∉ caps.dialect.label.toList := by
    cases caps.dialect <;> decide
  have htitle : '\n' ∉ caps.title.toList := by
    rw [title]
    cases caps.version with
    | none => exact hlabel
    | some v =>
      show '\n' ∉ (caps.dialect.label ++ " " ++ toString v).toList
      simp only [String.toList_append, List.mem_append, not_or]
      exact ⟨⟨hlabel, by decide⟩, Text.int_on_line v⟩
  have hkeywords : '\n' ∉ (", ".intercalate caps.joinKeywords).toList := by
    rw [String.toList_intercalate]
    refine fun h => forall_mem_intercalate (p := (· ≠ '\n')) (by simp) ?_ _ h rfl
    rintro word hword c hc rfl
    obtain ⟨keyword, hkeyword, rfl⟩ := List.mem_map.mp hword
    obtain ⟨kind, -, rfl⟩ := List.mem_map.mp (mem_sortTexts.mp hkeyword)
    have hname : '\n' ∉ kind.keyword.toList := by cases kind <;> decide
    exact hname hc
  have hanswer (b : Bool) : '\n' ∉ (if b then "yes" else "no").toList := by
    cases b <;> decide
  simp only [summary, String.toList_append, List.mem_append, not_or]
  exact ⟨⟨⟨⟨⟨⟨⟨⟨htitle, by decide⟩, hanswer _⟩, by decide⟩, hanswer _⟩, by decide⟩, hanswer _⟩,
    by decide⟩, hkeywords⟩

namespace Report

variable (r : Report)

/-- The lines that are no remarks. -/
def withoutRemarks (lines : List String) : List String :=
  lines.filter fun line => ¬ Piece.IsRemark line.toList

/-- What a script is meant to execute. -/
def executed : List String :=
  let statements := r.recommendations.map (·.statement)
  if statements.isEmpty then []
  else if r.capabilities.transactional then ["BEGIN;"] ++ statements ++ ["COMMIT;"]
  else statements

/-- A comment that goes on with text of one line. -/
theorem isRemark_append {lead : List Char} (hlead : ['-', '-'] <+: lead ∧ '\n' ∉ lead) {s : List Char}
    (hs : '\n' ∉ s) : Piece.IsRemark (lead ++ s) := by
  refine .inr ⟨hlead.1.trans (List.prefix_append lead s), fun h => ?_⟩
  exact (List.mem_append.mp h).elim hlead.2 hs

/-- The header of a script is made of remarks if its title is on one line. -/
theorem isRemark_of_mem_scriptHeader {title line : String} (htitle : '\n' ∉ title.toList)
    (h : line ∈ r.scriptHeader title) : Piece.IsRemark line.toList := by
  simp only [scriptHeader, List.mem_cons, List.not_mem_nil, or_false] at h
  rcases h with rfl | rfl | rfl | rfl
  · rw [String.toList_append]
    exact isRemark_append (by decide) htitle
  · rw [String.toList_append]
    exact isRemark_append (by decide) r.capabilities.summary_on_line
  · show Piece.IsRemark ("-- Recommendations: " ++ toString r.recommendations.length).toList
    rw [String.toList_append]
    exact isRemark_append (by decide) (Text.nat_on_line _)
  · exact .inl rfl

/-- The texts that the remarks on a recommendation repeat, its query apart. -/
def repeated (rec : Recommendation) : List String :=
  [rec.table, rec.reason, rec.source]

theorem withoutRemarks_append (lines lines' : List String) :
    withoutRemarks (lines ++ lines') = withoutRemarks lines ++ withoutRemarks lines' :=
  List.filter_append _ _

/-- Nothing is left of remarks. -/
theorem withoutRemarks_eq_nil {lines : List String}
    (h : ∀ line ∈ lines, Piece.IsRemark line.toList) : withoutRemarks lines = [] := by
  rw [withoutRemarks, List.filter_eq_nil_iff]
  simpa using h

/-- Of the lines of a recommendation all but the statement are remarks. -/
theorem withoutRemarks_createLines {rec : Recommendation}
    (h : ∀ s ∈ repeated rec, '\n' ∉ s.toList) :
    withoutRemarks (createLines rec) = withoutRemarks [rec.statement] := by
  simp only [repeated, List.forall_mem_cons] at h
  obtain ⟨htable, hreason, hsource, -⟩ := h
  have hwhy : Piece.IsRemark ("-- " ++ rec.table ++ ": " ++ rec.reason).toList := by
    simp only [String.toList_append, List.append_assoc]
    refine isRemark_append (by decide) ?_
    simp only [List.mem_append, not_or]
    exact ⟨htable, by decide, hreason⟩
  have hplace : ∀ line ∈ if rec.source.isEmpty then [] else ["-- source: " ++ rec.source],
      Piece.IsRemark line.toList := by
    intro line hline
    split at hline
    · simp at hline
    · rw [List.mem_singleton.mp hline, String.toList_append]
      exact isRemark_append (by decide) hsource
  have hquery : Piece.IsRemark ("-- query: " ++ Text.shorten 120 rec.sql).toList := by
    rw [String.toList_append]
    exact isRemark_append (by decide) (Text.shorten_on_line _ _)
  rw [createLines, withoutRemarks_append, withoutRemarks_append, withoutRemarks_eq_nil hplace,
    withoutRemarks_eq_nil (by simpa using hwhy), List.nil_append, List.nil_append,
    ← List.singleton_append, withoutRemarks_append, withoutRemarks_eq_nil (by simpa using hquery),
    List.nil_append]

/-- Nothing is left of what separates blocks, either. -/
theorem withoutRemarks_intercalate (blocks : List (List String)) :
    withoutRemarks ([""].intercalate blocks) = blocks.flatMap withoutRemarks := by
  induction blocks with
  | nil => rfl
  | cons block blocks ih =>
    cases blocks with
    | nil => simp [List.intercalate]
    | cons block' blocks =>
      have hblank : withoutRemarks [""] = [] := rfl
      rw [List.intercalate_cons_cons, withoutRemarks_append, withoutRemarks_append, ih, hblank,
        List.append_nil]
      rfl

/-- **The lines of a script** are what it is meant to execute and remarks. -/
theorem withoutRemarks_createScriptLines
    (h : ∀ rec ∈ r.recommendations, ∀ s ∈ repeated rec, '\n' ∉ s.toList) :
    withoutRemarks r.createScriptLines = withoutRemarks r.executed := by
  have hheader := withoutRemarks_eq_nil fun line =>
    @isRemark_of_mem_scriptHeader r "index recommendations" line (by decide)
  have hblocks : withoutRemarks ([""].intercalate (r.recommendations.map createLines)) =
      withoutRemarks (r.recommendations.map (·.statement)) := by
    rw [withoutRemarks_intercalate, List.flatMap_map, List.map_eq_flatMap, withoutRemarks,
      List.filter_flatMap]
    exact List.flatMap_congr fun rec hrec => withoutRemarks_createLines (h rec hrec)
  have hempty : ([""].intercalate (r.recommendations.map createLines)).isEmpty =
      (r.recommendations.map (·.statement)).isEmpty := by
    rcases r.recommendations with _ | ⟨rec, _ | ⟨rec', recs⟩⟩
    · rfl
    · rfl
    · rfl
  rw [createScriptLines, withoutRemarks_append, hheader, List.nil_append, scriptBody, executed,
    hempty]
  split
  · rfl
  · split
    · simp only [withoutRemarks_append, hblocks]
      rfl
    · exact hblocks

/-- The text of a script is that of its parts with a line break after each. -/
theorem toList_scriptText {lines : List String} (h : lines ≠ []) :
    (scriptText lines).toList = (lines.map String.toList).flatMap (· ++ ['\n']) := by
  rw [scriptText, String.toList_append, String.toList_intercalate]
  induction lines with
  | nil => exact absurd rfl h
  | cons line lines ih =>
    cases lines with
    | nil => simp
    | cons line' lines =>
      have hrest := ih (List.cons_ne_nil _ _)
      rw [List.map_cons] at hrest
      rw [List.map_cons, List.map_cons, List.intercalate_cons_cons, List.append_assoc, hrest,
        List.flatMap_cons]
      rfl

theorem toList_createScript (r : Report) :
    r.createScript.toList = (r.createScriptLines.map String.toList).flatMap (· ++ ['\n']) :=
  toList_scriptText (by simp [scriptHeader])

/-- What a reader that skips remarks reads from lines. -/
theorem flatMap_tokens_withoutRemarks (lines : List String) :
    (withoutRemarks lines).flatMap (fun line => Piece.tokens line.toList) =
      lines.flatMap fun line => Piece.tokens line.toList := by
  induction lines with
  | nil => rfl
  | cons line lines ih =>
    rw [← List.singleton_append, withoutRemarks_append, List.flatMap_append, List.flatMap_append,
      ih]
    congr 1
    by_cases hline : Piece.IsRemark line.toList
    · rw [withoutRemarks_eq_nil (by simpa using hline)]
      simp [hline.tokens_eq_nil]
    · simp [withoutRemarks, hline]

variable {r}

/-- What holds of the statements of all recommendations and of the two around them holds of all that
is executed. -/
theorem forall_mem_executed {P : String → Prop} (hbegin : P "BEGIN;") (hcommit : P "COMMIT;")
    (h : ∀ rec ∈ r.recommendations, P rec.statement) : ∀ s ∈ r.executed, P s := by
  have hstatements : ∀ s ∈ r.recommendations.map (·.statement), P s := List.forall_mem_map.mpr h
  rw [executed]
  split
  · simp
  · split
    · simp only [List.forall_mem_append, List.forall_mem_singleton]
      exact ⟨⟨hbegin, hstatements⟩, hcommit⟩
    · exact hstatements

/-- Lines of a script are remarks or among what is executed. -/
theorem standsAlone_of_mem_createScriptLines
    (hline : ∀ rec ∈ r.recommendations, ∀ s ∈ repeated rec, '\n' ∉ s.toList)
    (hfinished : ∀ rec ∈ r.recommendations, Piece.IsFinished rec.statement.toList)
    {line : String} (h : line ∈ r.createScriptLines) : Piece.StandsAlone line.toList := by
  by_cases hremark : Piece.IsRemark line.toList
  · exact hremark.standsAlone
  have hexecuted : ∀ s ∈ r.executed, Piece.IsFinished s.toList :=
    forall_mem_executed (P := fun s => Piece.IsFinished s.toList) (by decide) (by decide) hfinished
  have hmem : line ∈ withoutRemarks r.createScriptLines :=
    List.mem_filter.mpr ⟨h, by simpa using hremark⟩
  rw [withoutRemarks_createScriptLines r hline] at hmem
  exact (hexecuted line (List.mem_filter.mp hmem).1).standsAlone

/-- The pieces of a script that are tokens are those of its statements. -/
theorem tokens_createScript
    (hline : ∀ rec ∈ r.recommendations, ∀ s ∈ repeated rec, '\n' ∉ s.toList)
    (hfinished : ∀ rec ∈ r.recommendations, Piece.IsFinished rec.statement.toList) :
    Piece.tokens r.createScript.toList =
      r.executed.flatMap fun statement => Piece.tokens statement.toList := by
  have halone : ∀ line ∈ r.createScriptLines.map String.toList, Piece.StandsAlone line :=
    List.forall_mem_map.mpr fun line h => standsAlone_of_mem_createScriptLines hline hfinished h
  rw [toList_createScript, Piece.tokens_lines halone, List.flatMap_map,
    ← flatMap_tokens_withoutRemarks, withoutRemarks_createScriptLines r hline,
    flatMap_tokens_withoutRemarks]

/-- **A script executes the recommended statements** and nothing else, if the texts that its remarks
repeat have no line breaks and nothing is open at the end of a statement: its tokens are those of
`BEGIN;`, of each statement in order and of `COMMIT;`, or of the statements alone where they cannot
be rolled back. If parentheses match in each statement, the tokens have the same depths, too. -/
theorem script_executes_statements (r : Report)
    (hline : ∀ rec ∈ r.recommendations, ∀ s ∈ repeated rec, '\n' ∉ s.toList)
    (hfinished : ∀ rec ∈ r.recommendations, Piece.IsFinished rec.statement.toList) :
    (tokenize r.createScript).map Token.spelling =
        r.executed.flatMap (fun statement => (tokenize statement).map Token.spelling) ∧
      ((∀ rec ∈ r.recommendations, Token.IsBalanced (Piece.ofText rec.statement.toList)) →
        (tokenize r.createScript).map Token.lexeme =
          r.executed.flatMap fun statement => (tokenize statement).map Token.lexeme) := by
  have htokens := tokens_createScript hline hfinished
  refine ⟨?_, fun hbalanced => ?_⟩
  · rw [tokenize, Token.spellings_locate, ← Piece.tokens, htokens, List.filterMap_flatMap]
    exact List.flatMap_congr fun s _ => (Token.spellings_locate 0 0 _).symm
  · have hexecuted : ∀ text ∈ r.executed.map String.toList, Token.IsBalanced (Piece.ofText text) :=
      List.forall_mem_map.mpr <| forall_mem_executed
        (P := fun s => Token.IsBalanced (Piece.ofText s.toList)) (by decide) (by decide) hbalanced
    have hlexemes := Token.lexemes_flatMap hexecuted 0
    rw [List.flatMap_map, List.flatMap_map] at hlexemes
    rw [tokenize, Token.lexemes_locate_filter 0 0, ← Piece.tokens, htokens, hlexemes]
    rfl

/-- A search in one table, with a constant. -/
theorem openTickets_executed :
    let r := searchReport "status = 'open -- or not' AND id = 7" ["id", "status"]
    r.executed.length = 3 ∧ (tokenize r.createScript).map Token.lexeme =
      r.executed.flatMap fun statement => (tokenize statement).map Token.lexeme := by
  intro r
  obtain ⟨hlength, hline, hfinished, hbalanced⟩ : r.executed.length = 3 ∧
      (∀ rec ∈ r.recommendations, ∀ s ∈ repeated rec, '\n' ∉ s.toList) ∧
      (∀ rec ∈ r.recommendations, Piece.IsFinished rec.statement.toList) ∧
      ∀ rec ∈ r.recommendations, Token.IsBalanced (Piece.ofText rec.statement.toList) := by
    decide +kernel
  exact ⟨hlength, (script_executes_statements r hline hfinished).2 hbalanced⟩

/-- **A joined table brings a statement along.** The remark repeats its name, and what stands after
the line break in the name is no comment. -/
theorem joinedName_drops_table :
    let r := searchReport "JOIN \"\nDROP TABLE T;\" USING (id)" ["id"]
    r.executed = ["BEGIN;", "CREATE INDEX idx_T_id ON T (id);", "COMMIT;"] ∧
      "DROP" ∈ (tokenize r.createScript).map (·.text) ∧
      (tokenize r.createScript).map Token.spelling ≠
        r.executed.flatMap fun statement => (tokenize statement).map Token.spelling := by
  intro r
  have hexecuted : r.executed = ["BEGIN;", "CREATE INDEX idx_T_id ON T (id);", "COMMIT;"] := by
    decide +kernel
  have hdrop : "DROP" ∈ (tokenize r.createScript).map (·.text) := by
    rw [tokenize, toList_createScript]
    decide +kernel
  refine ⟨hexecuted, hdrop, fun hsame => ?_⟩
  have htexts := congrArg (List.map Prod.snd) hsame
  rw [hexecuted, List.map_map] at htexts
  exact absurd (htexts ▸ hdrop) (by decide +kernel)

/-- **A constant that is not closed** takes up the end of the transaction. -/
theorem unclosedConstant_takes_commit :
    let r := searchReport "id = 'x" ["id"]
    r.executed.getLast? = some "COMMIT;" ∧
      "COMMIT" ∉ (tokenize r.createScript).map (·.text) := by
  intro r
  rw [tokenize, toList_createScript]
  decide +kernel

end Report

end IndexAdvice
