import IndexAdvice.Proofs.CheckedSpans
import IndexAdvice.Proofs.JoinConditions
import IndexAdvice.Proofs.WhereFragments

/-!
# Statements that join two tables

A `JoinStatement` selects from one table joined to another on an equality of a column of each, with
or without more conditions after it. Its text is a list of words, so the tokens of any text with
these words, whatever the layout, spell them one by one (`JoinStatement.exists_tokens`). From there
the statement is read back step by step: it is divided into its select list, its first table and its
join (`JoinStatement.Tokens.divide_all`), the mention of a table is read as its name and its alias,
and the equality is the first part of the join's condition
(`JoinStatement.Tokens.conjuncts_condition`).
-/

namespace IndexAdvice

open Text Token

/-! ### Statements -/

/-- A word that is none of the keywords. -/
structure PlainName where
  word : Word
  kind_eq : word.kind = .word
  free : upper (String.ofList word.text) ∉ Keyword.all

/-- The spelling of a name. -/
def PlainName.spelling (name : PlainName) : String :=
  String.ofList name.word.text

/-- What a joined table brings in: the table, its alias if it has one, with or without `AS`, and the
column that it is joined by, qualified by the name or the alias of the table. -/
structure JoinSide where
  table : PlainName
  short : Option PlainName
  withAs : Bool
  qualifier : PlainName
  column : PlainName
  qualified : lower qualifier.spelling ∈
    (table :: short.toList).map fun name => lower name.spelling

namespace Word

/-- The word before an alias. -/
def asWord : Word := ⟨.word, ['A', 'S'], by decide⟩

/-- The word before a joined table. -/
def joinWord : Word := ⟨.word, ['J', 'O', 'I', 'N'], by decide⟩

/-- The word before the condition of a join. -/
def onWord : Word := ⟨.word, ['O', 'N'], by decide⟩

/-- The point between a qualifier and a name. -/
def dotWord : Word := ⟨.dot, ['.'], by decide⟩

theorem whole_equals : Piece.ofText (['='] ++ [' ']) = [⟨some .operator, ['=']⟩, Piece.space] := by
  decide

/-- The sign between the sides of an equality. -/
def equalsWord : Word := ⟨.operator, ['='], whole_equals⟩

theorem text_ne_nil (w : Word) : w.text ≠ [] := by
  have hmem : w.piece ∈ Piece.ofText (w.text ++ [' ']) := by
    rw [w.whole]
    exact List.mem_cons_self
  exact Piece.text_ne_nil_of_mem_cut hmem

theorem isPlain_of_kind {w : Word} (h : w.kind = .word) : w.IsPlain := by
  simp [IsPlain, h]

/-- Words as tokens, with nothing between them. -/
def tokens (ws : List Word) : List Token :=
  locate 0 0 (ws.map piece)

end Word

namespace JoinSide

variable (side : JoinSide)

/-- The alias, after `AS` or not. -/
def shortWords : List Word :=
  match side.short with
  | none => []
  | some short => if side.withAs then [.asWord, short.word] else [short.word]

/-- The words that name the table. -/
def mention : List Word :=
  side.table.word :: side.shortWords

/-- The words that refer to the column. -/
def reference : List Word :=
  [side.qualifier.word, .dotWord, side.column.word]

end JoinSide

/-- A statement that selects from two tables. -/
structure JoinStatement where
  first : JoinSide
  second : JoinSide
  /-- The words that say what kind of join it is. -/
  modifiers : List Word
  areModifiers : ∀ w ∈ modifiers, w.kind = .word ∧
    upper (String.ofList w.text) ∈ Keyword.joinModifier
  /-- What stands after the equality: nothing, or `AND` and more conditions. -/
  more : List Word
  startsAnd : ∀ w ∈ more.head?, w = .conj
  unended : ∀ w ∈ more, w.kind ≠ .semicolon
  /-- Nothing after the equality ends the condition. -/
  continued : Span.continuation none (Word.tokens more) = Word.tokens more

namespace JoinStatement

/-- The statement with its tables exchanged. -/
def swap (st : JoinStatement) : JoinStatement :=
  { st with first := st.second, second := st.first }

/-- The words of the equality, that of the second table first if it is flipped. -/
def equality (st : JoinStatement) (flipped : Bool) : List Word :=
  if flipped then st.second.reference ++ .equalsWord :: st.first.reference
  else st.first.reference ++ .equalsWord :: st.second.reference

/-- The words of the statement. -/
def words (st : JoinStatement) (flipped : Bool) : List Word :=
  [.selectWord, .starWord, .fromWord] ++ (st.first.mention ++ (st.modifiers ++ ([.joinWord] ++
    (st.second.mention ++ ([.onWord] ++ (st.equality flipped ++ st.more))))))

/-- Whether a text has the words of the statement, in any layout. -/
def IsWrittenAs (st : JoinStatement) (flipped : Bool) (sql : String) : Prop :=
  respaced sql = String.ofList (Word.print (st.words flipped))

end JoinStatement

/-! ### The tokens of words -/

namespace Token

variable {w : Word} {ws vs : List Word} {t : Token} {ts : List Token} {keywords : List String}

/-- Whether a token outside parentheses is a word. -/
structure Spells (w : Word) (t : Token) : Prop where
  kind : t.kind = w.kind
  text : t.text = String.ofList w.text
  depth : t.depth = 0

/-- Whether a token is a keyword is told by its spelling alone. -/
theorem Spells.isKeyword (h : Spells w t) (hw : w.kind = .word) (keywords : List String) :
    t.isKeyword keywords = keywords.contains (Text.upper (String.ofList w.text)) := by
  rw [Token.isKeyword, h.kind, hw, Token.upper, h.text]
  rfl

theorem Spells.upper (h : Spells w t) : t.upper = Text.upper (String.ofList w.text) := by
  rw [Token.upper, h.text]

theorem Spells.isKeyword_eq_false (h : Spells w t)
    (hfree : Text.upper (String.ofList w.text) ∉ keywords) : t.isKeyword keywords = false := by
  rw [Token.isKeyword, h.upper, Bool.and_eq_false_iff, Bool.eq_false_iff (b := List.contains _ _),
    ne_eq, List.contains_iff_mem]
  exact .inr hfree

/-- Tokens that are those of words up to their places spell the plain words in front. -/
theorem exists_spelled (hws : ∀ w ∈ ws, w.IsPlain)
    (h : ts.map lexeme = (Word.tokens (ws ++ vs)).map lexeme) :
    ∃ front rest, ts = front ++ rest ∧ List.Forall₂ Spells ws front ∧
      rest.map lexeme = (Word.tokens vs).map lexeme := by
  induction ws generalizing ts with
  | nil => exact ⟨[], ts, rfl, .nil, h⟩
  | cons w ws ih =>
    obtain ⟨hw, hws⟩ := List.forall_mem_cons.mp hws
    have hdepth : depthAfter 0 w.kind = 0 := by
      obtain ⟨hl, hr, -⟩ := hw
      unfold depthAfter
      split <;> first | rfl | contradiction
    -- a plain word leaves the depth at zero, where the words after it are located anew
    have hcut : (Word.tokens (w :: ws ++ vs)).map lexeme =
        (w.kind, String.ofList w.text, 0) :: (Word.tokens (ws ++ vs)).map lexeme := by
      rw [Word.tokens, List.cons_append, List.map_cons, Word.piece, locate_some, hdepth,
        List.map_cons, lexemes_locate_filter _ 0, ← lexemes_locate_filter 0 0, ← Word.tokens]
      congr 1
      simp [lexeme, ofPiece, hw.2.1]
    rw [hcut] at h
    obtain ⟨t, rest, rfl, ht, hrest⟩ := List.map_eq_cons_iff.mp h
    obtain ⟨front, rest, rfl, hfront, hrest⟩ := ih hws hrest
    simp only [lexeme, Prod.mk.injEq] at ht
    exact ⟨t :: front, rest, rfl, .cons ⟨ht.1, ht.2.1, ht.2.2⟩ hfront, hrest⟩

/-- The tokens of a text are those of the words that it is written as. -/
theorem lexemes_tokenize_of_respaced {sql : String}
    (h : respaced sql = String.ofList (Word.print ws)) :
    (tokenize sql).map lexeme = (Word.tokens ws).map lexeme := by
  have hself : (ws.map Word.piece).filter Piece.isToken = ws.map Word.piece :=
    List.filter_eq_self.mpr fun p hp => by
      obtain ⟨w, -, rfl⟩ := List.mem_map.mp hp
      rfl
  have hfilter : (Word.pieces ws).filter Piece.isToken = ws.map Word.piece := by
    have hspaced := Piece.filter_spaced (ws.map Word.piece)
    rwa [Piece.spaced, hself] at hspaced
  rw [← lexemes_respaced, h, tokenize, String.toList_ofList, ← Word.texts_pieces,
    (Piece.IsCut.words ws).ofText_texts, lexemes_locate_filter 0 0, hfilter, Word.tokens]

end Token

theorem exists_word_of_mem_tokens (h : t ∈ Word.tokens ws) : ∃ w ∈ ws, w.kind = t.kind := by
  obtain ⟨p, hp, hkind, -⟩ := exists_piece_of_mem_locate h
  obtain ⟨w, hw, rfl⟩ := List.mem_map.mp hp
  exact ⟨w, hw, Option.some.inj hkind⟩

/-- The tokens of a text that is written as a statement. -/
structure JoinStatement.Tokens (st : JoinStatement) (flipped : Bool) where
  select : Token
  star : Token
  from_ : Token
  first : List Token
  modifiers : List Token
  join : Token
  second : List Token
  on : Token
  equality : List Token
  more : List Token
  spells_select : Spells .selectWord select
  spells_star : Spells .starWord star
  spells_from : Spells .fromWord from_
  spells_first : List.Forall₂ Spells st.first.mention first
  spells_modifiers : List.Forall₂ Spells st.modifiers modifiers
  spells_join : Spells .joinWord join
  spells_second : List.Forall₂ Spells st.second.mention second
  spells_on : Spells .onWord on
  spells_equality : List.Forall₂ Spells (st.equality flipped) equality
  lexemes_more : more.map lexeme = (Word.tokens st.more).map lexeme

section Plain

variable {side : JoinSide} {w : Word}

theorem JoinSide.kind_of_mem_mention (h : w ∈ side.mention) : w.kind = .word := by
  rcases List.mem_cons.mp h with rfl | h
  · exact side.table.kind_eq
  · rw [JoinSide.shortWords] at h
    split at h
    · simp at h
    · rename_i short _
      split at h
      · rcases List.mem_pair.mp h with rfl | rfl
        · rfl
        · exact short.kind_eq
      · rw [List.mem_singleton.mp h]
        exact short.kind_eq

theorem JoinSide.isPlain_mention (h : w ∈ side.mention) : w.IsPlain :=
  Word.isPlain_of_kind (JoinSide.kind_of_mem_mention h)

theorem JoinSide.isPlain_reference (h : w ∈ side.reference) : w.IsPlain := by
  simp only [JoinSide.reference, List.mem_cons, List.not_mem_nil, or_false] at h
  rcases h with rfl | rfl | rfl
  · exact Word.isPlain_of_kind side.qualifier.kind_eq
  · decide
  · exact Word.isPlain_of_kind side.column.kind_eq

theorem JoinStatement.isPlain_equality {st : JoinStatement} {flipped : Bool}
    (h : w ∈ st.equality flipped) : w.IsPlain := by
  have hsides {a b : JoinSide} (h : w ∈ a.reference ++ Word.equalsWord :: b.reference) :
      w.IsPlain := by
    rcases List.mem_append.mp h with h | h
    · exact JoinSide.isPlain_reference h
    · rcases List.mem_cons.mp h with rfl | h
      · decide
      · exact JoinSide.isPlain_reference h
  rw [JoinStatement.equality] at h
  split at h <;> exact hsides h

/-- The statement has no semicolon that could be dropped from its end. -/
theorem JoinStatement.kind_ne_semicolon {st : JoinStatement} {flipped : Bool}
    (h : w ∈ st.words flipped) : w.kind ≠ .semicolon := by
  simp only [JoinStatement.words, List.mem_append] at h
  rcases h with h | h | h | h | h | h | h | h
  · exact (show ∀ w ∈ [Word.selectWord, .starWord, .fromWord], w.kind ≠ .semicolon by decide) w h
  · exact (JoinSide.isPlain_mention h).2.2
  · simp [(st.areModifiers w h).1]
  · rw [List.mem_singleton.mp h]
    decide
  · exact (JoinSide.isPlain_mention h).2.2
  · rw [List.mem_singleton.mp h]
    decide
  · exact (JoinStatement.isPlain_equality h).2.2
  · exact st.unended w h

end Plain

namespace JoinStatement

variable {st : JoinStatement} {flipped : Bool} {sql : String}

/-- The tokens of the text, in the order of the text. -/
def Tokens.all (x : st.Tokens flipped) : List Token :=
  x.select :: x.star :: x.from_ :: (x.first ++ (x.modifiers ++ x.join ::
    (x.second ++ x.on :: (x.equality ++ x.more))))

/-- **The tokens of a statement** in any layout spell its words. -/
theorem exists_tokens (h : st.IsWrittenAs flipped sql) :
    ∃ x : st.Tokens flipped, statementTokens sql = x.all := by
  have hlexemes := lexemes_tokenize_of_respaced h
  have hfront : ∀ w ∈ [Word.selectWord, .starWord, .fromWord], w.IsPlain := by decide
  -- from left to right, up to the further conditions, which need not be plain
  obtain ⟨_, _, htokens, hhead, h₁⟩ := exists_spelled hfront hlexemes
  obtain ⟨first, _, rfl, hfirst, h₂⟩ := exists_spelled (fun w => JoinSide.isPlain_mention) h₁
  obtain ⟨modifiers, _, rfl, hmodifiers, h₃⟩ :=
    exists_spelled (fun w hw => Word.isPlain_of_kind (st.areModifiers w hw).1) h₂
  obtain ⟨_, _, rfl, hjoin, h₄⟩ := exists_spelled (by decide) h₃
  obtain ⟨second, _, rfl, hsecond, h₅⟩ := exists_spelled (fun w => JoinSide.isPlain_mention) h₄
  obtain ⟨_, _, rfl, hon, h₆⟩ := exists_spelled (by decide) h₅
  obtain ⟨equality, more, rfl, hequality, hmore⟩ := exists_spelled (fun w => isPlain_equality) h₆
  obtain _ | ⟨hselect, _ | ⟨hstar, _ | ⟨hfrom, _ | -⟩⟩⟩ := hhead
  obtain _ | ⟨hjoin, _ | -⟩ := hjoin
  obtain _ | ⟨hon, _ | -⟩ := hon
  let x : st.Tokens flipped := ⟨_, _, _, first, modifiers, _, second, _, equality, more, hselect,
    hstar, hfrom, hfirst, hmodifiers, hjoin, hsecond, hon, hequality, hmore⟩
  refine ⟨x, ?_⟩
  rw [statementTokens_eq_self]
  · exact htokens
  · intro t ht
    have hmem : lexeme t ∈ (Word.tokens (st.words flipped)).map lexeme :=
      hlexemes ▸ List.mem_map_of_mem ht
    obtain ⟨u, hu, hlexeme⟩ := List.mem_map.mp hmem
    obtain ⟨w, hw, hkind⟩ := exists_word_of_mem_tokens hu
    have hsame : u.kind = t.kind := congrArg Prod.fst hlexeme
    rw [← hsame, ← hkind]
    exact kind_ne_semicolon hw

end JoinStatement

/-! ### The division of a statement -/

namespace Span

variable {R : Nat → Nat → Prop} {keyword : String} {before before' : Option Token} {t j : Token}
  {held front rest ts ts' : List Token}

/-- Tokens that all go on the open span divide nothing. -/
theorem divideFrom_of_continuation (h : continuation before ts = ts) (held : List Token) :
    divideFrom keyword .body before held ts = [⟨keyword, held.reverse ++ ts⟩] := by
  induction ts generalizing before held with
  | nil => rw [divideFrom, List.append_nil]
  | cons t rest ih =>
    rw [continuation] at h
    split at h
    · rename_i hnothing
      rw [divideFrom, hnothing]
      simp only
      rw [ih (List.cons.inj h).2, List.reverse_cons, List.append_assoc, List.singleton_append]
    · cases h

/-- Whether tokens go on the open span depends on what they say. -/
theorem continuation_of_twins (h : List.Forall₂ (Twin R) ts ts')
    (hbefore : before.any (·.isKeyword ["DISTINCT"]) = before'.any (·.isKeyword ["DISTINCT"]))
    (hcontinued : continuation before ts = ts) : continuation before' ts' = ts' := by
  induction h generalizing before before' with
  | nil => rfl
  | @cons t t' ts ts' ht hts ih =>
    rw [continuation] at hcontinued
    split at hcontinued
    · rename_i hnothing
      have halike : Alike R (fun _ => False) (fun _ => False) .plain (t :: ts) (t' :: ts') :=
        .of_forall₂ (.cons ht hts)
      have hopening : opening before t ts = opening before' t' ts' :=
        opening_of_alike halike hbefore
      rw [continuation, if_pos (hopening ▸ hnothing), ih ?_ (List.cons.inj hcontinued).2]
      rw [Option.any_some, Option.any_some, ht.isKeyword]
    · cases hcontinued

/-- The modifiers before `JOIN` open its span together with it. -/
theorem divideFrom_join
    (hfront : ∀ t ∈ front, t.depth = 0 ∧ t.isKeyword Keyword.joinModifier = true)
    (hdepth : j.depth = 0) (hj : j.isKeyword ["JOIN"] = true) (held rest : List Token) :
    divideFrom keyword .body before held (front ++ j :: rest) =
      ⟨keyword, held.reverse⟩ :: divideFrom "JOIN" .body (some j) (j :: front.reverse) rest := by
  have hstarts (front : List Token)
      (hfront : ∀ t ∈ front, t.depth = 0 ∧ t.isKeyword Keyword.joinModifier = true) :
      startsJoin (front ++ j :: rest) = true := by
    induction front with
    | nil => exact (startsJoin_iff _ _).mpr (.inl hj)
    | cons t front ih =>
      obtain ⟨ht, hfront⟩ := List.forall_mem_cons.mp hfront
      exact (startsJoin_iff _ _).mpr (.inr ⟨ht.1, ht.2, ih hfront⟩)
  have hopens := hstarts front hfront
  -- the join is opened by its first modifier, or by JOIN if it has none
  cases front with
  | nil =>
    rw [List.nil_append] at hopens ⊢
    rw [divideFrom, opening_join hdepth hopens]
    simp only [afterJoinHead, hj, if_true]
    rfl
  | cons t front =>
    obtain ⟨ht, hfront⟩ := List.forall_mem_cons.mp hfront
    have hphase : afterJoinHead t = .joinHead := by
      rw [afterJoinHead, not_isKeyword_join ht.2]
      rfl
    rw [List.cons_append] at hopens ⊢
    rw [divideFrom, opening_join ht.1 hopens]
    simp only [hphase]
    rw [Checked.divideFrom_joinHead (fun u hu => not_isKeyword_join (hfront u hu).2) hj,
      List.reverse_cons]

end Span

section Spelled

variable {side : JoinSide} {w : Word} {ws : List Word} {t : Token} {ts : List Token}
  {keywords : List String}

theorem exists_word_of_spelled (h : List.Forall₂ Spells ws ts) (ht : t ∈ ts) :
    ∃ w ∈ ws, Spells w t := by
  induction h with
  | nil => exact absurd ht List.not_mem_nil
  | cons hw _ ih =>
    rcases List.mem_cons.mp ht with rfl | ht
    · exact ⟨_, List.mem_cons_self, hw⟩
    · obtain ⟨w, hw, hspells⟩ := ih ht
      exact ⟨w, List.mem_cons_of_mem _ hw, hspells⟩

namespace PlainName

variable {name : PlainName}

/-- A plain name is no keyword of any kind. -/
theorem isKeyword_eq_false (h : Spells name.word t) (hsub : keywords ⊆ Keyword.all) :
    t.isKeyword keywords = false :=
  h.isKeyword_eq_false fun hmem => name.free (hsub hmem)

theorem name_eq (h : Spells name.word t) : t.name = name.spelling := by
  have hkind : t.kind = .word := h.kind.trans name.kind_eq
  rw [Token.name, hkind]
  exact h.text

theorem isIdentifier (h : Spells name.word t) : t.isIdentifier = true := by
  simp [Token.isIdentifier, h.kind, name.kind_eq]

end PlainName

/-- The words of a mention are no keywords, `AS` aside. -/
theorem JoinSide.free_mention (h : w ∈ side.mention) (hsub : keywords ⊆ Keyword.all)
    (has : "AS" ∉ keywords) : upper (String.ofList w.text) ∉ keywords := by
  have hname (name : PlainName) : upper (String.ofList name.word.text) ∉ keywords :=
    fun hmem => name.free (hsub hmem)
  rcases List.mem_cons.mp h with rfl | h
  · exact hname side.table
  · rw [JoinSide.shortWords] at h
    split at h
    · simp at h
    · rename_i short _
      split at h
      · rcases List.mem_pair.mp h with rfl | rfl
        · exact has
        · exact hname short
      · rw [List.mem_singleton.mp h]
        exact hname short

/-- The words of a reference are no keywords. -/
theorem JoinSide.free_reference (h : w ∈ side.reference) (hsub : keywords ⊆ Keyword.all) :
    upper (String.ofList w.text) ∉ keywords := by
  refine fun hmem => absurd (hsub hmem) ?_
  simp only [JoinSide.reference, List.mem_cons, List.not_mem_nil, or_false] at h
  rcases h with rfl | rfl | rfl
  · exact side.qualifier.free
  · decide
  · exact side.column.free

/-- No keyword stands in an equality. -/
theorem JoinStatement.free_equality {st : JoinStatement} {flipped : Bool}
    (h : w ∈ st.equality flipped) (hsub : keywords ⊆ Keyword.all) :
    upper (String.ofList w.text) ∉ keywords := by
  have hsides {a b : JoinSide} (h : w ∈ a.reference ++ Word.equalsWord :: b.reference) :
      upper (String.ofList w.text) ∉ keywords := by
    rcases List.mem_append.mp h with h | h
    · exact JoinSide.free_reference h hsub
    · rcases List.mem_cons.mp h with rfl | h
      · exact fun hmem => absurd (hsub hmem) (by decide)
      · exact JoinSide.free_reference h hsub
  rw [JoinStatement.equality] at h
  split at h <;> exact hsides h

end Spelled

namespace JoinStatement.Tokens

variable {st : JoinStatement} {flipped : Bool} (x : st.Tokens flipped)

/-- The tokens after `ON`. -/
def condition : List Token :=
  x.equality ++ x.more

/-- The tokens after `JOIN`. -/
def joined : List Token :=
  x.second ++ x.on :: x.condition

/-- The only keyword in what is said of the second table is AS. -/
theorem isKeyword_second {t : Token} (ht : t ∈ x.second) {keywords : List String}
    (hsub : keywords ⊆ Keyword.all) (has : "AS" ∉ keywords) : t.isKeyword keywords = false := by
  obtain ⟨w, hw, hspells⟩ := exists_word_of_spelled x.spells_second ht
  exact hspells.isKeyword_eq_false (JoinSide.free_mention hw hsub has)

theorem isKeyword_on (keywords : List String) :
    x.on.isKeyword keywords = keywords.contains "ON" := by
  rw [x.spells_on.isKeyword rfl]
  rfl

/-- What stands after the equality is nothing, or `AND` and more. -/
theorem more_cases : x.more = [] ∨ ∃ conj rest, x.more = conj :: rest ∧ Spells .conj conj := by
  have hmore := x.lexemes_more
  cases hwords : st.more with
  | nil =>
    rw [hwords] at hmore
    exact .inl (List.map_eq_nil_iff.mp hmore)
  | cons w ws =>
    obtain rfl : w = .conj := st.startsAnd w (by rw [hwords]; rfl)
    rw [hwords] at hmore
    have hplain : ∀ w ∈ [Word.conj], w.IsPlain := by decide
    obtain ⟨_, rest, hrest, hconj, -⟩ := exists_spelled hplain hmore
    obtain _ | ⟨hconj, _ | -⟩ := hconj
    exact .inr ⟨_, rest, hrest, hconj⟩

/-- What stands after the equality goes on the condition. -/
theorem continuation_more (h : Consecutive x.more) (before : Option Token) :
    Span.continuation before x.more = x.more := by
  have hwords : Consecutive (Word.tokens st.more) := by
    refine consecutive_locate fun p hp => ?_
    obtain ⟨w, -, rfl⟩ := List.mem_map.mp hp
    exact w.text_ne_nil
  have hcontinued : Span.continuation none x.more = x.more :=
    Span.continuation_of_twins (twins_of_lexemes hwords h x.lexemes_more.symm) rfl st.continued
  -- the token before matters to `FROM` alone, and `AND` stands first
  rcases x.more_cases with hnil | ⟨conj, rest, hrest, hconj⟩
  · rw [hnil]
    rfl
  · have hnothing (before : Option Token) : Span.opening before conj rest = .nothing := by
      refine Span.opening_eq_nothing_of_not_mem ?_ before rest
      rw [hconj.upper]
      decide
    rw [hrest, Span.continuation, if_pos (hnothing none)] at hcontinued
    rw [hrest, Span.continuation, if_pos (hnothing before)]
    exact hcontinued

/-- **The division.** The statement is its select list, its first table and its join. -/
theorem divide_all (h : Consecutive x.all) : Span.divide x.all =
    [⟨"SELECT", [x.star]⟩, ⟨"FROM", x.first⟩, ⟨"JOIN", x.modifiers ++ x.join :: x.joined⟩] := by
  have hselect : x.select.isKeyword ("WHERE" :: Keyword.statement) = true := by
    rw [x.spells_select.isKeyword rfl]
    decide
  have hupper : x.select.upper = "SELECT" := by
    rw [Token.upper, x.spells_select.text]
    decide
  have hstar : x.star.kind ≠ .word := by
    rw [x.spells_star.kind]
    decide
  have hfrom : x.from_.isKeyword ["FROM"] = true := by
    rw [x.spells_from.isKeyword rfl]
    decide
  have hfirst (t : Token) (ht : t ∈ x.first) (before : Option Token) (rest : List Token) :
      Span.opening before t rest = .nothing := by
    obtain ⟨w, hw, hspells⟩ := exists_word_of_spelled x.spells_first ht
    refine Span.opening_eq_nothing_of_not_mem ?_ before rest
    rw [Token.upper, hspells.text]
    exact JoinSide.free_mention hw (by decide) (by decide)
  have hmodifiers (t : Token) (ht : t ∈ x.modifiers) :
      t.depth = 0 ∧ t.isKeyword Keyword.joinModifier = true := by
    obtain ⟨w, hw, hspells⟩ := exists_word_of_spelled x.spells_modifiers ht
    obtain ⟨hkind, hmem⟩ := st.areModifiers w hw
    exact ⟨hspells.depth, by rw [hspells.isKeyword hkind, List.contains_iff_mem]; exact hmem⟩
  have hjoin : x.join.isKeyword ["JOIN"] = true := by
    rw [x.spells_join.isKeyword rfl]
    decide
  -- up to the further conditions nothing after `JOIN` opens a clause, nor do they
  have hjoined (t : Token) (ht : t ∈ x.second ++ x.on :: x.equality) (before : Option Token)
      (rest : List Token) : Span.opening before t rest = .nothing := by
    refine Span.opening_eq_nothing_of_not_mem ?_ before rest
    rcases List.mem_append.mp ht with ht | ht
    · obtain ⟨w, hw, hspells⟩ := exists_word_of_spelled x.spells_second ht
      rw [hspells.upper]
      exact JoinSide.free_mention hw (by decide) (by decide)
    · rcases List.mem_cons.mp ht with rfl | ht
      · rw [x.spells_on.upper]
        decide
      · obtain ⟨w, hw, hspells⟩ := exists_word_of_spelled x.spells_equality ht
        rw [hspells.upper]
        exact free_equality hw (by decide)
  have hmore : Consecutive x.more := by
    refine h.sublist (List.IsSuffix.sublist ⟨x.select :: x.star :: x.from_ :: (x.first ++
      (x.modifiers ++ x.join :: (x.second ++ x.on :: x.equality))), ?_⟩)
    simp [all]
  have hall : x.all = x.select :: x.star :: x.from_ ::
      (x.first ++ (x.modifiers ++ x.join :: ((x.second ++ x.on :: x.equality) ++ x.more))) := by
    simp [all]
  rw [hall, Span.divide, if_pos hselect, hupper, Span.divideFrom,
    Span.opening_eq_nothing_of_ne (.inr hstar)]
  simp only
  rw [Span.divideFrom, Span.opening_from x.spells_from.depth hfrom
    (by simp [isKeyword_eq_false hstar])]
  simp only
  rw [Span.divideFrom_append_of_nothing hfirst, Span.divideFrom_join hmodifiers x.spells_join.depth
    hjoin, Span.divideFrom_append_of_nothing hjoined,
    Span.divideFrom_of_continuation (x.continuation_more hmore _)]
  simp [joined, condition]

end JoinStatement.Tokens

/-! ### Reading a statement -/

/-- The reference to the column of a side. -/
def JoinSide.ref (side : JoinSide) : ColumnRef :=
  ⟨some side.qualifier.spelling, side.column.spelling⟩

/-- The table of a side, with its alias. -/
def JoinSide.named (side : JoinSide) : String × Option String :=
  (side.table.spelling, side.short.map PlainName.spelling)

section Reading

variable {side : JoinSide} {t : Token} {ts rest : List Token}

/-- A reference ends where no dot comes. -/
theorem dottedNames_eq_self (h : ∀ t ∈ ts.head?, t.kind ≠ .dot) :
    ColumnRef.dottedNames ts = ([], ts) := by
  cases ts with
  | nil => rfl
  | cons t ts => exact Comparison.dottedNames_of_kind (h t rfl) ts

/-- A printed reference is read back, provided that no further name is joined on. -/
theorem read?_reference (h : List.Forall₂ Spells side.reference ts)
    (hrest : ∀ u ∈ rest.head?, u.kind ≠ .dot) :
    ColumnRef.read? (ts ++ rest) = some (side.ref, rest) := by
  obtain _ | ⟨hqualifier, _ | ⟨hdot, _ | ⟨hcolumn, _ | -⟩⟩⟩ := h
  have hkind := hdot.kind
  simp [ColumnRef.read?, ColumnRef.dottedNames, hkind, Word.dotWord, dottedNames_eq_self hrest,
    PlainName.isIdentifier hcolumn, PlainName.isIdentifier hqualifier, PlainName.name_eq hcolumn,
    PlainName.name_eq hqualifier, ColumnRef.ofNames, JoinSide.ref]

/-- What may stand after the mention of a table. -/
def EndsMention (rest : List Token) : Prop :=
  ∀ u ∈ rest.head?, u.isKeyword Keyword.reserved = true ∧ u.isKeyword ["AS"] = false

/-- The alias of a table is read up to the next keyword. -/
theorem aliasAt?_shortWords (h : List.Forall₂ Spells side.shortWords ts)
    (hrest : EndsMention rest) : aliasAt? (ts ++ rest) = side.short.map PlainName.spelling := by
  have hname {name : PlainName} {t : Token} (h : Spells name.word t) :
      (t.isIdentifier && !t.isKeyword Keyword.reserved) = true ∧ t.isKeyword ["AS"] = false := by
    simp [PlainName.isKeyword_eq_false h (show ["AS"] ⊆ Keyword.all by decide),
      PlainName.isKeyword_eq_false h (show Keyword.reserved ⊆ Keyword.all by decide),
      PlainName.isIdentifier h]
  rw [JoinSide.shortWords] at h
  -- no alias, an alias after AS or one by itself
  cases hshort : side.short with
  | none =>
    rw [hshort] at h
    obtain rfl := List.forall₂_nil_left_iff.mp h
    cases rest with
    | nil => rfl
    | cons u rest =>
      obtain ⟨hreserved, has⟩ := hrest u rfl
      simp [aliasAt?, hreserved, has]
  | some short =>
    rw [hshort] at h
    cases hwith : side.withAs with
    | true =>
      simp only [hwith, if_true] at h
      obtain _ | ⟨has, _ | ⟨hword, _ | -⟩⟩ := h
      have hkey : isKeyword _ ["AS"] = true := has.isKeyword rfl ["AS"]
      simp [aliasAt?, hkey, (hname hword).1, PlainName.name_eq hword]
    | false =>
      simp only [hwith] at h
      obtain _ | ⟨hword, _ | -⟩ := h
      simp [aliasAt?, (hname hword).1, (hname hword).2, PlainName.name_eq hword]

/-- The mention of a table is read as its name and its alias. -/
theorem exists_read?_mention (h : List.Forall₂ Spells side.mention ts) (hrest : EndsMention rest) :
    ∃ after ⊆ ts, ColumnRef.read? (ts ++ rest) = some (⟨none, side.named.1⟩, after ++ rest) ∧
      aliasAt? (after ++ rest) = side.named.2 := by
  obtain _ | ⟨hname, hshort⟩ := h
  rename_i t after
  refine ⟨after, List.subset_cons_self t after, ?_, aliasAt?_shortWords hshort hrest⟩
  have hdot : ∀ u ∈ (after ++ rest).head?, u.kind ≠ .dot := by
    intro u hu
    have hword : u.kind = .word := by
      cases after with
      | nil =>
        have hkey := (hrest u hu).1
        rw [isKeyword, Bool.and_eq_true] at hkey
        exact beq_iff_eq.mp hkey.1
      | cons v after =>
        obtain ⟨w, hw, hspells⟩ := exists_word_of_spelled hshort List.mem_cons_self
        obtain rfl := Option.some.inj hu
        rw [hspells.kind]
        exact JoinSide.kind_of_mem_mention (List.mem_cons_of_mem _ hw)
    rw [hword]
    decide
  rw [List.cons_append, ColumnRef.read?, dottedNames_eq_self hdot]
  simp [PlainName.isIdentifier hname, PlainName.name_eq hname, ColumnRef.ofNames,
    PlainName.isKeyword_eq_false hname (show Keyword.reserved ⊆ Keyword.all by decide),
    JoinSide.named]

/-- A mentioned table is read with its alias. What is left of the mention, if anything, is passed
over later. -/
theorem exists_readTable_mention (h : List.Forall₂ Spells side.mention ts)
    (hrest : EndsMention rest) :
    ∃ after ⊆ ts, JoinTarget.readTable (JoinTarget.skipKeyword "LATERAL" (ts ++ rest)) =
      (side.named.1, side.named.2, after ++ rest) := by
  obtain ⟨after, hsub, hread, hshort⟩ := exists_read?_mention h hrest
  refine ⟨after, hsub, ?_⟩
  obtain _ | ⟨hname, -⟩ := h
  have hlateral := PlainName.isKeyword_eq_false hname (show ["LATERAL"] ⊆ Keyword.all by decide)
  have hkind := hname.kind.trans side.table.kind_eq
  rw [List.cons_append] at hread ⊢
  simp [JoinTarget.readTable, JoinTarget.skipKeyword, hlateral, hkind, hread, hshort]

theorem equality?_references {a b : JoinSide}
    (h : List.Forall₂ Spells (a.reference ++ .equalsWord :: b.reference) ts) :
    JoinTarget.equality? ts = some (a.ref, b.ref) := by
  obtain _ | ⟨hqualifier, _ | ⟨hdot, _ | ⟨hcolumn, _ | ⟨hequals, hright⟩⟩⟩⟩ := h
  rename_i right
  have hleft := List.Forall₂.cons hqualifier (.cons hdot (.cons hcolumn .nil))
  have hsign : ∀ u ∈ (_ :: right).head?, u.kind ≠ .dot := fun u hu => by
    rw [← Option.some.inj hu, hequals.kind]
    decide
  have hwhole : ColumnRef.read? (right ++ []) = some (b.ref, []) :=
    read?_reference hright fun u hu => by simp at hu
  rw [List.append_nil] at hwhole
  have hread := read?_reference hleft hsign
  simp only [List.cons_append, List.nil_append] at hread
  rw [JoinTarget.equality?, hread]
  simp [hequals.text, Word.equalsWord, ColumnRef.whole?, hwhole]

end Reading

namespace JoinStatement

/-- The kind of join that the modifiers say. -/
def kind (st : JoinStatement) : JoinKind :=
  JoinTarget.kindOf (st.modifiers.map fun w => Text.upper (String.ofList w.text))

namespace Tokens

variable {st : JoinStatement} {flipped : Bool} (x : st.Tokens flipped)

/-- The first table is the only one listed. -/
theorem listedTables_first : listedTables x.first = [st.first.named] := by
  have hword {t : Token} (ht : t ∈ x.first) : t.kind = .word := by
    obtain ⟨w, hw, hspells⟩ := exists_word_of_spelled x.spells_first ht
    exact hspells.kind.trans (JoinSide.kind_of_mem_mention hw)
  have hne : x.first ≠ [] := fun hnil => by
    have hlength := x.spells_first.length_eq
    simp [hnil, JoinSide.mention] at hlength
  have hitems : items x.first = [x.first] :=
    (solid_of_forall_sep fun t ht _ => by simp [hword ht]).cutFrom_eq hne
  have hhead : x.first.head?.any (·.kind == .lparen) = false := by
    cases hfirst : x.first with
    | nil => rfl
    | cons t ts => simp [hword (hfirst ▸ List.mem_cons_self : t ∈ x.first)]
  obtain ⟨after, -, hread, hshort⟩ :=
    exists_read?_mention x.spells_first (show EndsMention [] from fun _ h => by simp at h)
  rw [List.append_nil] at hread hshort
  simp [listedTables, hitems, hhead, hread, hshort]

/-- The join is read as its kind, the second table, and what stands after `ON`. -/
theorem exists_ofSpan : ∃ position,
    JoinTarget.ofSpan (x.modifiers ++ x.join :: x.joined) =
      ⟨st.kind, st.second.named.1, st.second.named.2, x.condition, [], position⟩ := by
  have hmodifier {t : Token} (ht : t ∈ x.modifiers) : t.isKeyword ["JOIN"] = false := by
    obtain ⟨w, hw, hspells⟩ := exists_word_of_spelled x.spells_modifiers ht
    obtain ⟨hkind, hmem⟩ := st.areModifiers w hw
    refine Span.not_isKeyword_join ?_
    rw [hspells.isKeyword hkind, List.contains_iff_mem]
    exact hmem
  have hjoin : x.join.isKeyword ["JOIN"] = true := by
    rw [x.spells_join.isKeyword rfl]
    decide
  have hupper : x.modifiers.map Token.upper =
      st.modifiers.map fun w => Text.upper (String.ofList w.text) :=
    (map_eq_of_forall₂ x.spells_modifiers fun w t hspells => by
      rw [Token.upper, hspells.text]).symm
  have hon : EndsMention (x.on :: x.condition) := by
    intro u hu
    obtain rfl := Option.some.inj hu
    rw [x.isKeyword_on, x.isKeyword_on]
    decide
  -- what is left of the second table is passed over on the way to ON
  obtain ⟨after, hsub, htable⟩ := exists_readTable_mention x.spells_second hon
  have hafter : ∀ t ∈ after, (!t.isKeyword ["ON", "USING"]) = true := fun t ht => by
    rw [x.isKeyword_second (hsub ht) (by decide) (by decide)]
    rfl
  have hcondition :
      JoinTarget.readCondition (after ++ x.on :: x.condition) = (x.condition, []) := by
    have hdrop : (after ++ x.on :: x.condition).dropWhile
        (fun t => !t.isKeyword ["ON", "USING"]) = x.on :: x.condition := by
      rw [List.dropWhile_append_of_pos hafter, List.dropWhile_cons_of_neg]
      rw [x.isKeyword_on]
      decide
    have hword : x.on.isKeyword ["ON"] = true := x.isKeyword_on ["ON"]
    simp [JoinTarget.readCondition, hdrop, hword]
  refine ⟨((x.modifiers ++ x.join :: x.joined).head?.map Token.start).getD 0, ?_⟩
  rw [JoinTarget.ofSpan, JoinTarget.takeWhile_join (fun t => hmodifier) hjoin,
    JoinTarget.drop_join, joined, htable, hupper, hcondition]
  rfl

/-- **The equality** is the first part of the condition. -/
theorem conjuncts_condition : ∃ rest, conjuncts x.condition = x.equality :: rest := by
  -- names are no keywords, so no cut falls within the equality
  have hsolid : Solid 0 (·.isKeyword ["AND"]) true x.equality := by
    refine solid_of_forall fun t ht _ => ?_
    obtain ⟨w, hw, hspells⟩ := exists_word_of_spelled x.spells_equality ht
    exact ⟨hspells.isKeyword_eq_false (free_equality hw (by decide)),
      hspells.isKeyword_eq_false (free_equality hw (by decide))⟩
  obtain ⟨t, ht⟩ : ∃ t, t ∈ x.equality := by
    refine List.exists_mem_of_ne_nil _ fun hnil => ?_
    have hlength := x.spells_equality.length_eq
    rw [hnil, JoinStatement.equality] at hlength
    split at hlength <;> simp at hlength
  have hne : x.equality ≠ [] := List.ne_nil_of_mem ht
  have hbase : baseDepth x.condition = 0 := by
    refine (baseDepth_eq_iff (List.append_ne_nil_of_left_ne_nil hne _)).mpr
      ⟨⟨t, List.mem_append_left _ ht, ?_⟩, fun _ _ => Nat.zero_le _⟩
    obtain ⟨w, -, hspells⟩ := exists_word_of_spelled x.spells_equality ht
    exact hspells.depth
  rw [conjuncts, hbase, condition]
  rcases x.more_cases with hnil | ⟨conj, rest, hrest, hconj⟩
  · rw [hnil, List.append_nil]
    exact ⟨[], hsolid.cutFrom_eq hne⟩
  · rw [hrest]
    refine ⟨_, hsolid.cutFrom_append hne hconj.depth ?_ ?_ rest⟩
    · rw [hconj.isKeyword rfl]
      decide
    · rw [hconj.isKeyword rfl]
      decide

/-- The condition is an equality whichever way around it is written. -/
theorem equality?_equality : JoinTarget.equality? x.equality =
    some (if flipped then (st.second.ref, st.first.ref) else (st.first.ref, st.second.ref)) := by
  have hspells := x.spells_equality
  rw [JoinStatement.equality] at hspells
  cases flipped with
  | true => exact equality?_references hspells
  | false => exact equality?_references hspells

end Tokens

end JoinStatement

end IndexAdvice
