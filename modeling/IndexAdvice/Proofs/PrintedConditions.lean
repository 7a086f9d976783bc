import Mathlib.Data.List.Chain
import IndexAdvice.Sql.Keyword
import IndexAdvice.Proofs.GroupText

/-!
# Printed conditions

Boolean expressions and the text that they are written as. An `Atom` is a run of complete tokens
with no Boolean structure of its own, printed with single spaces. Atoms are joined by `AND` into a
`Conjunction`, conjunctions by `OR` into a `Disjunction`, and a disjunction in parentheses is a
`Factor` like an atom, so every text made of atoms, `AND`, `OR` and matching parentheses is the text
of a disjunction.

`Disjunction.pieces` says into which pieces the text of an expression is meant to be cut. That it is
cut into these follows from `Piece.Printed.isCut`: what is printed is cut in the same way wherever a
word may end after it.
-/

namespace IndexAdvice

open Text Token

/-! ### Words -/

/-- A blank between words. -/
def Piece.space : Piece := ⟨none, [' ']⟩

/-- The parenthesis that opens a group. -/
def Piece.lparen : Piece := ⟨some .lparen, ['(']⟩

/-- The parenthesis that closes a group. -/
def Piece.rparen : Piece := ⟨some .rparen, [')']⟩

/-- A complete token: with a blank after it, its text is cut into itself and the blank. A string or
a quoted name that is not closed takes the blank up, and so is none. -/
structure Word where
  kind : TokenKind
  text : List Char
  whole : Piece.ofText (text ++ [' ']) = [⟨some kind, text⟩, Piece.space]

namespace Word

/-- The piece that a word is. -/
def piece (w : Word) : Piece := ⟨some w.kind, w.text⟩

/-- The word between conjuncts. -/
def conj : Word := ⟨.word, ['A', 'N', 'D'], by decide⟩

/-- The word between alternatives. -/
def disj : Word := ⟨.word, ['O', 'R'], by decide⟩

/-- The word before a condition. -/
def whereWord : Word := ⟨.word, ['W', 'H', 'E', 'R', 'E'], by decide⟩

/-- The text of words with single spaces between them. -/
def print (ws : List Word) : List Char :=
  [' '].intercalate (ws.map text)

/-- The pieces of words with single spaces between them. -/
def pieces (ws : List Word) : List Piece :=
  (ws.map piece).intersperse Piece.space

theorem texts_pieces (ws : List Word) : (pieces ws).flatMap Piece.text = print ws := by
  induction ws with
  | nil => rfl
  | cons w ws ih =>
    cases ws with
    | nil => simp [pieces, print, piece]
    | cons v ws =>
      simp only [pieces, print, List.map_cons, List.intersperse_cons_cons, List.flatMap_cons,
        List.intercalate_cons_cons, List.append_assoc] at ih ⊢
      rw [ih]
      rfl

end Word

/-! ### Atoms -/

namespace Token

/-- One parenthesised group: balanced tokens between two parentheses. -/
def IsGroup (ts : List Token) : Prop :=
  ∃ l inner r, ts = l :: (inner ++ [r]) ∧ l.kind = .lparen ∧ r.kind = .rparen ∧
    nesting 0 inner = some 0

/-- Being a group can be decided: parentheses at both ends, balanced inside. -/
theorem isGroup_iff {ts : List Token} :
    IsGroup ts ↔ ts.head?.any (·.kind == .lparen) = true ∧
      ts.tail.getLast?.any (·.kind == .rparen) = true ∧ nesting 0 ts.tail.dropLast = some 0 := by
  constructor
  · rintro ⟨l, inner, r, rfl, hl, hr, hinner⟩
    simp [hl, hr, hinner]
  · rintro ⟨hhead, hlast, hinner⟩
    obtain ⟨l, hl, hkind⟩ := (Option.any_eq_true _ _).mp hhead
    obtain ⟨r, hr, hkind'⟩ := (Option.any_eq_true _ _).mp hlast
    obtain ⟨rest, rfl⟩ := List.head?_eq_some_iff.mp hl
    rw [List.tail_cons] at hr
    refine ⟨l, rest.dropLast, r, ?_, by simpa using hkind, by simpa using hkind', hinner⟩
    rw [List.dropLast_append_getLast? r hr]

instance : DecidablePred IsGroup := fun _ => decidable_of_iff _ isGroup_iff.symm

/-- Whether `t` before `u` is no clause keyword of two words. -/
def Unpaired (t u : Token) : Prop :=
  t.depth = 0 → t.isKeyword ["GROUP", "ORDER"] = true → u.isKeyword ["BY"] = false

instance : DecidableRel Unpaired := fun t u =>
  inferInstanceAs (Decidable (t.depth = 0 → t.isKeyword ["GROUP", "ORDER"] = true →
    u.isKeyword ["BY"] = false))

/-- Whether tokens are `BETWEEN` and `AND` by turns, up to an `AND`. They start with the `AND` if a
`BETWEEN` is `waiting` for it. -/
def alternate (waiting : Bool) : List Token → Bool
  | [] => !waiting
  | t :: ts => t.isKeyword [if waiting then "AND" else "BETWEEN"] && alternate (!waiting) ts

/-- The `BETWEEN`s and `AND`s of a depth. -/
def betweens (depth : Nat) (ts : List Token) : List Token :=
  ts.filter fun t => t.depth == depth && t.isKeyword ["BETWEEN", "AND"]

/-- Tokens without Boolean structure: balanced, no group and no start of a nested query, and with
nothing outside parentheses that ends or divides a condition. -/
structure IsAtomic (ts : List Token) : Prop where
  balanced : nesting 0 ts = some 0
  ungrouped : ¬ IsGroup ts
  unended : ∀ t ∈ ts, t.kind ≠ .semicolon
  unnested : ts.head?.any (·.isKeyword ["WITH"]) = false
  /-- No `OR`, `JOIN`, clause keyword or set operator stands outside parentheses. -/
  undivided : ∀ t ∈ ts, t.depth = 0 →
    t.isKeyword ("OR" :: "JOIN" :: (Keyword.clause ++ Keyword.setOperator)) = false
  /-- No clause keyword of two words stands outside parentheses. -/
  unpaired : ts.IsChain Unpaired
  /-- Every `BETWEEN` outside parentheses has its `AND`, and there is no other `AND`. -/
  alternating : alternate false (betweens 0 ts) = true

instance : DecidablePred IsAtomic := fun ts =>
  decidable_of_iff (nesting 0 ts = some 0 ∧ ¬ IsGroup ts ∧ (∀ t ∈ ts, t.kind ≠ .semicolon) ∧
      ts.head?.any (·.isKeyword ["WITH"]) = false ∧
      (∀ t ∈ ts, t.depth = 0 →
        t.isKeyword ("OR" :: "JOIN" :: (Keyword.clause ++ Keyword.setOperator)) = false) ∧
      ts.IsChain Unpaired ∧ alternate false (betweens 0 ts) = true)
    ⟨fun ⟨h₁, h₂, h₃, h₄, h₅, h₆, h₇⟩ => ⟨h₁, h₂, h₃, h₄, h₅, h₆, h₇⟩,
      fun ⟨h₁, h₂, h₃, h₄, h₅, h₆, h₇⟩ => ⟨h₁, h₂, h₃, h₄, h₅, h₆, h₇⟩⟩

end Token

/-- A condition without Boolean structure of its own. -/
structure Atom where
  words : List Word
  words_ne_nil : words ≠ []
  atomic : IsAtomic (tokenize (String.ofList (Word.print words)))

/-! ### Expressions -/

mutual

/-- Conjunctions joined by `OR`. -/
inductive Disjunction where
  | single (c : Conjunction)
  | or (c : Conjunction) (rest : Disjunction)

/-- Factors joined by `AND`. -/
inductive Conjunction where
  | single (f : Factor)
  | and (f : Factor) (rest : Conjunction)

/-- An atom or an expression in parentheses. -/
inductive Factor where
  | atom (a : Atom)
  | group (e : Disjunction)

end

/-- The text of an atom. -/
def Atom.text (a : Atom) : List Char := Word.print a.words

/-- The pieces of an atom. -/
def Atom.pieces (a : Atom) : List Piece := Word.pieces a.words

/-- The pieces of a group around other pieces, with `pad` blanks inside each parenthesis. -/
def Piece.group (pad : Nat) (ps : List Piece) : List Piece :=
  lparen :: (List.replicate pad space ++ ps ++ List.replicate pad space ++ [rparen])

/-- The pieces of two parts with a word between them. -/
def Piece.join (ps : List Piece) (w : Word) (qs : List Piece) : List Piece :=
  ps ++ space :: w.piece :: space :: qs

section Print

variable (pad : Nat)

mutual

/-- The text of an expression, with `pad` blanks inside each parenthesis. -/
def Disjunction.text : Disjunction → List Char
  | .single c => c.text
  | .or c rest => c.text ++ [' ', 'O', 'R', ' '] ++ rest.text

/-- The text of a conjunction. -/
def Conjunction.text : Conjunction → List Char
  | .single f => f.text
  | .and f rest => f.text ++ [' ', 'A', 'N', 'D', ' '] ++ rest.text

/-- The text of a factor. -/
def Factor.text : Factor → List Char
  | .atom a => a.text
  | .group e =>
    ['('] ++ List.replicate pad ' ' ++ e.text ++ List.replicate pad ' ' ++ [')']

end

mutual

/-- The pieces of an expression. -/
def Disjunction.pieces : Disjunction → List Piece
  | .single c => c.pieces
  | .or c rest => Piece.join c.pieces Word.disj rest.pieces

/-- The pieces of a conjunction. -/
def Conjunction.pieces : Conjunction → List Piece
  | .single f => f.pieces
  | .and f rest => Piece.join f.pieces Word.conj rest.pieces

/-- The pieces of a factor. -/
def Factor.pieces : Factor → List Piece
  | .atom a => a.pieces
  | .group e => Piece.group pad e.pieces

end

end Print

/-! ### Cutting printed pieces -/

namespace Piece

variable {p : Piece} {ps qs : List Piece} {r : Char}

/-- A character that a word may stand before: a blank or a closing parenthesis. -/
def EndsWord (r : Char) : Prop :=
  isBlank r = true ∨ r = ')'

theorem next_rparen (before : Option Char) (cs : List Char) :
    next before ')' cs = (some .rparen, 0) := rfl

theorem next_lparen_eq (before : Option Char) (cs : List Char) :
    next before '(' cs = (some .lparen, 0) := rfl

namespace EndsWord

theorem breaks (hr : EndsWord r) : Breaks r := by
  rcases hr with hr | rfl
  · exact breaks_of_isBlank hr
  · exact breaks_rparen

/-- What starts with such a character is cut in the same way whatever stands before it. -/
theorem cut_before (hr : EndsWord r) (b : Option Char) (d : List Char) :
    cut b 0 (r :: d) = ofText (r :: d) := by
  rcases hr with hr | rfl
  · exact (cut_blank hr b d).trans (cut_blank hr none d).symm
  · rw [ofText, cut, cut, next_rparen, next_rparen]

end EndsWord

/-- Whether the text of pieces is cut into them wherever a word may end after it. -/
def IsCut (ps : List Piece) : Prop :=
  ∀ r, EndsWord r → ∀ d, ofText (ps.flatMap text ++ r :: d) = ps ++ ofText (r :: d)

namespace IsCut

theorem nil : IsCut [] := fun _ _ _ => rfl

/-- A piece of one character that is cut off whatever stands around it. -/
theorem cons {c : Char} (hp : p.text = [c]) (hc : c ≠ ':')
    (hnext : ∀ before cs, next before c cs = (p.kind, 0)) (h : IsCut ps) : IsCut (p :: ps) := by
  intro r hr d
  obtain ⟨kind, text⟩ := p
  obtain rfl : text = [c] := hp
  rw [List.flatMap_cons, List.append_assoc, List.singleton_append, ofText, cut, hnext,
    List.take_zero, Piece.cut_before (by simpa using hc), h r hr d, List.cons_append]

theorem space (h : IsCut ps) : IsCut (Piece.space :: ps) :=
  h.cons rfl (by decide) fun before cs => next_blank (by decide) before cs

theorem lparen (h : IsCut ps) : IsCut (Piece.lparen :: ps) :=
  h.cons rfl (by decide) next_lparen_eq

theorem rparen (h : IsCut ps) : IsCut (Piece.rparen :: ps) :=
  h.cons rfl (by decide) next_rparen

/-- Pieces before others that start where a word may end. -/
theorem append (h : IsCut ps) (h' : IsCut qs)
    (hqs : ∃ r d, EndsWord r ∧ qs.flatMap text = r :: d) : IsCut (ps ++ qs) := by
  intro r hr d
  obtain ⟨r', d', hr', htext⟩ := hqs
  have hrest := h' r hr d
  -- the first pieces end before the others, and these before what comes after both
  rw [htext, List.cons_append] at hrest
  rw [List.flatMap_append, List.append_assoc, htext, List.cons_append, h r' hr', hrest,
    List.append_assoc]

/-- A word is cut off wherever it may end. -/
theorem word (w : Word) : IsCut [w.piece] := by
  intro r hr d
  obtain ⟨kind, text, whole⟩ := w
  cases text with
  | nil => exact absurd (congrArg List.length whole) (show 1 ≠ 2 by decide)
  | cons c cs =>
    obtain ⟨k, n, hnext⟩ : ∃ k n, next none c (cs ++ [' ']) = (k, n) := ⟨_, _, rfl⟩
    have hle := next_le none c (cs ++ [' '])
    rw [List.cons_append, ofText, cut, hnext, List.cons.injEq, Piece.mk.injEq] at whole
    rw [hnext] at hle
    obtain ⟨⟨rfl, htake⟩, -⟩ := whole
    -- the word takes up all of its characters, and not the blank
    obtain rfl : n = cs.length := by
      have := congrArg List.length htake
      simp only [List.length_cons, List.length_take, List.length_append, List.length_nil]
        at this hle
      omega
    have hbreak := next_append_break hr.breaks hnext d
    have hcut : cut none 0 (c :: cs ++ r :: d) =
        [⟨some kind, c :: cs⟩] ++ cut (some c) cs.length (cs ++ r :: d) := by
      rw [List.cons_append, cut, hbreak, List.take_left]
      rfl
    have hparts := (cut_append (Nat.zero_le _) hcut (by simp)).2
    rw [hr.cut_before] at hparts
    simp only [Word.piece, List.flatMap_singleton]
    rw [ofText, hcut, ← hparts]

/-- Words with single spaces between them. -/
theorem words (ws : List Word) : IsCut (Word.pieces ws) := by
  induction ws with
  | nil => exact nil
  | cons w ws ih =>
    rw [Word.pieces, List.map_cons]
    rcases ws with _ | ⟨v, ws⟩
    · exact word w
    · rw [List.map_cons, List.intersperse_cons_cons]
      exact (word w).append ih.space ⟨' ', _, .inl (by decide), rfl⟩

theorem spaces (n : Nat) (h : IsCut ps) : IsCut (List.replicate n Piece.space ++ ps) := by
  induction n with
  | zero => exact h
  | succ n ih => exact ih.space

theorem join (w : Word) (h : IsCut ps) (h' : IsCut qs) : IsCut (Piece.join ps w qs) := by
  refine h.append ?_ ⟨' ', _, .inl (by decide), rfl⟩
  exact ((word w).append h'.space ⟨' ', _, .inl (by decide), rfl⟩).space

theorem group (pad : Nat) (h : IsCut ps) : IsCut (Piece.group pad ps) := by
  have hend : IsCut (List.replicate pad Piece.space ++ [Piece.rparen]) := nil.rparen.spaces pad
  rw [Piece.group, List.append_assoc, List.append_assoc]
  -- what is inside ends before a blank or, with no blanks, before the parenthesis
  refine ((h.append hend ?_).spaces pad).lparen
  cases pad with
  | zero => exact ⟨')', [], .inr rfl, rfl⟩
  | succ n => exact ⟨' ', _, .inl (by decide), rfl⟩

end IsCut

/-- Cut by itself, the text of pieces gives them back. -/
theorem IsCut.ofText_texts (h : IsCut ps) : ofText (ps.flatMap text) = ps :=
  (cut_append (Nat.zero_le _) (h ' ' (.inl (by decide)) []) rfl).1

/-- The pieces that conditions are printed as. -/
inductive Printed : List Piece → Prop where
  | atom (a : Atom) : Printed a.pieces
  | join {w : Word} {ps qs : List Piece} (word : w = Word.conj ∨ w = Word.disj)
      (left : Printed ps) (right : Printed qs) : Printed (Piece.join ps w qs)
  | group (pad : Nat) {ps : List Piece} (inside : Printed ps) : Printed (Piece.group pad ps)

/-- Printed pieces are what their text is cut into. -/
theorem Printed.isCut (h : Printed ps) : IsCut ps := by
  induction h with
  | atom a => exact IsCut.words a.words
  | join _ _ _ ih ih' => exact ih.join _ ih'
  | group pad _ ih => exact ih.group pad

end Piece

/-! ### Printing expressions -/

open Piece

/-- The tokens of an atom are those of its pieces. -/
theorem Atom.tokenize_text (a : Atom) :
    tokenize (String.ofList a.text) = locate 0 0 a.pieces := by
  have htext : a.text = a.pieces.flatMap Piece.text := (Word.texts_pieces a.words).symm
  rw [tokenize, String.toList_ofList, htext, (Printed.atom a).isCut.ofText_texts]

/-- A connective is printed with a blank on either side. -/
theorem Piece.texts_join (ps : List Piece) (w : Word) (qs : List Piece) :
    (Piece.join ps w qs).flatMap text =
      ps.flatMap text ++ (' ' :: (w.text ++ ' ' :: qs.flatMap text)) := by
  simp [Piece.join, space, Word.piece]

/-- A group is printed with its padding inside the parentheses. -/
theorem Piece.texts_group (pad : Nat) (ps : List Piece) :
    (Piece.group pad ps).flatMap text =
      '(' :: (List.replicate pad ' ' ++ ps.flatMap text ++ List.replicate pad ' ' ++ [')']) := by
  simp [Piece.group, space, lparen, rparen, List.flatMap_replicate]

section Print

variable (pad : Nat)

mutual

/-- An expression is printed by the rules, constructor by constructor. -/
theorem Disjunction.printed : (e : Disjunction) → Printed (e.pieces pad)
  | .single c => c.printed
  | .or c rest => .join (.inr rfl) c.printed rest.printed

theorem Conjunction.printed : (c : Conjunction) → Printed (c.pieces pad)
  | .single f => f.printed
  | .and f rest => .join (.inl rfl) f.printed rest.printed

theorem Factor.printed : (f : Factor) → Printed (f.pieces pad)
  | .atom a => .atom a
  | .group e => .group pad e.printed

end

mutual

/-- The pieces of an expression make up its text. -/
theorem Disjunction.texts_pieces :
    (e : Disjunction) → (e.pieces pad).flatMap Piece.text = e.text pad
  | .single c => c.texts_pieces
  | .or c rest => by
    rw [Disjunction.pieces, texts_join, c.texts_pieces, rest.texts_pieces, Disjunction.text,
      List.append_assoc]
    rfl

theorem Conjunction.texts_pieces :
    (c : Conjunction) → (c.pieces pad).flatMap Piece.text = c.text pad
  | .single f => f.texts_pieces
  | .and f rest => by
    rw [Conjunction.pieces, texts_join, f.texts_pieces, rest.texts_pieces, Conjunction.text,
      List.append_assoc]
    rfl

theorem Factor.texts_pieces : (f : Factor) → (f.pieces pad).flatMap Piece.text = f.text pad
  | .atom a => Word.texts_pieces a.words
  | .group e => by
    rw [Factor.pieces, texts_group, e.texts_pieces]
    rfl

end

end Print

/-- **Printing** a condition after `WHERE` gives the word, a blank and the pieces of the
condition. -/
theorem Piece.IsCut.ofText_where {ps : List Piece} (h : IsCut ps) :
    ofText (Word.whereWord.text ++ ' ' :: ps.flatMap Piece.text) =
      Word.whereWord.piece :: Piece.space :: ps := by
  have hcut : IsCut (Word.whereWord.piece :: Piece.space :: ps) :=
    (IsCut.word Word.whereWord).append h.space ⟨' ', _, .inl (by decide), rfl⟩
  exact hcut.ofText_texts

end IndexAdvice
