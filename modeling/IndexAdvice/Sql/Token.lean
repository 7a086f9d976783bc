import IndexAdvice.Text.Case

/-!
# SQL tokens

A token is a stretch of query text of one kind, with its position and its parenthesis depth. The
texts of tokens keep their spelling; `Token.isKeyword` compares in upper case and only ever holds
of words, so a quoted name is never a keyword.
-/

namespace IndexAdvice

/-- The lexical kinds of SQL text. Whatever fits no other kind is `other`. -/
inductive TokenKind where
  | word | quoted | string | number | placeholder | operator
  | lparen | rparen | comma | dot | star | semicolon | other
deriving DecidableEq, Repr, Inhabited

/-- The name of a kind in reports. -/
def TokenKind.label : TokenKind → String
  | .word => "word"
  | .quoted => "quoted"
  | .string => "string"
  | .number => "number"
  | .placeholder => "placeholder"
  | .operator => "operator"
  | .lparen => "lparen"
  | .rparen => "rparen"
  | .comma => "comma"
  | .dot => "dot"
  | .star => "star"
  | .semicolon => "semicolon"
  | .other => "other"

/-- A lexical token. Its `depth` is the number of parentheses open around it: an opening
parenthesis carries the depth outside it, its contents are one level deeper, and the closing
parenthesis is back at the outer level. -/
structure Token where
  kind : TokenKind
  text : String
  /-- Position of the first character. -/
  start : Nat
  /-- Position after the last character. -/
  stop : Nat
  depth : Nat
deriving DecidableEq, Repr, Inhabited

namespace Token

/-- The text in upper case. -/
def upper (t : Token) : String :=
  Text.upper t.text

/-- Words and quoted names may name a column or a table. -/
def isIdentifier (t : Token) : Bool :=
  t.kind == .word || t.kind == .quoted

/-- The identifier without its quotes. -/
def name (t : Token) : String :=
  match t.kind with
  | .quoted =>
    match t.text.toList with
    | _ :: c :: cs => String.ofList (c :: cs).dropLast
    | _ => t.text
  | _ => t.text

/-- Whether the token is one of the given keywords, in any letter case. -/
def isKeyword (t : Token) (keywords : List String) : Bool :=
  t.kind == .word && keywords.contains t.upper

/-- Identifiers are words or quoted names. -/
theorem kind_of_isIdentifier {t : Token} (h : t.isIdentifier = true) :
    t.kind = .word ∨ t.kind = .quoted := by
  simpa [isIdentifier] using h

theorem kind_ne_of_isIdentifier {t : Token} {kind : TokenKind} (h : t.isIdentifier = true)
    (hkind : kind ≠ .word ∧ kind ≠ .quoted) : t.kind ≠ kind := by
  rcases kind_of_isIdentifier h with ht | ht <;> rw [ht]
  · exact hkind.1.symm
  · exact hkind.2.symm

/-- Keywords are words. -/
theorem kind_of_isKeyword {t : Token} {ks : List String} (h : t.isKeyword ks = true) :
    t.kind = .word := by
  simp only [isKeyword, Bool.and_eq_true, beq_iff_eq] at h
  exact h.1

end Token

end IndexAdvice
