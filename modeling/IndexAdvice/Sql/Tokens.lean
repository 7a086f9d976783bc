import IndexAdvice.Sql.Piece

/-!
# The tokens of a text

`tokenize` locates the pieces of a query text: it drops the layout and gives every token its
position and its parenthesis depth. A surplus closing parenthesis leaves the depth at zero.

`closing?` finds the parenthesis that closes an open one, and `isWrapped` tells whether a list of
tokens is one parenthesised group.
-/

namespace IndexAdvice

namespace Token

/-- The tokens of consecutive pieces, of which the first starts at position `start` with `depth`
parentheses open. -/
def locate (start depth : Nat) : List Piece → List Token
  | [] => []
  | p :: ps =>
    let stop := start + p.text.length
    match p.kind with
    | none => locate stop depth ps
    | some .lparen => ⟨.lparen, String.ofList p.text, start, stop, depth⟩ ::
        locate stop (depth + 1) ps
    | some .rparen => ⟨.rparen, String.ofList p.text, start, stop, depth - 1⟩ ::
        locate stop (depth - 1) ps
    | some kind => ⟨kind, String.ofList p.text, start, stop, depth⟩ :: locate stop depth ps

end Token

/-- The tokens of a query text, in order. Blanks and comments are dropped. -/
def tokenize (sql : String) : List Token :=
  Token.locate 0 0 (Piece.ofText sql.toList)

namespace Token

/-! ### Parentheses -/

/-- Where in `rest` the parenthesis stands that closes one of depth `depth` opened just before. -/
def closing? (depth : Nat) (rest : List Token) : Option Nat :=
  rest.findIdx? fun t => t.kind == .rparen && t.depth == depth

/-- The index of the parenthesis that closes the one at index `i`; the last index if none does. -/
def matchingParen (tokens : List Token) (i : Nat) : Nat :=
  match tokens[i]? with
  | none => tokens.length - 1
  | some t =>
    match closing? t.depth (tokens.drop (i + 1)) with
    | some j => i + 1 + j
    | none => tokens.length - 1

/-- The tokens after the group that `t`, the token before `rest`, opens. -/
def afterGroup (t : Token) (rest : List Token) : List Token :=
  match closing? t.depth rest with
  | some j => rest.drop (j + 1)
  | none => []

/-- Whether the tokens are one parenthesised group. -/
def isWrapped (tokens : List Token) : Bool :=
  match tokens with
  | t :: u :: us =>
    t.kind == .lparen && matchingParen tokens 0 == tokens.length - 1 &&
      (u :: us).getLast?.any (·.kind == .rparen)
  | _ => false

/-- The least depth of the tokens, zero if there are none. -/
def baseDepth (tokens : List Token) : Nat :=
  ((tokens.map (·.depth)).min?).getD 0

/-- Query text has tokens only if it has characters. -/
theorem ne_nil_of_tokenize {sql : String} (h : tokenize sql ≠ []) : sql.toList ≠ [] := by
  intro h'
  apply h
  simp [tokenize, h', Piece.ofText, Piece.cut, locate]

end Token

end IndexAdvice
