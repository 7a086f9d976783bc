import IndexAdvice.Sql.Keyword
import IndexAdvice.Sql.Token

/-!
# Clause spans

The tokens of a query are divided into spans, each introduced by a keyword at depth zero: a clause
keyword, a pair such as `GROUP BY`, or `JOIN` with the modifiers before it, which stay in the span.
A text that starts with no statement keyword is a bare condition and makes a `WHERE` span. A set
operator ends the division; the tokens after it belong to another statement.
-/

namespace IndexAdvice

/-- Tokens together with the keyword that introduces them. -/
structure Span where
  keyword : String
  tokens : List Token
deriving DecidableEq, Repr

namespace Span

/-- What a token at the outermost level does to the division. -/
inductive Opening where
  /-- It belongs to the span that is open. -/
  | nothing
  /-- It is a set operator. -/
  | stop
  /-- It opens a clause together with the token after it. -/
  | pair (keyword : String)
  /-- It is `JOIN`, or the first of the modifiers before one. -/
  | join
  /-- It opens a clause by itself. -/
  | clause (keyword : String)
deriving DecidableEq, Repr

/-- Whether the tokens are join modifiers, if any, and then `JOIN`. -/
def startsJoin (tokens : List Token) : Bool :=
  (tokens.dropWhile fun t => t.depth == 0 && t.isKeyword Keyword.joinModifier).head?.any
    (·.isKeyword ["JOIN"])

/-- The clause that `t` opens together with the token after it. -/
def pair? (t : Token) (rest : List Token) : Option String :=
  match Keyword.paired.lookup t.upper with
  | some second =>
    if rest.head?.any (·.isKeyword [second]) then some (t.upper ++ " " ++ second) else none
  | none => none

/-- What `t` does, standing between the tokens `before` and `rest`. The `FROM` of `DISTINCT FROM`
opens no clause. -/
def opening (before : Option Token) (t : Token) (rest : List Token) : Opening :=
  if t.depth != 0 || t.kind != .word then .nothing
  else if Keyword.setOperator.contains t.upper then .stop
  else match pair? t rest with
    | some keyword => .pair keyword
    | none =>
      if t.upper == "JOIN" || (Keyword.joinModifier.contains t.upper && startsJoin (t :: rest)) then
        .join
      else if Keyword.clause.contains t.upper &&
          !(t.upper == "FROM" && before.any (·.isKeyword ["DISTINCT"])) then
        .clause t.upper
      else .nothing

/-- How the next token is to be read. -/
inductive Phase where
  /-- As a token like any other. -/
  | body
  /-- As part of the modifiers and `JOIN` that start a join. -/
  | joinHead
  /-- As the second word of a pair. -/
  | pairTail
deriving DecidableEq, Repr

/-- The phase after `t` has started or gone on a join. -/
def afterJoinHead (t : Token) : Phase :=
  if t.isKeyword ["JOIN"] then .body else .joinHead

theorem afterJoinHead_ne_pairTail (t : Token) : afterJoinHead t ≠ .pairTail := by
  rw [afterJoinHead]
  split <;> exact fun h => Phase.noConfusion h

/-- The spans of the tokens to come, where the span of `keyword` is open and holds the tokens
`held`, given backwards. -/
def divideFrom (keyword : String) (phase : Phase) (before : Option Token) (held : List Token) :
    List Token → List Span
  | [] => [⟨keyword, held.reverse⟩]
  | t :: rest =>
    match phase with
    | .pairTail => divideFrom keyword .body (some t) held rest
    | .joinHead => divideFrom keyword (afterJoinHead t) (some t) (t :: held) rest
    | .body =>
      match opening before t rest with
      | .nothing => divideFrom keyword .body (some t) (t :: held) rest
      | .stop => [⟨keyword, held.reverse⟩]
      | .pair next => ⟨keyword, held.reverse⟩ :: divideFrom next .pairTail (some t) [] rest
      | .join => ⟨keyword, held.reverse⟩ :: divideFrom "JOIN" (afterJoinHead t) (some t) [t] rest
      | .clause next => ⟨keyword, held.reverse⟩ :: divideFrom next .body (some t) [] rest

/-- The spans of a query, in source order. -/
def divide : List Token → List Span
  | [] => []
  | t :: rest =>
    if t.isKeyword ("WHERE" :: Keyword.statement) then divideFrom t.upper .body (some t) [] rest
    else divideFrom "WHERE" .body none [] (t :: rest)

/-- The tokens of every span of a keyword. -/
def tokensOf (spans : List Span) (keyword : String) : List (List Token) :=
  (spans.filter (·.keyword == keyword)).map (·.tokens)

/-- The tokens of the first span of a keyword, none if there is no such span. -/
def firstOf (spans : List Span) (keyword : String) : List Token :=
  (tokensOf spans keyword).headD []

end Span

end IndexAdvice
