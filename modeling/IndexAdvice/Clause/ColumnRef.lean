import IndexAdvice.Sql.Keyword
import IndexAdvice.Sql.Token

/-!
# Column and table references

A reference is an identifier, or several joined by dots: `column`, `table.column`,
`schema.table.column`. Only the last two names count. A reserved word alone is no reference, while
a quoted or a dotted one is.
-/

namespace IndexAdvice

/-- A name with the qualifier before it, if it has one. -/
structure ColumnRef where
  qualifier : Option String
  name : String
deriving DecidableEq, Repr

namespace ColumnRef

/-- The names that go on a reference, each after a dot, and the tokens after them. -/
def dottedNames : List Token → List String × List Token
  | d :: t :: rest =>
    if d.kind == .dot && t.isIdentifier then
      let more := dottedNames rest
      (t.name :: more.1, more.2)
    else ([], d :: t :: rest)
  | rest => ([], rest)

/-- The reference that `name` makes with the names that go on it. -/
def ofNames (qualifier : Option String) (name : String) : List String → ColumnRef
  | [] => ⟨qualifier, name⟩
  | next :: rest => ofNames (some name) next rest

/-- The reference that the tokens start with, and the tokens after it. -/
def read? : List Token → Option (ColumnRef × List Token)
  | [] => none
  | t :: rest =>
    let (names, after) := dottedNames rest
    if !t.isIdentifier || (names.isEmpty && t.isKeyword Keyword.reserved) then none
    else some (ofNames none t.name names, after)

/-- The reference that the tokens are, if nothing follows it. -/
def whole? (tokens : List Token) : Option ColumnRef :=
  match read? tokens with
  | some (ref, []) => some ref
  | _ => none

end ColumnRef

end IndexAdvice
