import IndexAdvice.Clause.ColumnRef
import IndexAdvice.Clauses
import IndexAdvice.Naming
import IndexAdvice.Text.Trim

/-!
# The scope of a query

A `Scope` is what names mean inside one query: the fields of its own table, the aliases of all
tables it names, the qualifiers that stand for its own table, and the places of nested queries.
Names are looked up without regard to letter case and come back in declared spelling.
-/

namespace IndexAdvice

open Text

/-- What names mean inside one query. -/
structure Scope where
  /-- The text of the query. -/
  sql : List Char
  /-- The columns of its own table. -/
  fields : List String
  /-- Lower-case aliases and table names with the tables they stand for. -/
  aliases : List (String × String) := []
  /-- Lower-case qualifiers that stand for its own table. -/
  ownNames : List String := []
  /-- From where to where the nested queries reach. -/
  nested : List (Nat × Nat) := []
deriving Repr

namespace Scope

/-- The declared spelling of a field; of fields that differ in letter case only, the last. -/
def field? (scope : Scope) (name : String) : Option String :=
  scope.fields.reverse.find? fun f => lower f == lower name

/-- The field that a reference means, if it means one of the query's own table. -/
def resolve (scope : Scope) (ref : ColumnRef) : Option String :=
  match ref.qualifier with
  | some q => if scope.ownNames.contains (lower q) then scope.field? ref.name else none
  | none => scope.field? ref.name

/-- The stretch of query text that the tokens cover. -/
def text (scope : Scope) (tokens : List Token) : String :=
  match tokens.head?, tokens.getLast? with
  | some first, some last => String.ofList (slice scope.sql first.start last.stop)
  | _, _ => ""

/-- Whether a token lies in a nested query. -/
def inNested (scope : Scope) (t : Token) : Bool :=
  scope.nested.any fun (start, stop) => start ≤ t.start && t.start < stop

end Scope

/-! ### Aliases -/

/-- An alias table with `key` standing for `table`, whatever it stood for before. -/
def setAlias (aliases : List (String × String)) (key table : String) : List (String × String) :=
  (key, table) :: aliases.filter (·.1 != key)

/-- The alias that the tokens start with, with or without `AS`. -/
def aliasAt? (tokens : List Token) : Option String :=
  let rest := match tokens with
    | t :: rest => if t.isKeyword ["AS"] then rest else tokens
    | [] => []
  match rest with
  | t :: _ => if t.isIdentifier && !t.isKeyword Keyword.reserved then some t.name else none
  | [] => none

/-- The aliases after a table is named: the name stands for the table unless it stands for another
one already. -/
def bindName (aliases : List (String × String)) (table : String) : List (String × String) :=
  addAbsent aliases (lower table) table

/-- The aliases after a table gets an alias of its own, which displaces whatever was there. An empty
alias is none. -/
def bindAlias (aliases : List (String × String)) (table : String) (given : Option String) :
    List (String × String) :=
  match given with
  | some a => if a.isEmpty then aliases else setAlias aliases (lower a) table
  | none => aliases

/-- The qualifiers that stand for the query's own table: those bound to a table named like the
subject, or else those of the first table, and in any case the subject's variants. -/
def ownQualifiers (subject : String) (tables : List String) (aliases : List (String × String)) :
    List String :=
  let named := (aliases.filter fun (_, t) => (variants subject).contains (lower t)).map (·.1)
  let standIn := match named, tables with
    | [], first :: _ => (aliases.filter fun (_, t) => lower t == lower first).map (·.1)
    | _, _ => []
  named ++ standIn ++ variants subject

end IndexAdvice
