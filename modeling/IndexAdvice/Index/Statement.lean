import IndexAdvice.Dialect
import IndexAdvice.Naming

/-!
# Index statements

The SQL text that creates or drops an index. A part that the database does not accept is left out,
whatever was asked for.
-/

namespace IndexAdvice

/-- An index that is to be created. -/
structure IndexSpec where
  table : String
  /-- The key columns. -/
  columns : List String
  /-- The name; a missing or empty one is made from the table and the key columns. -/
  name : Option String := none
  /-- Covering columns. -/
  covering : List String := []
  /-- The condition of a partial index. -/
  condition : Option String := none
  /-- Whether `IF NOT EXISTS` is asked for. -/
  guarded : Bool := false
deriving DecidableEq, Repr

namespace IndexSpec

/-- The name of the index. -/
def effectiveName (ix : IndexSpec) : String :=
  match ix.name with
  | some name => if name.isEmpty then indexName ix.table ix.columns else name
  | none => indexName ix.table ix.columns

/-- The statement that creates the index. -/
def createStatement (caps : Capabilities) (ix : IndexSpec) : String :=
  let guard := if ix.guarded && caps.guarded then "IF NOT EXISTS " else ""
  let covering :=
    if !ix.covering.isEmpty && caps.covering then
      " INCLUDE (" ++ ", ".intercalate ix.covering ++ ")"
    else ""
  let condition := match ix.condition with
    | some c => if !c.isEmpty && caps.filtered then " WHERE " ++ c else ""
    | none => ""
  "CREATE INDEX " ++ guard ++ ix.effectiveName ++ " ON " ++ ix.table ++
    " (" ++ ", ".intercalate ix.columns ++ ")" ++ covering ++ condition ++ ";"

end IndexSpec

/-- The statement that drops an index. MySQL wants the table named and knows no `IF EXISTS`. -/
def dropStatement (dialect : Dialect) (table name : String) (ifExists : Bool) : String :=
  match dialect with
  | .mysql => "DROP INDEX " ++ name ++ " ON " ++ table ++ ";"
  | _ => "DROP INDEX " ++ (if ifExists then "IF EXISTS " else "") ++ name ++ ";"

end IndexAdvice
