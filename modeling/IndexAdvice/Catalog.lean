import IndexAdvice.Naming
import IndexAdvice.Sorting

/-!
# Catalogs of field lists

A catalog holds the known columns of declared tables, in order of declaration. A table named in
query text is looked up by its variants, and of several declarations that share a variant with it
the first counts.
-/

namespace IndexAdvice

/-- The field lists of declared tables. -/
abbrev Catalog := List (String × List String)

namespace Catalog

/-- The catalog after a declaration, which takes the place of an earlier one of the same name. -/
def declare (catalog : Catalog) (name : String) (fields : List String) : Catalog :=
  if catalog.any (·.1 == name) then
    catalog.map fun entry => if entry.1 == name then (name, fields) else entry
  else catalog ++ [(name, fields)]

/-- The catalog of several declarations, the last of each name. -/
def ofDeclarations (declarations : List (String × List String)) : Catalog :=
  declarations.foldl (fun catalog d => declare catalog d.1 d.2) []

/-- The fields of the first declaration that has any and has the given variant. -/
def ofVariant? (catalog : Catalog) (variant : String) : Option (List String) :=
  (catalog.find? fun entry => !entry.2.isEmpty && (variants entry.1).contains variant).map (·.2)

/-- The fields of a table, looked up by its variants in alphabetical order. -/
def fieldsFor (catalog : Catalog) (table : String) : List String :=
  ((sortTexts (variants table)).findSome? catalog.ofVariant?).getD []

end Catalog

end IndexAdvice
