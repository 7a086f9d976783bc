import IndexAdvice.Catalog
import IndexAdvice.Query
import IndexAdvice.Settings
import IndexAdvice.Source.Call
import IndexAdvice.Source.Declaration

/-!
# Queries of a source text

Every query call that is not commented out and whose argument is not blank gives a query. It gets
the fields of the nearest declaration of its subject before it, or else those that a fallback
catalog has for the subject.
-/

namespace IndexAdvice.Source

open Text

/-- The fields of the last declaration of a subject before a position that has any; `latestFirst`
are the declarations backwards. -/
def closestFields (latestFirst : List Declaration) (subject : String) (position : Nat) :
    List String :=
  ((latestFirst.find? fun d =>
    d.position < position && d.name == subject && !d.fields.isEmpty).map (·.fields)).getD []

/-- The fields of a call's subject. -/
def callFields (latestFirst : List Declaration) (fallback : Catalog) (c : Call) : List String :=
  let closest := closestFields latestFirst c.subject c.place.position
  if closest.isEmpty then (fallback.lookup c.subject).getD [] else closest

/-- The methods to look for; if none are given, the usual ones. -/
def effectiveMethods (methods : List String) : List String :=
  if methods.isEmpty then defaultQueryMethods else methods

/-- The queries of a source text, in order. -/
def queries (methods : List String) (fallback : Catalog) (file : String) (text : List Char) :
    List Query :=
  let latestFirst := (declarations file text).reverse
  let live := (calls (effectiveMethods methods) text).filter fun c =>
    !c.place.isCommented && !isBlankText c.argument
  live.map fun c =>
    { table := c.subject
      fields := callFields latestFirst fallback c
      sql := String.ofList (trim c.argument)
      method := c.method
      file
      line := c.place.line }

end IndexAdvice.Source
