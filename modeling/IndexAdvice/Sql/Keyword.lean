/-!
# SQL keywords

The sets of words that steer the reading of a query. All are in upper case.
-/

namespace IndexAdvice.Keyword

/-- Words that start a whole statement rather than a bare condition. -/
def statement : List String :=
  ["SELECT", "WITH", "UPDATE", "DELETE", "INSERT"]

/-- Words that open a clause of their own. -/
def clause : List String :=
  ["SELECT", "FROM", "WHERE", "HAVING", "LIMIT", "OFFSET", "RETURNING", "UNION", "INTERSECT",
    "EXCEPT", "WINDOW", "SET", "VALUES", "FETCH", "FOR"]

/-- Words that open a clause together with the word after them. -/
def paired : List (String × String) :=
  [("GROUP", "BY"), ("ORDER", "BY")]

/-- Words that join two statements; what follows belongs to the other one. -/
def setOperator : List String :=
  ["UNION", "INTERSECT", "EXCEPT"]

/-- Words that may stand before `JOIN`. -/
def joinModifier : List String :=
  ["INNER", "LEFT", "RIGHT", "FULL", "CROSS", "OUTER", "NATURAL"]

/-- Words that are never a column or an alias on their own. -/
def reserved : List String :=
  ["SELECT", "FROM", "WHERE", "GROUP", "ORDER", "BY", "HAVING", "LIMIT", "OFFSET", "JOIN", "INNER",
    "LEFT", "RIGHT", "FULL", "CROSS", "OUTER", "NATURAL", "ON", "USING", "AND", "OR", "NOT", "IN",
    "EXISTS", "AS", "UNION", "SET", "VALUES", "RETURNING", "WINDOW", "FOR", "FETCH", "LATERAL"]

/-- Operators that compare a column with a range of values. -/
def range : List String :=
  ["LIKE", "ILIKE", "BETWEEN"]

/-- Words that are constant values. -/
def constant : List String :=
  ["TRUE", "FALSE"]

/-- Words that open a nested query after a parenthesis. -/
def nested : List String :=
  ["SELECT", "WITH"]

end IndexAdvice.Keyword
