import IndexAdvice.Text.Case
import IndexAdvice.Text.Letter

/-!
# Table and index names

A subject declared in source code as `OrderItem` appears in query text as `orderitem`, `order_item`
or `order_items`. These are its **variants**, and two names that share a variant are taken for the
same table. `subjectTable` maps every variant back to the first subject that has it. The last
section builds the name of an index from a table and its key columns.
-/

namespace IndexAdvice

open Text

/-! ### Snake case and plural -/

/-- Whether a word of a compound name starts at `c`: an ASCII capital after a small letter or digit,
or the last capital of a run of them. -/
def startsWord (before : Option Char) (c : Char) (after : Option Char) : Bool :=
  c.isUpper && (before.any (fun b => b.isLower || b.isDigit) ||
    (before.any Char.isUpper && after.any Char.isLower))

/-- The characters of a compound name with an underscore before each of its words; `before` is the
character before them. -/
def separateWords (before : Option Char) : List Char → List Char
  | [] => []
  | c :: cs =>
    (if startsWord before c cs.head? then ['_', c] else [c]) ++ separateWords (some c) cs

/-- `OrderItem` and `order-item` as `order_item`, `HTTPRequest` as `http_request`. -/
def snakeCase (name : String) : String :=
  lower (String.ofList
    ((separateWords none name.toList).map fun c => if c == '-' then '_' else c))

/-- The plural by the rules of table names: `category` becomes `categories`, `box` becomes `boxes`,
and any other word takes an `s`. -/
def plural (word : String) : String :=
  match word.toList.reverse with
  | [] => ""
  | c :: rest =>
    if c == 'y' && rest.head?.any (fun b => !(['a', 'e', 'i', 'o', 'u'].contains b)) then
      String.ofList rest.reverse ++ "ies"
    else if ['s', 'x', 'z'].contains c ||
        (c == 'h' && rest.head?.any (fun b => b == 'c' || b == 's')) then
      word ++ "es"
    else word ++ "s"

/-! ### Variants and subjects -/

/-- The lower-case spellings that a table of this name may take in query text. -/
def variants (name : String) : List String :=
  if name.isEmpty then []
  else [lower name, snakeCase name, plural (snakeCase name)].eraseDups

/-- Whether two names have a variant in common. -/
def shareVariant (a b : String) : Bool :=
  (variants a).any (variants b).contains

/-- The table with `key` added under `value`, unless it is there already. -/
def addAbsent {α : Type} (table : List (String × α)) (key : String) (value : α) :
    List (String × α) :=
  if (table.lookup key).isSome then table else table ++ [(key, value)]

/-- Every variant of the given subjects with the first subject that has it. -/
def subjectTable (subjects : List String) : List (String × String) :=
  subjects.foldl (fun table subject =>
    (variants subject).foldl (fun table v => addAbsent table v subject) table) []

/-! ### Index names -/

/-- The characters with every run of non-word characters made one underscore; `joined` tells
whether such a run is going on. -/
def squashNonWord (joined : Bool) : List Char → List Char
  | [] => []
  | c :: cs =>
    if isWordChar c then c :: squashNonWord false cs
    else if joined then squashNonWord true cs
    else '_' :: squashNonWord true cs

/-- A table or column name as a part of an index name: word characters and single underscores in
place of everything else, without underscores at the ends. -/
def indexNamePart (name : String) : String :=
  let squashed := (squashNonWord false name.toList).dropWhile (· == '_')
  String.ofList (squashed.reverse.dropWhile (· == '_')).reverse

/-- The name of the index of `table` on `columns`. -/
def indexName (table : String) (columns : List String) : String :=
  "idx_" ++ "_".intercalate ((table :: columns).map indexNamePart)

end IndexAdvice
