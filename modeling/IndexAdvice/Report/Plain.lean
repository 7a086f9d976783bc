import IndexAdvice.Report.Console

/-!
# Printed items as plain text

Items as they appear where no styles can be shown. A style tag leaves no trace, an escaped tag
appears without its backslash, and the cells of a table stand side by side.
-/

namespace IndexAdvice.Console

/-- The text without its style tags. So many `slashes` stand right before the text, and they are not
part of `done`, the result so far, backwards. The first `skip` characters belong to a tag, which
appears if it is `escaped`. -/
def unstyleFrom (slashes skip : Nat) (escaped : Bool) (done : List Char) : List Char → List Char
  | [] => (List.replicate slashes '\\' ++ done).reverse
  | c :: cs =>
    match skip with
    | k + 1 => unstyleFrom 0 k escaped (if escaped then c :: done else done) cs
    | 0 =>
      if c == '\\' then unstyleFrom (slashes + 1) 0 false done cs
      else match tag? (c :: cs) with
        | some (n + 1) =>
          let shown := List.replicate (slashes / 2) '\\' ++ done
          if slashes % 2 == 1 then unstyleFrom 0 n true (c :: shown) cs
          else unstyleFrom 0 n false shown cs
        | _ => unstyleFrom 0 0 false (c :: List.replicate slashes '\\' ++ done) cs

/-- The text without its style tags. -/
def unstyle (s : String) : String :=
  String.ofList (unstyleFrom 0 0 false [] s.toList)

/-- The cells of a row side by side, each on one line. -/
def rowText (cells : List String) : String :=
  " | ".intercalate (cells.map fun cell =>
    String.ofList ((unstyle cell).toList.map fun c => if c == '\n' then ' ' else c))

/-- The lines of an item. -/
def Item.toLines : Item → List String
  | .line text => [unstyle text]
  | .panel text title _ => title.toList.map unstyle ++ [unstyle text]
  | .table title _ columns rows =>
    [unstyle title, rowText (columns.map (·.header))] ++ rows.map rowText

end IndexAdvice.Console
