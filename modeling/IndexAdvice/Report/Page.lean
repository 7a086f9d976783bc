import IndexAdvice.Report
import IndexAdvice.Text.Trim

/-!
# The report as a web page

A page is a sequence of fragments: markup, which is written as it stands, and text, whose special
characters are replaced by entities. Whatever a report holds becomes text, so it adds no markup.
-/

namespace IndexAdvice

namespace Page

/-- A part of a page. -/
inductive Fragment where
  | markup (html : String)
  | text (content : String)
deriving DecidableEq, Repr

/-- The entity of a character that is special in markup, or the character itself. -/
def entity (c : Char) : List Char :=
  if c == '&' then "&amp;".toList
  else if c == '<' then "&lt;".toList
  else if c == '>' then "&gt;".toList
  else if c == '\'' then "&#39;".toList
  else if c == '"' then "&#34;".toList
  else [c]

/-- The characters of a fragment. -/
def Fragment.render : Fragment → List Char
  | .markup html => html.toList
  | .text content => content.toList.flatMap entity

/-- The text of a page. -/
def render (page : List Fragment) : String :=
  String.ofList (page.flatMap Fragment.render)

/-! ### The parts of the page -/

/-- The style sheet: selectors with their declarations. -/
def styles : List (String × List String) :=
  [("body", ["font-family: -apple-system, \"Segoe UI\", Helvetica, Arial, sans-serif",
      "margin: 2rem", "color: #1f2933", "background: #f7f9fb"]),
    ("h1", ["margin-bottom: 0.2rem"]),
    (".meta", ["color: #52606d", "margin-bottom: 1.5rem"]),
    (".card", ["background: #fff", "border: 1px solid #d9e2ec", "border-radius: 6px",
      "padding: 1rem 1.25rem", "margin-bottom: 1.25rem"]),
    ("table", ["border-collapse: collapse", "width: 100%"]),
    ("th, td", ["text-align: left", "padding: 0.45rem 0.6rem", "border-bottom: 1px solid #e4e7eb",
      "vertical-align: top"]),
    ("th", ["background: #f0f4f8", "font-weight: 600"]),
    ("code, pre", ["font-family: \"SFMono-Regular\", Consolas, monospace", "font-size: 0.85rem"]),
    ("pre", ["margin: 0", "white-space: pre-wrap", "color: #0b6e99"]),
    (".reason", ["color: #52606d", "font-size: 0.9rem"]),
    (".notes li", ["margin-bottom: 0.3rem"]),
    (".empty", ["color: #2f8132", "font-weight: 600"])]

/-- The line of a selector in the style sheet. -/
def styleLine (selector : String) (declarations : List String) : String :=
  "  " ++ selector ++ " \x7b " ++ "; ".intercalate declarations ++ "; \x7d\n"

/-- Everything before the first value. -/
def top : String :=
  "<!DOCTYPE html>\n<html lang=\"en\">\n<head>\n<meta charset=\"utf-8\">\n" ++
  "<title>IndexScout Report</title>\n<style>\n" ++
  String.join (styles.map fun rule => styleLine rule.1 rule.2) ++
  "</style>\n</head>\n<body>\n<h1>IndexScout Report</h1>\n<div class=\"meta\">\n" ++
  "  Source: <code>"

/-- The source, the numbers and the dialect. -/
def summary (now : Moment) (r : Report) : List Fragment :=
  [.markup top, .text (if r.source.isEmpty then "-" else r.source),
    .markup "</code> &middot;\n  ", .text s!"{r.filesScanned}",
    .markup " files &middot;\n  ", .text s!"{r.queries.length}",
    .markup " queries &middot;\n  generated ", .text now.phrase, .markup " by IndexScout ",
    .text version,
    .markup "\n</div>\n\n<div class=\"card\">\n  <strong>Dialect</strong>: ",
    .text r.capabilities.summary, .markup "\n</div>\n\n"]

/-- The row of a recommendation. -/
def recommendationRow (rec : Recommendation) : List Fragment :=
  [.markup "\n      <tr>\n        <td><code>", .text rec.name,
    .markup "</code></td>\n        <td>\n          ", .text (", ".intercalate rec.columns),
    .markup "\n          "] ++
  (if rec.covering.isEmpty then []
    else [.markup "<br><span class=\"reason\">include: ", .text (", ".intercalate rec.covering),
      .markup "</span>"]) ++
  [.markup "\n        </td>\n        <td><pre>", .text rec.statement,
    .markup "</pre></td>\n        <td class=\"reason\">", .text rec.reason,
    .markup "</td>\n        <td><code>", .text rec.source,
    .markup "</code><br><span class=\"reason\">", .text (Text.shorten 80 rec.sql),
    .markup "</span></td>\n      </tr>\n    "]

/-- The recommendations for a table. -/
def tableCard (table : String) (recs : List Recommendation) : List Fragment :=
  [.markup "\n<div class=\"card\">\n  <h2>", .text table,
    .markup "</h2>\n  <table>\n    <thead>\n      <tr><th>Index</th><th>Columns</th>",
    .markup "<th>Statement</th><th>Reason</th><th>Source</th></tr>\n    </thead>",
    .markup "\n    <tbody>\n    "] ++
  recs.flatMap recommendationRow ++
  [.markup "\n    </tbody>\n  </table>\n</div>\n"]

/-- All recommendations, or a line that says there are none. -/
def recommendations (r : Report) : List Fragment :=
  (if r.recommendations.isEmpty then
    [.markup "\n<div class=\"card empty\">No index recommendations.</div>\n"] else []) ++
  [.markup "\n\n"] ++ r.byTable.flatMap (fun (table, recs) => tableCard table recs) ++
  [.markup "\n\n"]

/-- The notes, if there are any. -/
def notes (r : Report) : List Fragment :=
  (if r.notes.isEmpty then []
    else [.markup "\n<div class=\"card notes\">\n  <h2>Notes</h2>\n  <ul>\n  "] ++
      r.notes.flatMap (fun note =>
        [.markup "\n    <li>", .text note, .markup "</li>\n  "]) ++
      [.markup "\n  </ul>\n</div>\n"]) ++
  [.markup "\n\n"]

/-- The row of a duplicate. -/
def duplicateRow (d : Duplicate) : List Fragment :=
  [.markup "\n      <tr>\n        <td>", .text d.table, .markup "</td>\n        <td>",
    .text (", ".intercalate d.columns), .markup "</td>\n        <td><code>",
    .text d.duplicateOf, .markup "</code></td>\n        <td><code>", .text d.source,
    .markup "</code></td>\n      </tr>\n    "]

/-- The duplicates, if there are any. -/
def duplicates (r : Report) : List Fragment :=
  (if r.duplicates.isEmpty then []
    else [.markup "\n<div class=\"card\">\n  <h2>Folded Duplicates</h2>\n  <table>\n    <thead>",
        .markup "<tr><th>Table</th><th>Columns</th><th>Same As</th><th>Source</th></tr></thead>",
        .markup "\n    <tbody>\n    "] ++
      r.duplicates.flatMap duplicateRow ++
      [.markup "\n    </tbody>\n  </table>\n</div>\n"]) ++
  [.markup "\n\n"]

/-- The row of a hotspot. -/
def hotspotRow (h : JoinGraph.Hotspot) : List Fragment :=
  [.markup "\n      <tr><td>", .text h.table, .markup "</td><td>", .text s!"{h.joins}",
    .markup "</td><td>", .text s!"{h.joinedBy}", .markup "</td></tr>\n    "]

/-- The hotspots of the join graph, if there are any. -/
def hotspots (r : Report) : List Fragment :=
  [.markup "\n"] ++
  (if r.joinGraph.hotspots.isEmpty then []
    else [.markup "\n<div class=\"card\">\n  <h2>Join Hotspots</h2>\n  <table>\n    <thead>",
        .markup "<tr><th>Table</th><th>Joins</th><th>Joined By</th></tr></thead>",
        .markup "\n    <tbody>\n    "] ++
      r.joinGraph.hotspots.flatMap hotspotRow ++
      [.markup "\n    </tbody>\n  </table>\n</div>\n"]) ++
  [.markup "\n</body>\n</html>"]

/-- The page of a report that is written at the given time. -/
def ofReport (now : Moment) (r : Report) : List Fragment :=
  summary now r ++ recommendations r ++ notes r ++ duplicates r ++ hotspots r

end Page

/-- The report as a web page that is written at the given time. -/
def Report.toHtml (now : Moment) (r : Report) : String :=
  Page.render (Page.ofReport now r)

end IndexAdvice
