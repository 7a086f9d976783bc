import IndexAdvice.Proofs.FirstArrivals
import IndexAdvice.Proofs.RelatedLists
import IndexAdvice.Report.Page

/-!
# The markup of a page

The characters `<`, `>` and `"` make the tags of a page and the bounds of their attributes. Only the
markup of its fragments holds any: a text is written with entities, whatever characters it has
(`Page.markupOf_render`), and is read back from them as it was (`Page.unescape_render`). The markup
depends on how many tables, recommendations, notes, duplicates and hotspots a report has, its
`pageShape`, and on nothing that it says about them: `markup_of_pageShape`.
-/

namespace IndexAdvice

/-- What of a report can be seen in the markup of its page. -/
structure PageShape where
  /-- For each table, which of its recommendations have no further columns. -/
  tables : List (List Bool)
  notes : Nat
  duplicates : Nat
  hotspots : Nat
deriving DecidableEq

/-- The shape of the page of a report. -/
def Report.pageShape (r : Report) : PageShape where
  tables := r.byTable.map fun group => group.2.map (·.covering.isEmpty)
  notes := r.notes.length
  duplicates := r.duplicates.length
  hotspots := r.joinGraph.hotspots.length

namespace Page

/-! ### Markup and text -/

/-- Whether a character belongs to tags where it is written as it stands. -/
def isMarkup (c : Char) : Bool :=
  c == '<' || c == '>' || c == '"'

/-- The markup characters of a text, in order. -/
def markupOf (s : String) : List Char :=
  s.toList.filter isMarkup

/-- The markup of a fragment. -/
def Fragment.html? : Fragment → Option String
  | .markup html => some html
  | .text _ => none

/-- What is left of a page without its texts. -/
def skeleton (page : List Fragment) : List String :=
  page.filterMap Fragment.html?

/-- The characters that are special in markup, with their entities. -/
def entities : List (Char × String) :=
  [('&', "&amp;"), ('<', "&lt;"), ('>', "&gt;"), ('\'', "&#39;"), ('"', "&#34;")]

/-- What is written for a character: an entity for a special one, and any other as it stands. -/
theorem entity_cases (c : Char) :
    (c, String.ofList (entity c)) ∈ entities ∨
      entity c = [c] ∧ c ≠ '&' ∧ isMarkup c = false := by
  by_cases h : c ∈ ['&', '<', '>', '\'', '"']
  · simp only [List.mem_cons, List.not_mem_nil, or_false] at h
    rcases h with rfl | rfl | rfl | rfl | rfl
    all_goals exact .inl (by decide)
  · simp only [List.mem_cons, List.not_mem_nil, or_false, not_or] at h
    obtain ⟨hamp, hlt, hgt, happ, hquote⟩ := h
    exact .inr ⟨by simp [entity, hamp, hlt, hgt, happ, hquote], hamp,
      by simp [isMarkup, hlt, hgt, hquote]⟩

/-- **Escaping.** No character is written with markup characters. -/
theorem filter_entity (c : Char) : (entity c).filter isMarkup = [] := by
  rcases entity_cases c with hentity | ⟨hself, -, hmarkup⟩
  · have hall : ∀ p ∈ entities, p.2.toList.filter isMarkup = [] := by decide
    simpa using hall _ hentity
  · rw [hself, List.filter_singleton, hmarkup]
    rfl

/-- **Text adds no markup.** The markup characters of a page are those of its skeleton. -/
theorem markupOf_render (page : List Fragment) :
    markupOf (render page) = (skeleton page).flatMap markupOf := by
  rw [markupOf, render, String.toList_ofList, List.filter_flatMap]
  induction page with
  | nil => rfl
  | cons f page ih =>
    rw [List.flatMap_cons, ih]
    cases f with
    | markup html => rfl
    | text content =>
      have htext : (Fragment.text content).render.filter isMarkup = [] := by
        rw [Fragment.render, List.filter_flatMap, List.flatMap_eq_nil_iff]
        exact fun c _ => filter_entity c
      rw [htext]
      rfl

/-- What a reader of the page sees in place of the characters of a text. -/
def unescape : List Char → List Char
  | '&' :: 'a' :: 'm' :: 'p' :: ';' :: cs => '&' :: unescape cs
  | '&' :: 'l' :: 't' :: ';' :: cs => '<' :: unescape cs
  | '&' :: 'g' :: 't' :: ';' :: cs => '>' :: unescape cs
  | '&' :: '#' :: '3' :: '9' :: ';' :: cs => '\'' :: unescape cs
  | '&' :: '#' :: '3' :: '4' :: ';' :: cs => '"' :: unescape cs
  | c :: cs => c :: unescape cs
  | [] => []

/-- An escaped character is read back. -/
theorem unescape_entity (c : Char) (cs : List Char) :
    unescape (entity c ++ cs) = c :: unescape cs := by
  rcases entity_cases c with hentity | ⟨hself, hamp, -⟩
  · simp only [entities, List.mem_cons, List.not_mem_nil, or_false, Prod.mk.injEq] at hentity
    rcases hentity with ⟨rfl, -⟩ | ⟨rfl, -⟩ | ⟨rfl, -⟩ | ⟨rfl, -⟩ | ⟨rfl, -⟩
    all_goals rfl
  · rw [hself, List.singleton_append, unescape]
    all_goals exact fun _ h => absurd h hamp

/-- **Text is escaped once.** What is read from the entities of a text is the text. -/
theorem unescape_render (s : String) : unescape (Fragment.text s).render = s.toList := by
  rw [Fragment.render]
  induction s.toList with
  | nil => rfl
  | cons c cs ih => rw [List.flatMap_cons, unescape_entity, ih]

/-! ### The skeleton of a report -/

section Skeleton

variable {α : Type} {r r' : Report}

theorem skeleton_append (page more : List Fragment) :
    skeleton (page ++ more) = skeleton page ++ skeleton more :=
  List.filterMap_append

/-- Rows of the same kinds have the same skeletons one after the other. -/
theorem skeleton_flatMap {β : Type} {row : α → List Fragment} (kind : α → β) {xs ys : List α}
    (h : xs.map kind = ys.map kind)
    (hrow : ∀ x y, kind x = kind y → skeleton (row x) = skeleton (row y)) :
    skeleton (xs.flatMap row) = skeleton (ys.flatMap row) := by
  rw [skeleton, skeleton, List.filterMap_flatMap, List.filterMap_flatMap]
  exact flatMap_eq_of_forall₂ (forall₂_of_map_eq h.symm) fun x y hkind => hrow x y hkind.symm

/-- Where the texts of a row are all that varies, the number of rows decides. -/
theorem skeleton_flatMap_of_length {row : α → List Fragment} {xs ys : List α}
    (h : xs.length = ys.length) (hrow : ∀ x y, skeleton (row x) = skeleton (row y)) :
    skeleton (xs.flatMap row) = skeleton (ys.flatMap row) := by
  refine skeleton_flatMap (fun _ => ()) ?_ fun x y _ => hrow x y
  rw [List.map_const', List.map_const', h]

theorem isEmpty_eq_of_length {xs ys : List α} (h : xs.length = ys.length) :
    xs.isEmpty = ys.isEmpty := by
  rw [Bool.eq_iff_iff, List.isEmpty_iff, List.isEmpty_iff, ← List.length_eq_zero_iff, h,
    List.length_eq_zero_iff]

/-- The markup of a recommendation depends on whether it has covering columns. -/
theorem skeleton_recommendationRow {rec rec' : Recommendation}
    (h : rec.covering.isEmpty = rec'.covering.isEmpty) :
    skeleton (recommendationRow rec) = skeleton (recommendationRow rec') := by
  rw [recommendationRow, recommendationRow, h]
  split <;> rfl

/-- The card of a table has as many rows as recommendations, whatever they say. -/
theorem skeleton_tableCard (table table' : String) {recs recs' : List Recommendation}
    (h : recs.map (·.covering.isEmpty) = recs'.map (·.covering.isEmpty)) :
    skeleton (tableCard table recs) = skeleton (tableCard table' recs') := by
  rw [tableCard, tableCard, skeleton_append, skeleton_append, skeleton_append, skeleton_append,
    skeleton_flatMap _ h fun _ _ => skeleton_recommendationRow]
  rfl

/-- A report has tables if it has recommendations. -/
theorem isEmpty_byTable (r : Report) : r.byTable.isEmpty = r.recommendations.isEmpty := by
  rw [Report.byTable, groupByFirst_eq, List.isEmpty_map]
  cases r.recommendations with
  | nil => rfl
  | cons rec recs => rw [List.map_cons, List.map_cons, List.eraseDups_cons]; rfl

theorem skeleton_recommendations (h : r.pageShape.tables = r'.pageShape.tables) :
    skeleton (recommendations r) = skeleton (recommendations r') := by
  have hempty : r.recommendations.isEmpty = r'.recommendations.isEmpty := by
    have hmap := congrArg List.isEmpty h
    rwa [Report.pageShape, Report.pageShape, List.isEmpty_map, List.isEmpty_map, isEmpty_byTable,
      isEmpty_byTable] at hmap
  rw [recommendations, recommendations, hempty]
  simp only [skeleton_append]
  rw [skeleton_flatMap _ h fun group group' => skeleton_tableCard group.1 group'.1]

theorem skeleton_notes (h : r.notes.length = r'.notes.length) :
    skeleton (notes r) = skeleton (notes r') := by
  rw [notes, notes, isEmpty_eq_of_length h]
  split
  · rfl
  · simp only [skeleton_append]
    rw [skeleton_flatMap_of_length h fun _ _ => rfl]

theorem skeleton_duplicates (h : r.duplicates.length = r'.duplicates.length) :
    skeleton (duplicates r) = skeleton (duplicates r') := by
  rw [duplicates, duplicates, isEmpty_eq_of_length h]
  split
  · rfl
  · simp only [skeleton_append]
    rw [skeleton_flatMap_of_length h fun _ _ => rfl]

theorem skeleton_hotspots (h : r.joinGraph.hotspots.length = r'.joinGraph.hotspots.length) :
    skeleton (hotspots r) = skeleton (hotspots r') := by
  rw [hotspots, hotspots, isEmpty_eq_of_length h]
  split
  · rfl
  · simp only [skeleton_append]
    rw [skeleton_flatMap_of_length h fun _ _ => rfl]

/-- Pages of reports of the same shape differ in their texts only. -/
theorem skeleton_ofReport (now now' : Moment) (h : r.pageShape = r'.pageShape) :
    skeleton (ofReport now r) = skeleton (ofReport now' r') := by
  simp only [ofReport, skeleton_append]
  rw [skeleton_recommendations (congrArg PageShape.tables h),
    skeleton_notes (congrArg PageShape.notes h),
    skeleton_duplicates (congrArg PageShape.duplicates h),
    skeleton_hotspots (congrArg PageShape.hotspots h)]
  rfl

end Skeleton

end Page

open Page

/-- **No text of a report makes markup.** The pages of two reports of the same shape have the same
markup characters, whenever they are written. Each text of a page is seen in it as it is. -/
theorem markup_of_pageShape (now now' : Moment) {r r' : Report} (h : r.pageShape = r'.pageShape) :
    markupOf (r.toHtml now) = markupOf (r'.toHtml now') ∧
    ∀ s, .text s ∈ ofReport now r → unescape (Fragment.text s).render = s.toList := by
  refine ⟨?_, fun s _ => unescape_render s⟩
  rw [Report.toHtml, Report.toHtml, markupOf_render, markupOf_render, skeleton_ofReport now now' h]

/-! ### Texts with markup characters -/

/-- A report in which all that is not a number is one text. -/
def reportOfText (s : String) : Report where
  capabilities := .of .postgres none
  source := s
  filesScanned := 1
  queries := []
  recommendations := [
    { table := s, name := s, columns := [s], covering := [s, s], condition := some s, reason := s
      dialect := .postgres, statement := s, source := s, sql := s, origin := none }]
  duplicates := [{ table := s, columns := [s], duplicateOf := s, source := s, sql := s }]
  notes := [s, s]
  joinGraph := { nodes := [s, s ++ "s"], edges := [{ source := s, target := s ++ "s" }] }

/-- A text that looks like tags leaves the markup of the page as a plain word has it. -/
theorem tags_leave_markup :
    (reportOfText "order").pageShape = (reportOfText "</td><a href=\"x\">").pageShape ∧
    (reportOfText "order").pageShape = ⟨[[false]], 2, 1, 2⟩ ∧
    markupOf ((reportOfText "order").toHtml ⟨"2020-01-02", "03:04:05", ""⟩) =
      markupOf ((reportOfText "</td><a href=\"x\">").toHtml ⟨"<b>", "\"", ""⟩) := by
  have hshape : (reportOfText "order").pageShape =
      (reportOfText "</td><a href=\"x\">").pageShape := by decide +kernel
  exact ⟨hshape, by decide +kernel, (markup_of_pageShape _ _ hshape).1⟩

end IndexAdvice
