import IndexAdvice.Proofs.CommentedCode
import IndexAdvice.Proofs.RelatedLists
import IndexAdvice.Proofs.Soundness

/-!
# Where a call gets its columns

The columns of a call are those of the last declaration of its subject before it that has any. Where
its own source has none, declarations of other sources count, if they are to be consulted, and the
last of these. `Supplied` says this of the declarations as they stand in the texts, and
`call_fields_supplied` that the queries of a report which are not nested have the columns so
supplied to their calls, one after the other.

Declarations that are skipped are in no list. The test for what is skipped is right wherever a line
tells, so there a declaration in a comment supplies nothing. After code on its line, a comment goes
unnoticed: `commented_struct_supplies`.
-/

namespace IndexAdvice

namespace Source

open Text

variable {d : Declaration} {own elsewhere : List Declaration} {subject : String}
  {position skip : ℕ} {place : Place} {xs : List Char} {crossFile : Bool}

/-! ### The declaration that supplies a call -/

/-- Whether a declaration has columns for a subject. -/
def Declaration.Supplies (d : Declaration) (subject : String) : Prop :=
  d.name = subject ∧ d.fields ≠ []

/-- Whether a declaration is the last one of a list that has a property. -/
def IsLast (p : Declaration → Prop) (ds : List Declaration) (d : Declaration) : Prop :=
  p d ∧ ∃ before after, ds = before ++ d :: after ∧ ∀ later ∈ after, ¬ p later

/-- The columns for a call of a subject at a position of a source with its own declarations, where
there are others elsewhere. -/
inductive Supplied (crossFile : Bool) (own elsewhere : List Declaration) (subject : String)
    (position : ℕ) : List String → Prop
  | preceding {d : Declaration} :
      IsLast (fun d => d.Supplies subject ∧ d.position < position) own d →
      Supplied crossFile own elsewhere subject position d.fields
  | elsewhere {d : Declaration} :
      (∀ d ∈ own, d.Supplies subject → position ≤ d.position) → crossFile = true →
      IsLast (·.Supplies subject) elsewhere d →
      Supplied crossFile own elsewhere subject position d.fields
  | nowhere :
      (∀ d ∈ own, d.Supplies subject → position ≤ d.position) →
      (crossFile = true → ∀ d ∈ elsewhere, ¬ d.Supplies subject) →
      Supplied crossFile own elsewhere subject position []

/-- Searching backwards finds the last one that fits. -/
theorem isLast_of_find?_reverse {p : Declaration → Bool} {q : Declaration → Prop}
    {ds : List Declaration} (hpq : ∀ d, p d = true ↔ q d) (h : ds.reverse.find? p = some d) :
    IsLast q ds d := by
  obtain ⟨hd, after, before, hsplit, hafter⟩ := List.find?_eq_some_iff_append.mp h
  refine ⟨(hpq d).mp hd, before.reverse, after.reverse, ?_, fun later hlater hq => ?_⟩
  · rw [← ds.reverse_reverse, hsplit, List.reverse_append, List.reverse_cons, List.append_assoc,
      List.singleton_append]
  · have hnot := hafter later (List.mem_reverse.mp hlater)
    rw [(hpq later).mpr hq] at hnot
    exact absurd hnot (by decide)

theorem not_of_find?_reverse {p : Declaration → Bool} {q : Declaration → Prop}
    {ds : List Declaration} (hpq : ∀ d, p d = true ↔ q d) (h : ds.reverse.find? p = none) :
    ∀ d ∈ ds, ¬ q d := fun d hd hq =>
  List.find?_eq_none.mp h d (List.mem_reverse.mpr hd) ((hpq d).mpr hq)

/-- The last declaration of the subject before the position that has columns, if there is one. -/
theorem closestFields_cases (own : List Declaration) (subject : String) (position : ℕ) :
    (∃ d, IsLast (fun d => d.Supplies subject ∧ d.position < position) own d ∧
      closestFields own.reverse subject position = d.fields) ∨
    (∀ d ∈ own, d.Supplies subject → position ≤ d.position) ∧
      closestFields own.reverse subject position = [] := by
  have hpq (d : Declaration) :
      (decide (d.position < position) && d.name == subject && !d.fields.isEmpty) = true ↔
        d.Supplies subject ∧ d.position < position := by
    simp only [Declaration.Supplies, Bool.and_eq_true, decide_eq_true_eq, beq_iff_eq,
      Bool.not_eq_true', List.isEmpty_eq_false_iff]
    tauto
  rw [closestFields]
  cases hfound : own.reverse.find? fun d =>
      decide (d.position < position) && d.name == subject && !d.fields.isEmpty with
  | some d => exact .inl ⟨d, isLast_of_find?_reverse hpq hfound, rfl⟩
  | none =>
    refine .inr ⟨fun d hd hsupplies => ?_, rfl⟩
    have hnot := not_of_find?_reverse hpq hfound d hd
    exact Nat.le_of_not_lt fun hlt => hnot ⟨hsupplies, hlt⟩

/-- The columns listed under a subject are those of the first declaration that has any for it. -/
theorem lookup_map_fields (ds : List Declaration) (subject : String) :
    ((ds.filter (!·.fields.isEmpty)).map fun d => (d.name, d.fields)).lookup subject =
      (ds.find? fun d => !d.fields.isEmpty && subject == d.name).map (·.fields) := by
  induction ds with
  | nil => rfl
  | cons d ds ih =>
    rw [List.filter_cons, List.find?_cons]
    cases d.fields.isEmpty with
    | true => exact ih
    | false =>
      rw [Bool.not_false, if_pos rfl, List.map_cons, List.lookup_cons, ih, Bool.true_and]
      cases subject == d.name <;> rfl

/-! ### Positions of declarations -/

/-- Heads are found from the place on at which the search starts. -/
theorem le_position_of_mem_headsFrom {h : Head} (hh : h ∈ headsFrom place skip xs) :
    place.position ≤ h.place.position := by
  obtain ⟨front, -, -, -, -, hplace⟩ := startsIn_of_mem_headsFrom hh
  rw [hplace, Place.position_after]
  exact Nat.le_add_right _ _

/-- Heads are found in the order of their places, so the last one found is the last one written. -/
theorem pairwise_headsFrom (place : Place) (skip : ℕ) (xs : List Char) :
    (headsFrom place skip xs).Pairwise fun h h' => h.place.position < h'.place.position := by
  induction xs generalizing place skip with
  | nil => exact .nil
  | cons c xs ih =>
    cases skip with
    | succ k => exact ih _ _
    | zero =>
      rw [headsFrom]
      split
      · split
        · refine List.pairwise_cons.mpr ⟨fun h hh => ?_, ih _ _⟩
          exact Nat.lt_of_succ_le (le_position_of_mem_headsFrom hh)
        · exact ih _ _
      · exact ih _ _

/-- Declarations are listed in the order in which they start. -/
theorem pairwise_declarations (file : String) (text : List Char) :
    (declarations file text).Pairwise fun d d' => d.position < d'.position := by
  rw [declarations, List.pairwise_map]
  exact (pairwise_headsFrom _ _ _).filter _

/-- A declaration starts at a name in its text, and is not skipped there. -/
theorem start_of_mem_declarations {file : String} {text : List Char}
    (hd : d ∈ declarations file text) :
    text[d.position]?.any isIdentStart = true ∧ skipsAt text d.position = false := by
  obtain ⟨h, hh, rfl⟩ := List.mem_map.mp hd
  obtain ⟨hmem, hlive⟩ := List.mem_filter.mp hh
  have hstart := startsIn_of_mem_headsFrom hmem
  rw [hstart.isCommented] at hlive
  obtain ⟨front, c, rest, rfl, hc, hplace⟩ := hstart
  refine ⟨?_, by simpa using hlive⟩
  rw [hplace, Place.position_after, Place.start, Nat.zero_add,
    List.getElem?_append_right (Nat.le_refl _), Nat.sub_self]
  exact hc

end Source

/-! ### Queries that are not nested -/

namespace Query

variable {catalog : Catalog} {splitOr : Bool} {q : Query}

/-- What is nested in a nested query is nested, too. -/
theorem isNested_of_mem_records (hq : q.isNested = true) {record : Query × Clauses}
    (h : record ∈ q.records catalog splitOr) : record.1.isNested = true := by
  induction q using nestedInduction catalog with
  | step q ih =>
    rw [records_eq, List.mem_cons, List.mem_flatMap] at h
    rcases h with rfl | ⟨g, hg, h⟩
    · exact hq
    · exact ih g hg rfl h

/-- Of a query and those nested in it, the query alone is not nested. -/
theorem filter_records (hq : q.isNested = false) :
    ((q.records catalog splitOr).map (·.1)).filter (!·.isNested) = [q] := by
  have hnested : ((q.groups.flatMap fun g => (g.query catalog q).records catalog splitOr).map
      (·.1)).filter (!·.isNested) = [] := by
    refine List.filter_eq_nil_iff.mpr fun inner hinner => ?_
    obtain ⟨record, hrecord, rfl⟩ := List.mem_map.mp hinner
    obtain ⟨g, -, hrecord⟩ := List.mem_flatMap.mp hrecord
    rw [isNested_of_mem_records (q := g.query catalog q) rfl hrecord]
    decide
  rw [records_eq, List.map_cons, List.filter_cons_of_pos (by simp [hq]), hnested]

end Query

namespace Advisor

open Source

/-- The last declaration of the subject in other sources that has columns, if there is one. -/
theorem lookup_fieldsElsewhere_cases (declared : List (List Declaration)) (i : ℕ)
    (subject : String) :
    (∃ d, IsLast (·.Supplies subject) (declared.eraseIdx i).flatten d ∧
      (fieldsElsewhere declared i).lookup subject = some d.fields) ∨
    (∀ d ∈ (declared.eraseIdx i).flatten, ¬ d.Supplies subject) ∧
      (fieldsElsewhere declared i).lookup subject = none := by
  have hpq (d : Declaration) :
      (!d.fields.isEmpty && subject == d.name) = true ↔ d.Supplies subject := by
    simp only [Declaration.Supplies, Bool.and_eq_true, beq_iff_eq, Bool.not_eq_true',
      List.isEmpty_eq_false_iff, eq_comm (a := subject)]
    exact and_comm
  rw [fieldsElsewhere, lookup_map_fields]
  cases hfound : (declared.eraseIdx i).flatten.reverse.find? fun d =>
      !d.fields.isEmpty && subject == d.name with
  | some d => exact .inl ⟨d, isLast_of_find?_reverse hpq hfound, rfl⟩
  | none => exact .inr ⟨not_of_find?_reverse hpq hfound, rfl⟩

/-- The columns of a call are supplied to it. -/
theorem supplied_callFields (crossFile : Bool) (own : List Declaration)
    (declared : List (List Declaration)) (i : ℕ) (c : Call) :
    Supplied crossFile own (declared.eraseIdx i).flatten c.subject c.place.position
      (callFields own.reverse (if crossFile then fieldsElsewhere declared i else []) c) := by
  rw [callFields]
  rcases closestFields_cases own c.subject c.place.position with
    ⟨d, hlast, hfields⟩ | ⟨hnone, hfields⟩
  · have hne : d.fields.isEmpty = false := by simpa using hlast.1.1.2
    rw [hfields, hne]
    exact .preceding hlast
  · rw [hfields]
    cases crossFile with
    | false => exact .nowhere hnone fun hcross => absurd hcross (by decide)
    | true =>
      rcases lookup_fieldsElsewhere_cases declared i c.subject with
        ⟨d, hlast, hlookup⟩ | ⟨hnowhere, hlookup⟩
      · simp only [List.isEmpty_nil, if_true, hlookup, Option.getD_some]
        exact .elsewhere hnone rfl hlast
      · simp only [List.isEmpty_nil, if_true, hlookup, Option.getD_none]
        exact .nowhere hnone fun _ => hnowhere

/-- A call that gives a query, in one of several source texts. -/
structure CallSite where
  /-- The name and the text of the source. -/
  file : String × String
  /-- The number of the source. -/
  index : ℕ
  call : Call

variable (advisor : Advisor)

/-- The calls that give queries, source after source. -/
def callSites (texts : List (String × String)) : List CallSite :=
  texts.zipIdx.flatMap fun (file, i) =>
    ((calls (effectiveMethods advisor.settings.queryMethods) file.2.toList).filter givesQuery).map
      (⟨file, i, ·⟩)

/-- The queries of a report that are not nested are those of the source texts. -/
theorem topQueries_analyzeSources (source : String) (texts : List (String × String)) :
    ((advisor.analyzeSources source texts).queries.filter (!·.isNested)) =
      texts.zipIdx.flatMap fun (file, i) =>
        Source.queries advisor.settings.queryMethods
          (if advisor.settings.crossFileDeclarations then
            fieldsElsewhere (declarationsOf texts) i else []) file.1 file.2.toList := by
  have hself (queries : List Query) (catalog : Catalog) (splitOr : Bool)
      (htop : ∀ q ∈ queries, q.isNested = false) :
      ((queries.flatMap (Query.records catalog splitOr)).map (·.1)).filter (!·.isNested) =
        queries := by
    rw [List.map_flatMap, List.filter_flatMap,
      List.flatMap_congr fun q hq => Query.filter_records (htop q hq)]
    exact List.flatMap_singleton' queries
  rw [analyzeSources, reportOn]
  -- each query of a call is reported with its nested ones, of which none is left
  refine hself _ _ _ fun q hq => ?_
  obtain ⟨⟨file, i⟩, -, hq⟩ := List.mem_flatMap.mp hq
  obtain ⟨c, -, rfl⟩ := List.mem_map.mp hq
  rfl

/-- **Columns come from the right declaration.** The queries of a report that are not nested are
those of the calls in its sources, one after the other. Each has the columns of the last declaration
of its subject with columns that starts before the call in the same source; without one, those of
the last such declaration of all other sources, if these are to be consulted; and otherwise none.
Declarations are in the order in which they start, and none of them is skipped: where no line
comment hides an opening mark, and the line up to the declaration tells, it is in no comment. -/
theorem call_fields_supplied (advisor : Advisor) (source : String)
    (texts : List (String × String)) :
    List.Forall₂
      (fun q site => texts[site.index]? = some site.file ∧ q.table = site.call.subject ∧
        StartsIn (Place.start site.file.2.toList) site.file.2.toList site.call.place ∧
        Supplied advisor.settings.crossFileDeclarations
          (declarations site.file.1 site.file.2.toList)
          ((declarationsOf texts).eraseIdx site.index).flatten site.call.subject
          site.call.place.position q.fields)
      ((advisor.analyzeSources source texts).queries.filter (!·.isNested))
      (advisor.callSites texts) ∧
    ∀ file ∈ texts, let text := file.2.toList
      (declarations file.1 text).Pairwise (fun d d' => d.position < d'.position) ∧
      ∀ d ∈ declarations file.1 text, skipsAt text d.position = false ∧
        ((∀ p ∈ partsOf text, p.HidesNoOpener) →
          (partIn? text d.position).any Part.isBlock = true ∨
            IsTelling (lastLine (text.take d.position)) →
          inComment text d.position = false) := by
  refine ⟨?_, fun file _ => ⟨pairwise_declarations _ _, fun d hd => ?_⟩⟩
  · rw [topQueries_analyzeSources, callSites]
    -- both lists go through the sources, and in each of them through the same calls
    have hself : List.Forall₂ (· = ·) texts.zipIdx texts.zipIdx := List.forall₂_eq_eq_eq ▸ rfl
    refine forall₂_flatMap hself fun indexed hindexed _ heq => ?_
    subst heq
    obtain ⟨file, i⟩ := indexed
    simp only [Source.queries, List.forall₂_map_left_iff, List.forall₂_map_right_iff]
    refine List.forall₂_same.mpr fun c hc => ?_
    refine ⟨List.mk_mem_zipIdx_iff_getElem?.mp hindexed, rfl, ?_, supplied_callFields _ _ _ i c⟩
    exact startsIn_of_mem_callsFrom (List.mem_filter.mp hc).1
  · obtain ⟨hstart, hlive⟩ := start_of_mem_declarations hd
    refine ⟨hlive, fun hopeners htold => ?_⟩
    rw [← skipsAt_eq_inComment hopeners hstart htold]
    exact hlive

/-! ### Repeated, empty and commented declarations -/

/-- An advisor that looks for one kind of call. -/
def finding : Advisor :=
  ⟨{ queryMethods := ["find"] }, .of .postgres none⟩

/-- Tasks are declared twice in one file. In the other they are declared after their call and
without columns, and users are declared, in a comment once more. -/
def taskFiles : List (String × String) :=
  [("task.rs", "struct Task \x7bid:u8\x7d\nstruct Task \x7bdue:u8\x7d"),
    ("main.rs", "Task::find(\"due = 1\")\nstruct Task \x7b\x7d\nstruct User \x7bid:u8\x7d\n" ++
      "// struct User \x7bname:u8\x7d\nUser::find(\"id = 1\")")]

/-- The call for tasks gets the last columns elsewhere, that for users those before it, and no
declaration that supplies them is in a comment. -/
theorem taskFiles_supplied :
    (finding.analyzeSources "." taskFiles).queries.map (fun q => (q.table, q.fields)) =
        [("Task", ["due"]), ("User", ["id"])] ∧
      ∀ file ∈ taskFiles, ∀ d ∈ declarations file.1 file.2.toList,
        inComment file.2.toList d.position = false := by
  refine ⟨by decide +kernel, fun file hfile d hd => ?_⟩
  obtain ⟨-, hdeclared⟩ := call_fields_supplied finding "." taskFiles
  have hopeners : ∀ file ∈ taskFiles, ∀ p ∈ partsOf file.2.toList, p.HidesNoOpener := by
    decide +kernel
  have htold : ∀ file ∈ taskFiles, ∀ d ∈ declarations file.1 file.2.toList,
      (partIn? file.2.toList d.position).any Part.isBlock = true ∨
        IsTelling (lastLine (file.2.toList.take d.position)) := by
    decide +kernel
  exact ((hdeclared file hfile).2 d hd).2 (hopeners file hfile) (htold file hfile d hd)

/-- A declaration in a comment after code supplies the call behind it. -/
theorem commented_struct_supplies :
    let text := "let n = 1; // struct A \x7b id: i64 \x7d\nA::find(\"id = $1\");\n"
    (declarations "" text.toList).map
        (fun d => (d.name, d.fields, inComment text.toList d.position)) = [("A", ["id"], true)] ∧
      (finding.analyzeText "" text).queries.map (fun q => (q.table, q.fields)) =
        [("A", ["id"])] := by
  decide +kernel

end Advisor

end IndexAdvice
