import IndexAdvice.Proofs.StructBodies

/-!
# Comments between fields

The end of a body is looked for before its comments are taken out, so a comment between fields
counts for nothing only if its braces nest: a closing brace in it ends the body, and an opening one
makes the body reach further. Where the braces of every body nest, a source of structs declares the
same with its comments and without them (`declarations_uncommented`).
-/

namespace IndexAdvice.Source

open IndexAdvice.Source.Part

variable {gap : List Part} {s : Struct} {structs : List Struct}

/-- The parts of a gap without its comments. -/
def withoutComments (gap : List Part) : List Part :=
  gap.filter (!·.isComment)

/-- A struct without the comments between its fields. -/
def Struct.uncommented (s : Struct) : Struct :=
  { s with
    opening := withoutComments s.opening
    entries := s.entries.map fun e => (e.1, withoutComments e.2) }

theorem mem_withoutComments {p : Part} :
    p ∈ withoutComments gap ↔ p ∈ gap ∧ p.isComment = false := by
  simp [withoutComments]

/-- Comments separate nothing. -/
theorem separates_withoutComments (gap : List Part) :
    separates (withoutComments gap) = separates gap := by
  induction gap with
  | nil => rfl
  | cons p gap ih =>
    rw [separates, separates] at ih
    cases p with
    | code c => simp [separates, withoutComments, isComment, plain, ← ih]
    | line | block => simp [separates, withoutComments, isComment, plain, isSeparator, ← ih]

/-- Without its comments a struct is well written, too. -/
theorem Struct.IsWritten.uncommented (hs : s.IsWritten) : s.uncommented.IsWritten where
  lead := hs.lead
  head := hs.head
  fields := List.forall_mem_map.mpr hs.fields
  opening p hp := hs.opening p (mem_withoutComments.mp hp).1
  gaps := List.forall_mem_map.mpr fun e he p hp => hs.gaps e he p (mem_withoutComments.mp hp).1
  separated := by
    rw [Struct.uncommented, ← List.map_dropLast]
    refine List.forall_mem_map.mpr fun e he => ?_
    rw [separates_withoutComments]
    exact hs.separated e he
  distinct := by
    rw [Struct.uncommented, List.map_map]
    exact hs.distinct

theorem Struct.uncommented_body (s : Struct) : ∀ p ∈ s.uncommented.body, p.isComment = false := by
  have hcodes (cs : List Char) : ∀ p ∈ codes cs, p.isComment = false :=
    List.forall_mem_map.mpr fun _ _ => rfl
  simp only [Struct.body, Struct.uncommented, List.forall_mem_append, List.forall_mem_flatMap,
    List.forall_mem_map]
  exact ⟨fun p hp => (mem_withoutComments.mp hp).2,
    fun e _ => ⟨hcodes _, fun p hp => (mem_withoutComments.mp hp).2⟩⟩

/-- **Comments between fields.** Where the comments are read as they are written and the braces of
every body nest, those in comments included, a source of structs declares the same without the
comments. -/
theorem declarations_uncommented (file : String) {structs : List Struct} {after : List Char}
    (hss : ∀ s ∈ structs, s.IsWritten) (hparts : AreParts (sourceParts structs after))
    (hbraces : ∀ s ∈ structs, bracesAfter 1 (textOf s.body) = some 1)
    (hbreaks : ∀ s ∈ structs.tail, '\n' ∈ s.lead)
    (hafter : ∀ c ∈ after, Text.isBlank c = true) :
    (declarations file (textOf (sourceParts structs after))).map (fun d => (d.name, d.fields)) =
      (declarations file (textOf (sourceParts (structs.map Struct.uncommented) after))).map
        (fun d => (d.name, d.fields)) := by
  have hwritten : ∀ s ∈ structs.map Struct.uncommented, s.IsWritten :=
    List.forall_mem_map.mpr fun s hs => (hss s hs).uncommented
  have hplain : ∀ s ∈ structs.map Struct.uncommented, ∀ p ∈ s.body, p.isComment = false :=
    List.forall_mem_map.mpr fun s _ => s.uncommented_body
  have hbreaks' : ∀ s ∈ (structs.map Struct.uncommented).tail, '\n' ∈ s.lead := by
    rw [← List.map_tail]
    exact List.forall_mem_map.mpr hbreaks
  have houtline : (structs.map Struct.uncommented).map Struct.outline =
      structs.map Struct.outline := by
    rw [List.map_map]
    refine List.map_congr_left fun s _ => ?_
    simp [Struct.outline, Struct.uncommented]
  rw [declarations_of_parts file hss hbraces hbreaks hafter hparts, ← houtline]
  exact (declarations_of_parts file hwritten (fun s hs => (hwritten s hs).braces (hplain s hs))
    hbreaks' hafter (areParts_sourceParts hwritten hplain hafter)).symm

/-- A struct with comments between its fields, one of them with braces. -/
def commentedStruct : Struct where
  lead := []
  head :=
    { gap := " ".toList, name := "User".toList, nameGap := " ".toList, generics := none,
      genericsGap := [], clause := none }
  opening := [code '\n', block " id, then { name } ".toList, code '\n']
  entries :=
    [({ visibility := .everywhere, raw := false, name := "id".toList, type := "i64".toList },
        [code ',', code ' ', line " age: i8,".toList, code '\n']),
      ({ visibility := .inherited, raw := false, name := "name".toList, type := "String".toList },
        [code '\n'])]

/-- The comments do not count. -/
theorem commentedStruct_read :
    (declarations "" (textOf (sourceParts [commentedStruct] []))).map
        (fun d => (d.name, d.fields)) = [("User", ["id", "name"])] := by
  have hbraces : ∀ s ∈ [commentedStruct], bracesAfter 1 (textOf s.body) = some 1 := by
    decide +kernel
  refine Eq.trans (declarations_uncommented "" (by decide +kernel) (by decide +kernel) hbraces
    (by simp) (by simp)) ?_
  decide +kernel

/-- A comment with a closing brace hides the field after it. -/
theorem field_after_brace_lost :
    let commented := "struct A \x7b\n    id: i64, // \x7d\n    name: String,\n\x7d".toList
    let uncommented := "struct A \x7b\n    id: i64, \n    name: String,\n\x7d".toList
    (declarations "" commented).map (fun d => (d.name, d.fields)) = [("A", ["id"])] ∧
      (declarations "" uncommented).map (fun d => (d.name, d.fields)) =
        [("A", ["id", "name"])] := by
  decide +kernel

end IndexAdvice.Source
