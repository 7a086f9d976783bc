import IndexAdvice.Proofs.KeyOrder
import IndexAdvice.Proofs.SourceParts
import IndexAdvice.Proofs.StructFields
import IndexAdvice.Proofs.StructHeads

/-!
# Declarations of written structs

A source is written as a sequence of structs, each on a line of its own. Between the fields of a
struct there are gaps of blanks, commas and comments. `declarations_of_parts` reads the structs
back, in order and each with the names of its fields, as long as the comments are read as they are
written, no line comment hides a mark that opens a block comment, no comment has `struct` before a
blank, and the braces of each body nest, those in comments included.

Without comments all of this holds by itself: `declarations_of_structs`.
-/

namespace IndexAdvice.Source

open Text IndexAdvice.Source.Part

/-! ### Written structs -/

/-- Whether a part can stand between fields. -/
def Part.InGap : Part → Prop
  | code c => isBlank c = true ∨ c = ','
  | p => NoHead p.text ∧ p.HidesNoOpener

instance : DecidablePred Part.InGap
  | code c => inferInstanceAs (Decidable (isBlank c = true ∨ c = ','))
  | line content => inferInstanceAs (Decidable
      (NoHead (line content).text ∧ (line content).HidesNoOpener))
  | block content => inferInstanceAs (Decidable
      (NoHead (block content).text ∧ (block content).HidesNoOpener))

/-- Whether there is a separator in a gap, outside its comments. -/
def separates (gap : List Part) : Bool :=
  (gap.flatMap plain).any isSeparator

/-- Code without comments and heads in it. -/
structure IsPlainCode (cs : List Char) : Prop where
  no_line : ¬ ['/', '/'] <:+: cs
  no_block : ¬ ['/', '*'] <:+: cs
  no_head : NoHead cs

instance (cs : List Char) : Decidable (IsPlainCode cs) :=
  decidable_of_iff (¬ ['/', '/'] <:+: cs ∧ ¬ ['/', '*'] <:+: cs ∧ NoHead cs)
    ⟨fun h => ⟨h.1, h.2.1, h.2.2⟩, fun h => ⟨h.no_line, h.no_block, h.no_head⟩⟩

/-- A field whose type and visibility have no comments, attributes or structs in them. -/
structure Field.IsWritten (f : Field) : Prop extends Field.Reads f where
  no_mark : '#' ∉ f.type
  plain_type : IsPlainCode f.type
  plain_scope : IsPlainCode f.visibility.scope

instance (f : Field) : Decidable f.IsWritten :=
  decidable_of_iff (f.Reads ∧ '#' ∉ f.type ∧ IsPlainCode f.type ∧ IsPlainCode f.visibility.scope)
    ⟨fun h => ⟨h.1, h.2.1, h.2.2.1, h.2.2.2⟩,
      fun h => ⟨h.toReads, h.no_mark, h.plain_type, h.plain_scope⟩⟩

/-- A struct in a source. -/
structure Struct where
  /-- The blanks before it. -/
  lead : List Char
  head : StructHead
  /-- The gap before the first field. -/
  opening : List Part
  /-- The fields, each with the gap behind it. -/
  entries : List (Field × List Part)
deriving DecidableEq, Repr

namespace Struct

/-- What stands between the braces of a struct. -/
def body (s : Struct) : List Part :=
  s.opening ++ s.entries.flatMap fun e => codes e.1.text ++ e.2

/-- A struct with the blanks before it. -/
def parts (s : Struct) : List Part :=
  codes s.lead ++ (codes s.head.text ++ (s.body ++ [code '}']))

/-- The name of a struct and those of its fields. -/
def outline (s : Struct) : String × List String :=
  (String.ofList s.head.name, s.entries.map (·.1.listed))

/-- What a struct must keep to. -/
structure IsWritten (s : Struct) : Prop where
  lead : ∀ c ∈ s.lead, isBlank c = true
  head : s.head.IsWritten
  fields : ∀ e ∈ s.entries, e.1.IsWritten
  opening : ∀ p ∈ s.opening, p.InGap
  gaps : ∀ e ∈ s.entries, ∀ p ∈ e.2, p.InGap
  separated : ∀ e ∈ s.entries.dropLast, separates e.2 = true
  distinct : (s.entries.map (·.1.name)).Nodup

instance (s : Struct) : Decidable s.IsWritten :=
  decidable_of_iff ((∀ c ∈ s.lead, isBlank c = true) ∧ s.head.IsWritten ∧
      (∀ e ∈ s.entries, e.1.IsWritten) ∧ (∀ p ∈ s.opening, p.InGap) ∧
      (∀ e ∈ s.entries, ∀ p ∈ e.2, p.InGap) ∧ (∀ e ∈ s.entries.dropLast, separates e.2 = true) ∧
      (s.entries.map (·.1.name)).Nodup)
    ⟨fun ⟨a, b, c, d, e, f, g⟩ => ⟨a, b, c, d, e, f, g⟩,
      fun ⟨a, b, c, d, e, f, g⟩ => ⟨a, b, c, d, e, f, g⟩⟩

end Struct

/-- The parts of a source of structs. -/
def sourceParts (structs : List Struct) (after : List Char) : List Part :=
  structs.flatMap Struct.parts ++ codes after

variable {c : Char} {cs xs ys : List Char} {p : Part} {ps gap front : List Part} {f : Field}
  {s : Struct} {structs : List Struct} {after text : List Char}

/-! ### The fields of a body -/

theorem plain_codes (cs : List Char) : (codes cs).flatMap plain = cs := by
  induction cs with
  | nil => rfl
  | cons c cs ih => exact congrArg (c :: ·) ih

/-- Comments leave blanks. -/
theorem forall_mem_plain (h : ∀ p ∈ gap, p.InGap) :
    ∀ c ∈ gap.flatMap plain, isBlank c = true ∨ c = ',' := by
  intro c hc
  obtain ⟨p, hp, hc⟩ := List.mem_flatMap.mp hc
  have hspace : isBlank ' ' = true := by decide
  cases p with
  | code d =>
    obtain rfl : c = d := List.mem_singleton.mp hc
    exact h _ hp
  | line | block =>
    obtain rfl : c = ' ' := List.mem_singleton.mp hc
    exact .inl hspace

/-- Without comments the body of a struct is its fields with gaps between them. -/
theorem Struct.plain_body (s : Struct) : s.body.flatMap plain =
    s.opening.flatMap plain ++
      (s.entries.map fun e => (e.1, e.2.flatMap plain)).flatMap fun e => e.1.text ++ e.2 := by
  simp only [Struct.body, List.flatMap_append, List.flatMap_assoc, plain_codes, List.flatMap_map]

/-- No attribute is in a gap. -/
theorem replaceAll_attribute?_gap (h : ∀ c ∈ xs, isBlank c = true ∨ c = ',') (ys : List Char) :
    replaceAll attribute? [' '] (xs ++ ys) = xs ++ replaceAll attribute? [' '] ys := by
  refine replaceAll_attribute?_of_not_mem (fun hmem => ?_) ys
  obtain hblank | hcomma := h '#' hmem
  · exact absurd hblank (by decide)
  · exact absurd hcomma (by decide)

/-- Nor is one in a field, so entries stay as they are written. -/
theorem replaceAll_attribute?_entries {entries : List (Field × List Char)}
    (hfields : ∀ e ∈ entries, e.1.IsWritten)
    (hgaps : ∀ e ∈ entries, ∀ c ∈ e.2, isBlank c = true ∨ c = ',') :
    replaceAll attribute? [' '] (entries.flatMap fun e => e.1.text ++ e.2) =
      entries.flatMap fun e => e.1.text ++ e.2 := by
  induction entries with
  | nil => rfl
  | cons e entries ih =>
    obtain ⟨hf, hfields⟩ := List.forall_mem_cons.mp hfields
    obtain ⟨hgap, hgaps⟩ := List.forall_mem_cons.mp hgaps
    rw [List.flatMap_cons, List.append_assoc, hf.toReads.replaceAll_attribute? hf.no_mark,
      replaceAll_attribute?_gap hgap, ih hfields hgaps]

/-- The fields of a body are those written in it. -/
theorem bodyFields_body (hs : s.IsWritten) (hparts : AreParts s.body)
    (hopeners : ∀ p ∈ s.body, p.HidesNoOpener) :
    bodyFields (textOf s.body) = s.entries.map (·.1.listed) := by
  let entries := s.entries.map fun e => (e.1, e.2.flatMap plain)
  have hfields : ∀ e ∈ entries, e.1.IsWritten := List.forall_mem_map.mpr hs.fields
  have hgaps : ∀ e ∈ entries, ∀ c ∈ e.2, isBlank c = true ∨ c = ',' :=
    List.forall_mem_map.mpr fun e he => forall_mem_plain (hs.gaps e he)
  have hseparated : ∀ e ∈ entries.dropLast, e.2.any isSeparator = true := by
    rw [← List.map_dropLast]
    exact List.forall_mem_map.mpr hs.separated
  have hplain : plainBody (textOf s.body) =
      s.opening.flatMap plain ++ entries.flatMap fun e => e.1.text ++ e.2 := by
    rw [plainBody, replaceAll_comments hparts hopeners, Struct.plain_body,
      replaceAll_attribute?_gap (forall_mem_plain hs.opening),
      replaceAll_attribute?_entries hfields hgaps]
  have hempty : Holds none [] := by simp [Holds]
  obtain ⟨before, held, hheld, hread⟩ :=
    fieldsFrom_gap (forall_mem_plain hs.opening) hempty (by simp) none
  have hwritten : fieldsFrom none [] (plainBody (textOf s.body)) = s.entries.map (·.1.listed) := by
    rw [hplain, hread, fieldsFrom_written (fun e he => (hfields e he).toReads) hgaps hseparated
      (by simpa using hheld)]
    simp [entries]
  have hdistinct : (s.entries.map (·.1.listed)).Nodup := by
    have hnames := hs.distinct.map (f := String.ofList) fun _ _ => String.ofList_inj.mp
    rwa [List.map_map] at hnames
  exact (congrArg List.eraseDups hwritten).trans (eraseDups_eq_self hdistinct)

/-! ### Texts without heads between structs -/

theorem noHead_of_isBlank (h : ∀ c ∈ cs, isBlank c = true) : NoHead cs :=
  noHead_of_not_mem fun hmem => absurd (h 's' hmem) (by decide)

theorem any_getLast?_of_isBlank (h : ∀ c ∈ cs, isBlank c = true) :
    cs.getLast?.any isWordChar = false := by
  cases hlast : cs.getLast? with
  | none => rfl
  | some c => exact (Piece.breaks_of_isBlank (h c (List.mem_of_getLast? hlast))).isWordChar

/-- A name before a sign is not `struct` before a blank. -/
theorem noHead_name {name : List Char} (hname : IsWord name) (hword : isWordChar c = false)
    (hblank : isBlank c = false) : NoHead (name ++ [c]) := by
  intro front rest heq hfront
  obtain ⟨left, rfl, hleft⟩ | ⟨part, rfl, hpart⟩ := List.append_eq_append_iff.mp heq
  · have := congrArg List.length hleft
    simp at this
    omega
  · obtain rfl : front = [] := by
      by_contra hne
      obtain ⟨d, hlast⟩ := Option.ne_none_iff_exists'.mp (List.getLast?_eq_none_iff.not.mpr hne)
      have hd := hname d (List.mem_append_left part (List.mem_of_getLast? hlast))
      simp [hlast, hd] at hfront
    cases rest with
    | nil =>
      have hc : c ∈ "struct".toList := by
        rw [← List.append_nil "struct".toList, hpart]
        simp
      have hstruct : IsWord "struct".toList := by decide
      exact Bool.noConfusion ((hstruct c hc).symm.trans hword)
    | cons d rest =>
      have hd : d ∈ part ++ [c] := hpart ▸ by simp
      obtain hd | hd := List.mem_append.mp hd
      · simp [isBlank_of_isWordChar (hname d hd)]
      · simp [List.mem_singleton.mp hd, hblank]

/-- A visibility has no head and leaves the name after it alone. -/
theorem Visibility.noHead {v : Visibility} (hv : NoHead v.scope) :
    NoHead v.text ∧ v.text.getLast?.any isWordChar = false := by
  have hopen : NoHead "pub(".toList := noHead_of_not_mem (by decide)
  have hclose : NoHead ") ".toList := noHead_of_not_mem (by decide)
  cases v with
  | inherited => exact ⟨noHead_of_not_mem (by decide), rfl⟩
  | everywhere => exact ⟨noHead_of_not_mem (by decide), by decide⟩
  | within scope =>
    have hinner : NoHead (scope ++ ") ".toList) := NoHead.append hv hclose (.inr (by decide))
    refine ⟨hopen.append hinner (.inl (by decide)), ?_⟩
    rw [Visibility.text, List.getLast?_append, List.getLast?_append]
    exact Bool.eq_false_iff.mpr (by decide : isWordChar ' ' ≠ true)

/-- No field is taken for a struct head. -/
theorem Field.IsWritten.noHead (hf : f.IsWritten) : NoHead f.text := by
  have htext : f.text =
      f.visibility.text ++ ((f.mark ++ (f.name ++ [':'])) ++ ([' '] ++ f.type)) := by
    simp [Field.text]
  obtain ⟨hvisibility, hlast⟩ := Visibility.noHead hf.plain_scope.no_head
  have htype : NoHead ([' '] ++ f.type) :=
    (noHead_of_not_mem (by decide)).append hf.plain_type.no_head (.inl (by decide))
  have hname : NoHead (f.name ++ [':']) := noHead_name hf.name.word (by decide) (by decide)
  have hmark : NoHead f.mark ∧ f.mark.getLast?.any isWordChar = false := by
    cases hraw : f.raw with
    | true =>
      simp only [Field.mark, hraw]
      exact ⟨noHead_of_not_mem (by decide), by decide⟩
    | false =>
      simp only [Field.mark, hraw]
      exact ⟨noHead_of_not_mem (by decide), rfl⟩
  have hcolon : (f.mark ++ (f.name ++ [':'])).getLast?.any isWordChar = false := by
    rw [← List.append_assoc, List.getLast?_concat]
    decide
  rw [htext]
  exact hvisibility.append ((hmark.1.append hname (.inl hmark.2)).append htype (.inl hcolon))
    (.inl hlast)

theorem Part.InGap.not_isWordChar (h : p.InGap) : ∀ c ∈ p.text.head?, isWordChar c = false := by
  have hslash : isWordChar '/' = false := by decide
  have hcomma : isWordChar ',' = false := by decide
  intro c hc
  cases p with
  | code d =>
    obtain rfl : d = c := Option.some.inj hc
    obtain hblank | rfl := h
    · exact (Piece.breaks_of_isBlank hblank).isWordChar
    · exact hcomma
  | line | block =>
    obtain rfl : '/' = c := Option.some.inj hc
    exact hslash

/-- No head starts in a gap. -/
theorem noHead_gap (hgap : ∀ p ∈ gap, p.InGap) (hparts : AreParts (gap ++ ps))
    (hps : NoHead (textOf ps)) : NoHead (textOf (gap ++ ps)) := by
  induction gap with
  | nil => exact hps
  | cons p gap ih =>
    obtain ⟨hp, hlater⟩ := List.forall_mem_cons.mp hgap
    rw [List.cons_append] at hparts
    rw [List.cons_append, textOf_cons]
    -- a gap is made of signs and comments, none of which a name goes on
    cases hparts with
    | @code c _ _ _ hparts =>
      have hc : isWordChar c = false := hp.not_isWordChar c rfl
      have hs : 's' ∉ [c] := by
        rw [List.mem_singleton]
        rintro rfl
        exact absurd hc (by decide)
      exact (noHead_of_not_mem hs).append (ih hlater hparts) (.inl hc)
    | @line content _ _ hnext hparts =>
      refine hp.1.append (ih hlater hparts) (.inr ?_)
      cases hhead : (textOf (gap ++ ps)).head? with
      | none => rfl
      | some c =>
        rw [hnext c hhead]
        decide
    | @block content _ _ hparts =>
      have htext : (block content).text = ('/' :: '*' :: content ++ ['*']) ++ ['/'] := by
        simp [text]
      refine hp.1.append (ih hlater hparts) (.inl ?_)
      rw [htext, List.getLast?_concat]
      decide

theorem text_ne_nil (p : Part) : p.text ≠ [] := by
  cases p <;> simp [text]

/-- What follows a field in a body: its gap, or the brace. -/
theorem head?_after_field {entries : List (Field × List Part)}
    (hseparated : ∀ e ∈ ((f, gap) :: entries).dropLast, separates e.2 = true) (ps : List Part) :
    ∀ c ∈ (textOf (gap ++ ((entries.flatMap fun e => codes e.1.text ++ e.2) ++
      code '}' :: ps))).head?, c = '}' ∨ ∃ p ∈ gap, c ∈ p.text.head? := by
  intro c hc
  cases gap with
  | nil =>
    cases entries with
    | nil => exact .inl (Option.some.inj hc).symm
    | cons e entries =>
      rw [List.dropLast_cons_cons, List.forall_mem_cons] at hseparated
      exact Bool.noConfusion hseparated.1
  | cons p gap =>
    rw [List.cons_append, textOf_cons, List.head?_append_of_ne_nil _ (text_ne_nil p)] at hc
    exact .inr ⟨p, List.mem_cons_self, hc⟩

theorem forall_mem_dropLast_of_cons {α : Type} {P : α → Prop} {x : α} {xs : List α}
    (h : ∀ y ∈ (x :: xs).dropLast, P y) : ∀ y ∈ xs.dropLast, P y := by
  cases xs with
  | nil => simp
  | cons y xs =>
    rw [List.dropLast_cons_cons, List.forall_mem_cons] at h
    exact h.2

theorem noHead_entries {entries : List (Field × List Part)}
    (hfields : ∀ e ∈ entries, e.1.IsWritten) (hgaps : ∀ e ∈ entries, ∀ p ∈ e.2, p.InGap)
    (hseparated : ∀ e ∈ entries.dropLast, separates e.2 = true)
    (hparts : AreParts ((entries.flatMap fun e => codes e.1.text ++ e.2) ++ [code '}'])) :
    NoHead (textOf ((entries.flatMap fun e => codes e.1.text ++ e.2) ++ [code '}'])) := by
  induction entries with
  | nil => exact noHead_of_not_mem (by decide)
  | cons e entries ih =>
    obtain ⟨f, gap⟩ := e
    obtain ⟨hf, hfields⟩ := List.forall_mem_cons.mp hfields
    obtain ⟨hgap, hgaps⟩ := List.forall_mem_cons.mp hgaps
    have hnext := head?_after_field hseparated []
    rw [List.flatMap_cons, List.append_assoc, List.append_assoc] at hparts ⊢
    rw [textOf_append, textOf_codes]
    have hrest := ih hfields hgaps (forall_mem_dropLast_of_cons hseparated) hparts.right.right
    refine hf.noHead.append (noHead_gap hgap hparts.right hrest) (.inr ?_)
    cases hhead : (textOf (gap ++ ((entries.flatMap fun e => codes e.1.text ++ e.2) ++
        [code '}']))).head? with
    | none => rfl
    | some c =>
      obtain rfl | ⟨p, hp, hc⟩ := hnext c hhead
      · decide
      · exact (hgap p hp).not_isWordChar c hc

/-- No head starts in a body. -/
theorem Struct.IsWritten.noHead (hs : s.IsWritten) (hparts : AreParts (s.body ++ [code '}'])) :
    NoHead (textOf (s.body ++ [code '}'])) := by
  rw [Struct.body, List.append_assoc] at hparts ⊢
  exact noHead_gap hs.opening hparts
    (noHead_entries hs.fields hs.gaps hs.separated hparts.right)

/-! ### Reading structs -/

theorem hidesNoOpener_codes (cs : List Char) : ∀ p ∈ codes cs, p.HidesNoOpener :=
  List.forall_mem_map.mpr fun _ _ => trivial

theorem Part.InGap.hidesNoOpener (h : p.InGap) : p.HidesNoOpener := by
  cases p with
  | code => trivial
  | line | block => exact h.2

theorem Struct.IsWritten.hidesNoOpener (hs : s.IsWritten) : ∀ p ∈ s.parts, p.HidesNoOpener := by
  simp only [Struct.parts, Struct.body, List.forall_mem_append, List.forall_mem_flatMap,
    List.forall_mem_singleton]
  refine ⟨hidesNoOpener_codes _, hidesNoOpener_codes _,
    ⟨fun p hp => (hs.opening p hp).hidesNoOpener, fun e he => ⟨hidesNoOpener_codes _, ?_⟩⟩, trivial⟩
  exact fun p hp => (hs.gaps e he p hp).hidesNoOpener

/-- What a head declares. -/
def declared (h : Head) : String × List String :=
  (String.ofList h.name, bodyFields (h.body.take (bodyLength 1 0 h.body)))

/-- The declarations of a file are its heads outside of comments, with the fields read after each.
-/
theorem declarations_eq (file : String) (text : List Char) :
    (declarations file text).map (fun d => (d.name, d.fields)) =
      ((headsFrom (Place.start text) 0 text).filter (!·.place.isCommented)).map declared := by
  simp only [declarations, List.map_map]
  rfl

/-- A head with the body of a struct behind it declares the fields of the struct. -/
theorem declared_struct (hs : s.IsWritten) (hbraces : bracesAfter 1 (textOf s.body) = some 1)
    (hparts : AreParts s.body) (place : Place) (ys : List Char) :
    declared ⟨s.head.name, place, textOf s.body ++ '}' :: ys⟩ = s.outline := by
  have hopeners : ∀ p ∈ s.body, p.HidesNoOpener := fun p hp =>
    hs.hidesNoOpener p (by simp [Struct.parts, hp])
  rw [declared, bodyLength_append hbraces, Nat.zero_add, List.take_left,
    bodyFields_body hs hparts hopeners]
  rfl

/-- The code of a struct is passed over to the next one, and its head declares its fields. -/
theorem declared_headsFrom_struct (hs : s.IsWritten)
    (hbraces : bracesAfter 1 (textOf s.body) = some 1) (hlead : front = [] ∨ '\n' ∈ s.lead)
    (htext : text = textOf (front ++ (s.parts ++ ps)))
    (hparts : AreParts (front ++ (s.parts ++ ps)))
    (hopeners : ∀ p ∈ front ++ (s.parts ++ ps), p.HidesNoOpener) :
    ((headsFrom ((Place.start text).after (textOf front)) 0 (textOf (s.parts ++ ps))).filter
        (!·.place.isCommented)).map declared =
      s.outline :: ((headsFrom ((Place.start text).after (textOf (front ++ s.parts))) 0
        (textOf ps)).filter (!·.place.isCommented)).map declared := by
  have hsplit : textOf (s.parts ++ ps) =
      s.lead ++ (s.head.text ++ (textOf (s.body ++ [code '}']) ++ textOf ps)) := by
    simp [Struct.parts]
  have hclosed : AreParts (s.body ++ [code '}']) := by
    have hmiddle : s.parts ++ ps =
        codes s.lead ++ (codes s.head.text ++ ((s.body ++ [code '}']) ++ ps)) := by
      simp [Struct.parts]
    rw [hmiddle] at hparts
    exact hparts.right.right.right.left
  have hbrace : (textOf (s.body ++ [code '}'])).getLast?.any isWordChar = false := by
    simp only [textOf_append, textOf_cons, textOf_nil, Part.text, List.append_nil,
      List.getLast?_concat]
    decide
  have hbreak : textOf front = [] ∨ '\n' ∈ s.lead := hlead.imp_left fun h => by rw [h, textOf_nil]
  -- where the head starts, on a line of its own
  set place := (Place.start text).after (textOf front ++ s.lead) with hplace
  have hstart : place.atWordStart = true := Place.atWordStart_of_isBlank hs.lead hbreak
  have hlive : place.isCommented = false := by
    refine Place.isCommented_of_isBlank hs.lead hbreak ?_
    obtain ⟨inner, hinner⟩ : ∃ inner, s.head.text = 's' :: inner := ⟨_, rfl⟩
    have hall : front ++ (s.parts ++ ps) = (front ++ codes s.lead) ++
        code 's' :: (codes inner ++ (s.body ++ code '}' :: ps)) := by
      simp [Struct.parts, hinner, codes]
    rw [hall] at htext hparts hopeners
    have hcode := inBlockComment_code hparts hopeners
    rwa [← htext, textOf_append, textOf_codes] at hcode
  have hbody : textOf (s.body ++ [code '}']) ++ textOf ps = textOf s.body ++ '}' :: textOf ps := by
    simp [Part.text]
  have hdeclared : declared ⟨s.head.name, place, textOf (s.body ++ [code '}']) ++ textOf ps⟩ =
      s.outline := hbody ▸ declared_struct hs hbraces hclosed.left place (textOf ps)
  have hnext : (place.after s.head.text).after (textOf (s.body ++ [code '}'])) =
      (Place.start text).after (textOf (front ++ s.parts)) := by
    simp [hplace, Struct.parts, Place.after_append]
  rw [hsplit,
    headsFrom_of_noHead (noHead_of_isBlank hs.lead) (.inl (any_getLast?_of_isBlank hs.lead)),
    ← Place.after_append, ← hplace, headsFrom_written hs.head hstart,
    headsFrom_of_noHead (hs.noHead hclosed) (.inl hbrace), hnext,
    List.filter_cons_of_pos (by simp [hlive]), List.map_cons, hdeclared]

/-- The heads in structs that follow parts of a text. -/
theorem declared_headsFrom (hss : ∀ s ∈ structs, s.IsWritten)
    (hbraces : ∀ s ∈ structs, bracesAfter 1 (textOf s.body) = some 1)
    (hfirst : ∀ s ∈ structs.head?, front = [] ∨ '\n' ∈ s.lead)
    (hbreaks : ∀ s ∈ structs.tail, '\n' ∈ s.lead) (hafter : ∀ c ∈ after, isBlank c = true)
    (htext : text = textOf (front ++ sourceParts structs after))
    (hparts : AreParts (front ++ sourceParts structs after))
    (hopeners : ∀ p ∈ front ++ sourceParts structs after, p.HidesNoOpener) :
    ((headsFrom ((Place.start text).after (textOf front)) 0
        (textOf (sourceParts structs after))).filter (!·.place.isCommented)).map declared =
      structs.map Struct.outline := by
  induction structs generalizing front with
  | nil =>
    have hnone (place : Place) : headsFrom place 0 (after ++ []) = [] :=
      headsFrom_of_noHead (noHead_of_isBlank hafter) (.inl (any_getLast?_of_isBlank hafter)) place
    rw [List.append_nil] at hnone
    rw [sourceParts, List.flatMap_nil, List.nil_append, textOf_codes, hnone]
    rfl
  | cons s structs ih =>
    obtain ⟨hs, hss⟩ := List.forall_mem_cons.mp hss
    obtain ⟨hbody, hbraces⟩ := List.forall_mem_cons.mp hbraces
    have hsource : sourceParts (s :: structs) after = s.parts ++ sourceParts structs after := by
      simp [sourceParts]
    rw [hsource] at htext hparts hopeners ⊢
    rw [declared_headsFrom_struct hs hbody (hfirst s rfl) htext hparts hopeners]
    rw [← List.append_assoc] at htext hparts hopeners
    rw [ih hss hbraces (fun t ht => .inr (hbreaks t (List.mem_of_mem_head? ht)))
      (fun t ht => hbreaks t (List.mem_of_mem_tail ht)) htext hparts hopeners, List.map_cons]

/-- **Structs with comments.** Structs are read as they are written, if the comments are read as
they are written, line comments hide no mark that opens a block comment, and the braces of each body
nest. -/
theorem declarations_of_parts (file : String) (hss : ∀ s ∈ structs, s.IsWritten)
    (hbraces : ∀ s ∈ structs, bracesAfter 1 (textOf s.body) = some 1)
    (hbreaks : ∀ s ∈ structs.tail, '\n' ∈ s.lead) (hafter : ∀ c ∈ after, isBlank c = true)
    (hparts : AreParts (sourceParts structs after)) :
    (declarations file (textOf (sourceParts structs after))).map (fun d => (d.name, d.fields)) =
      structs.map Struct.outline := by
  have hopeners : ∀ p ∈ sourceParts structs after, p.HidesNoOpener := by
    simp only [sourceParts, List.forall_mem_append, List.forall_mem_flatMap]
    exact ⟨fun s hs => (hss s hs).hidesNoOpener, hidesNoOpener_codes after⟩
  have hfirst : ∀ s ∈ structs.head?, ([] : List Part) = [] ∨ '\n' ∈ s.lead := fun _ _ => .inl rfl
  rw [declarations_eq]
  exact declared_headsFrom hss hbraces hfirst hbreaks hafter rfl hparts hopeners

/-! ### Structs without comments -/

/-- A text without comments is its code. -/
theorem plain_eq_textOf (h : ∀ p ∈ ps, p.isComment = false) : ps.flatMap plain = textOf ps := by
  refine List.flatMap_congr fun p hp => ?_
  cases p with
  | code => rfl
  | line | block => exact Bool.noConfusion (h _ hp)

theorem bracesAfter_gap (h : ∀ c ∈ xs, isBlank c = true ∨ c = ',') (depth : Nat) :
    bracesAfter depth xs = some depth := by
  refine bracesAfter_of_not_mem (fun hmem => ?_) (fun hmem => ?_) depth
  · exact absurd (h '{' hmem) (by decide)
  · exact absurd (h '}' hmem) (by decide)

/-- Fields leave the braces balanced. -/
theorem bracesAfter_entries {entries : List (Field × List Char)}
    (hfields : ∀ e ∈ entries, e.1.IsWritten)
    (hgaps : ∀ e ∈ entries, ∀ c ∈ e.2, isBlank c = true ∨ c = ',') :
    bracesAfter 1 (entries.flatMap fun e => e.1.text ++ e.2) = some 1 := by
  induction entries with
  | nil => rfl
  | cons e entries ih =>
    obtain ⟨hf, hfields⟩ := List.forall_mem_cons.mp hfields
    obtain ⟨hgap, hgaps⟩ := List.forall_mem_cons.mp hgaps
    have hfield : bracesAfter 1 e.1.text = some 1 :=
      bracesAfter_of_awaited (hf.toReads.nests none)
    rw [List.flatMap_cons, bracesAfter_append, bracesAfter_append, hfield, Option.bind_some,
      bracesAfter_gap hgap, Option.bind_some, ih hfields hgaps]

/-- The braces of a body without comments nest. -/
theorem Struct.IsWritten.braces (hs : s.IsWritten) (hplain : ∀ p ∈ s.body, p.isComment = false) :
    bracesAfter 1 (textOf s.body) = some 1 := by
  rw [← plain_eq_textOf hplain, Struct.plain_body, bracesAfter_append,
    bracesAfter_gap (forall_mem_plain hs.opening), Option.bind_some]
  exact bracesAfter_entries (List.forall_mem_map.mpr hs.fields)
    (List.forall_mem_map.mpr fun e he => forall_mem_plain (hs.gaps e he))

/-- Code without a slash starts no comment. -/
theorem areParts_codes_of_not_mem (hcs : '/' ∉ cs) (h : AreParts ps) :
    AreParts (codes cs ++ ps) :=
  areParts_codes_append (not_pair_infix_of_not_mem hcs) (not_pair_infix_of_not_mem hcs)
    (fun hlast => absurd (List.mem_of_getLast? hlast) hcs) h

theorem not_mem_of_isBlank (h : ∀ c ∈ cs, isBlank c = true) : '/' ∉ cs := fun hmem =>
  absurd (h '/' hmem) (by decide)

theorem IsWord.not_mem_slash (h : IsWord cs) : '/' ∉ cs := fun hmem =>
  h.ne hmem (by decide) rfl

theorem StructHead.IsWritten.areParts {h : StructHead} (hw : h.IsWritten) (hps : AreParts ps) :
    AreParts (codes h.text ++ ps) := by
  have hfront : '/' ∉ "struct".toList ++ (h.gap ++ h.name) := by
    simp only [List.mem_append, not_or]
    exact ⟨by decide, not_mem_of_isBlank hw.gap, hw.name.word.not_mem_slash⟩
  have htext : codes h.text ++ ps =
      codes ("struct".toList ++ (h.gap ++ h.name)) ++ (codes h.tail ++ (codes ['{'] ++ ps)) := by
    simp [StructHead.text_eq, codes]
  have hbrace : AreParts (codes ['{'] ++ ps) := areParts_codes_of_not_mem (by decide) hps
  rw [htext]
  refine areParts_codes_of_not_mem hfront ?_
  refine areParts_codes_append hw.no_line hw.no_block (fun _ c hc => ?_) hbrace
  rw [← Option.some.inj hc]
  decide

theorem Visibility.areParts {v : Visibility} (hv : IsPlainCode v.scope) (h : AreParts ps) :
    AreParts (codes v.text ++ ps) := by
  cases v with
  | inherited => exact h
  | everywhere => exact areParts_codes_of_not_mem (by decide) h
  | within scope =>
    have htext : codes (within scope).text ++ ps =
        codes "pub(".toList ++ (codes scope ++ (codes ") ".toList ++ ps)) := by
      simp [Visibility.text, codes]
    have hclose : AreParts (codes ") ".toList ++ ps) := areParts_codes_of_not_mem (by decide) h
    rw [htext]
    refine areParts_codes_of_not_mem (by decide) ?_
    refine areParts_codes_append hv.no_line hv.no_block (fun _ c hc => ?_) hclose
    rw [← Option.some.inj hc]
    decide

/-- A field starts no comment, if what comes after it makes none of a slash at its end. -/
theorem Field.IsWritten.areParts (hf : f.IsWritten) (hps : AreParts ps)
    (hnext : ∀ c ∈ (textOf ps).head?, c ∉ ['/', '*']) : AreParts (codes f.text ++ ps) := by
  have hfront : '/' ∉ f.mark ++ (f.name ++ ": ".toList) := by
    simp only [List.mem_append, not_or]
    refine ⟨?_, hf.name.word.not_mem_slash, by decide⟩
    cases hraw : f.raw <;> simp [Field.mark, hraw]
  have htext : codes f.text ++ ps = codes f.visibility.text ++
      (codes (f.mark ++ (f.name ++ ": ".toList)) ++ (codes f.type ++ ps)) := by
    simp [Field.text, codes]
  rw [htext]
  refine Visibility.areParts hf.plain_scope (areParts_codes_of_not_mem hfront ?_)
  exact areParts_codes_append hf.plain_type.no_line hf.plain_type.no_block (fun _ => hnext) hps

/-- A gap without comments has no slashes. -/
theorem Part.InGap.not_mem_slashes (h : p.InGap) (hp : p.isComment = false) :
    ∀ c ∈ p.text, c ∉ ['/', '*'] := by
  cases p with
  | code d =>
    intro c hc
    obtain rfl : c = d := List.mem_singleton.mp hc
    rw [List.mem_cons, List.mem_singleton]
    rintro (rfl | rfl)
    · exact absurd h (by decide)
    · exact absurd h (by decide)
  | line | block => exact Bool.noConfusion hp

/-- A gap without comments is code. -/
theorem areParts_gap (hgap : ∀ p ∈ gap, p.InGap) (hplain : ∀ p ∈ gap, p.isComment = false)
    (h : AreParts ps) : AreParts (gap ++ ps) := by
  induction gap with
  | nil => exact h
  | cons p gap ih =>
    obtain ⟨hp, hlater⟩ := List.forall_mem_cons.mp hgap
    obtain ⟨hcode, hcodes⟩ := List.forall_mem_cons.mp hplain
    cases p with
    | code c =>
      have hc : '/' ∉ [c] := fun hmem => hp.not_mem_slashes rfl '/' hmem (by decide)
      exact areParts_codes_of_not_mem hc (ih hlater hcodes)
    | line | block => exact Bool.noConfusion hcode

theorem areParts_entries {entries : List (Field × List Part)}
    (hfields : ∀ e ∈ entries, e.1.IsWritten) (hgaps : ∀ e ∈ entries, ∀ p ∈ e.2, p.InGap)
    (hplain : ∀ e ∈ entries, ∀ p ∈ e.2, p.isComment = false)
    (hseparated : ∀ e ∈ entries.dropLast, separates e.2 = true) (h : AreParts (code '}' :: ps)) :
    AreParts ((entries.flatMap fun e => codes e.1.text ++ e.2) ++ code '}' :: ps) := by
  induction entries with
  | nil => exact h
  | cons e entries ih =>
    obtain ⟨f, gap⟩ := e
    obtain ⟨hf, hfields⟩ := List.forall_mem_cons.mp hfields
    obtain ⟨hgap, hgaps⟩ := List.forall_mem_cons.mp hgaps
    obtain ⟨hcode, hplain⟩ := List.forall_mem_cons.mp hplain
    have hrest := ih hfields hgaps hplain (forall_mem_dropLast_of_cons hseparated)
    rw [List.flatMap_cons, List.append_assoc, List.append_assoc]
    refine hf.areParts (areParts_gap hgap hcode hrest) fun c hc => ?_
    obtain rfl | ⟨p, hp, hc⟩ := head?_after_field hseparated ps c hc
    · decide
    · exact (hgap p hp).not_mem_slashes (hcode p hp) c (List.mem_of_mem_head? hc)

theorem Struct.IsWritten.areParts (hs : s.IsWritten) (hplain : ∀ p ∈ s.body, p.isComment = false)
    (h : AreParts ps) : AreParts (s.parts ++ ps) := by
  simp only [Struct.body, List.forall_mem_append, List.forall_mem_flatMap] at hplain
  have hbrace : AreParts (code '}' :: ps) := areParts_codes_of_not_mem (by decide : '/' ∉ ['}']) h
  have hparts : s.parts ++ ps = codes s.lead ++ (codes s.head.text ++ (s.opening ++
      ((s.entries.flatMap fun e => codes e.1.text ++ e.2) ++ code '}' :: ps))) := by
    simp [Struct.parts, Struct.body]
  rw [hparts]
  refine areParts_codes_of_not_mem (not_mem_of_isBlank hs.lead) (hs.head.areParts ?_)
  refine areParts_gap hs.opening hplain.1 ?_
  exact areParts_entries hs.fields hs.gaps (fun e he => (hplain.2 e he).2) hs.separated hbrace

/-- **Structs without comments are all code**, one after the other. -/
theorem areParts_sourceParts (hss : ∀ s ∈ structs, s.IsWritten)
    (hplain : ∀ s ∈ structs, ∀ p ∈ s.body, p.isComment = false)
    (hafter : ∀ c ∈ after, isBlank c = true) : AreParts (sourceParts structs after) := by
  rw [sourceParts]
  induction structs with
  | nil =>
    have hend := areParts_codes_of_not_mem (not_mem_of_isBlank hafter) .nil
    rwa [List.append_nil] at hend
  | cons s structs ih =>
    obtain ⟨hs, hss⟩ := List.forall_mem_cons.mp hss
    obtain ⟨hbody, hplain⟩ := List.forall_mem_cons.mp hplain
    rw [List.flatMap_cons, List.append_assoc]
    exact hs.areParts hbody (ih hss hplain)

/-- **Structs.** Structs without comments are read as they are written, in order and each with the
names of its fields. -/
theorem declarations_of_structs (file : String) {structs : List Struct} {after : List Char}
    (hss : ∀ s ∈ structs, s.IsWritten) (hplain : ∀ s ∈ structs, ∀ p ∈ s.body, p.isComment = false)
    (hbreaks : ∀ s ∈ structs.tail, '\n' ∈ s.lead) (hafter : ∀ c ∈ after, isBlank c = true) :
    (declarations file (textOf (sourceParts structs after))).map (fun d => (d.name, d.fields)) =
      structs.map Struct.outline :=
  declarations_of_parts file hss (fun s hs => (hss s hs).braces (hplain s hs)) hbreaks hafter
    (areParts_sourceParts hss hplain hafter)

/-- A struct with fields of all kinds and one without fields. -/
def cacheStructs : List Struct :=
  [{ lead := []
     head :=
       { gap := " ".toList, name := "Cache".toList, nameGap := [],
         generics := some "K, V: Fn(K) -> u8".toList, genericsGap := "\n".toList,
         clause := some " K: Eq ".toList }
     opening := codes "\n    ".toList
     entries :=
       [({ visibility := .within "crate".toList, raw := false, name := "map".toList,
           type := "HashMap<K, [V; 2]>".toList }, codes ",\n    ".toList),
        ({ visibility := .everywhere, raw := true, name := "type".toList,
           type := "fn(K, u8) -> Box<dyn Fn(V)>".toList }, codes ", ".toList),
        ({ visibility := .inherited, raw := false, name := "pair".toList,
           type := "(u8,\n V)".toList }, codes ",\n".toList)] },
   { lead := "\n\n".toList
     head :=
       { gap := " ".toList, name := "Marker".toList, nameGap := " ".toList, generics := none,
         genericsGap := [], clause := none }
     opening := []
     entries := [] }]

/-- Both structs are read. -/
theorem cacheStructs_read :
    (declarations "" (textOf (sourceParts cacheStructs ['\n']))).map (fun d => (d.name, d.fields)) =
      [("Cache", ["map", "type", "pair"]), ("Marker", [])] := by
  have hbreaks : ∀ s ∈ cacheStructs.tail, '\n' ∈ s.lead := by decide +kernel
  refine Eq.trans (declarations_of_structs "" (by decide +kernel) (by decide +kernel) hbreaks
    (by decide +kernel)) ?_
  decide +kernel

end IndexAdvice.Source
