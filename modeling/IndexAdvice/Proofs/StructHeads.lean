import IndexAdvice.Proofs.QueryCalls
import IndexAdvice.Source.Declaration
import Mathlib.Data.List.Infix

/-!
# Reading the head of a struct

The head of a struct is the word `struct`, a name, and what may stand between that and the brace of
the body: generic parameters and a `where` clause, without braces and semicolons. Such a head is
read as a whole, and the scan goes on behind its brace (`headsFrom_written`). No head starts in a
text in which `struct` is nowhere a word before a blank (`headsFrom_of_noHead`).
-/

namespace IndexAdvice.Source

open Text

variable {c : Char} {cs xs ys blanks : List Char} {place : Place}

/-! ### Written heads -/

/-- The head of a struct through its brace. -/
structure StructHead where
  /-- The blanks behind `struct`. -/
  gap : List Char
  name : List Char
  /-- The blanks behind the name. -/
  nameGap : List Char
  /-- The generic parameters without their angle brackets. -/
  generics : Option (List Char)
  /-- The blanks behind the generic parameters. -/
  genericsGap : List Char
  /-- What follows `where`. -/
  clause : Option (List Char)
deriving DecidableEq, Repr

namespace StructHead

/-- The generic parameters with their angle brackets. -/
def parameters (h : StructHead) : List Char :=
  match h.generics with
  | some inner => '<' :: (inner ++ ['>'])
  | none => []

/-- The `where` clause. -/
def condition (h : StructHead) : List Char :=
  match h.clause with
  | some inner => "where".toList ++ inner
  | none => []

/-- What stands between the name and the brace. -/
def tail (h : StructHead) : List Char :=
  h.nameGap ++ (h.parameters ++ (h.genericsGap ++ h.condition))

/-- A head as it is written. -/
def text (h : StructHead) : List Char :=
  "struct".toList ++ (h.gap ++ (h.name ++ (h.tail ++ ['{'])))

-- The equation that Lean makes of the definition spells the keyword out, which takes long.
theorem text_eq (h : StructHead) :
    h.text = "struct".toList ++ (h.gap ++ (h.name ++ (h.tail ++ ['{']))) := rfl

/-- What a head must keep to. -/
structure IsWritten (h : StructHead) : Prop where
  gap_ne_nil : h.gap ≠ []
  gap : ∀ c ∈ h.gap, isBlank c = true
  name : IsIdentifier h.name
  nameGap : ∀ c ∈ h.nameGap, isBlank c = true
  genericsGap : ∀ c ∈ h.genericsGap, isBlank c = true
  clause : ∀ inner ∈ h.clause, inner.head?.any isBlank = true
  /-- The word `where` is not part of the name. -/
  apart : h.generics = none → h.clause ≠ none → h.nameGap ++ h.genericsGap ≠ []
  no_stop : ∀ c ∈ h.tail, isHeadStop c = false
  no_line : ¬ ['/', '/'] <:+: h.tail
  no_block : ¬ ['/', '*'] <:+: h.tail

instance (h : StructHead) : Decidable h.IsWritten :=
  decidable_of_iff (h.gap ≠ [] ∧ (∀ c ∈ h.gap, isBlank c = true) ∧ IsIdentifier h.name ∧
      (∀ c ∈ h.nameGap, isBlank c = true) ∧ (∀ c ∈ h.genericsGap, isBlank c = true) ∧
      (∀ inner ∈ h.clause, inner.head?.any isBlank = true) ∧
      (h.generics = none → h.clause ≠ none → h.nameGap ++ h.genericsGap ≠ []) ∧
      (∀ c ∈ h.tail, isHeadStop c = false) ∧ ¬ ['/', '/'] <:+: h.tail ∧ ¬ ['/', '*'] <:+: h.tail)
    ⟨fun ⟨a, b, c, d, e, f, g, i, j, k⟩ => ⟨a, b, c, d, e, f, g, i, j, k⟩,
      fun ⟨a, b, c, d, e, f, g, i, j, k⟩ => ⟨a, b, c, d, e, f, g, i, j, k⟩⟩

end StructHead

variable {h : StructHead}

theorem endsAfterAngle_append (hends : endsHead cs = true) (xs : List Char) :
    endsAfterAngle (xs ++ '>' :: cs) = true := by
  induction xs with
  | nil => simp [endsAfterAngle, hends]
  | cons x xs ih =>
    rw [List.cons_append, endsAfterAngle, ih]
    split <;> rfl

theorem startsWhere_append (hcs : cs.head?.any isBlank = true) (ys : List Char) :
    startsWhere ("where".toList ++ cs ++ ys) = true := by
  obtain ⟨c, rest, rfl⟩ : ∃ c rest, cs = c :: rest := by
    cases cs with
    | nil => exact absurd hcs (by simp)
    | cons c rest => exact ⟨c, rest, rfl⟩
  rw [startsWhere, List.append_assoc, afterPrefix?_append]
  exact hcs

/-- A head ends in blanks, a where clause or nothing. -/
theorem endsHead_condition (hw : h.IsWritten) (hblanks : ∀ c ∈ blanks, isBlank c = true) :
    endsHead (blanks ++ h.condition) = true := by
  have hblank : isBlank 'w' = false := by decide
  cases hclause : h.clause with
  | none => simp [endsHead, StructHead.condition, hclause, trimStart_of_isBlank hblanks]
  | some inner =>
    have htrim : trimStart (blanks ++ h.condition) = "where".toList ++ inner := by
      rw [StructHead.condition, hclause]
      exact trimStart_append_cons hblanks hblank ("here".toList ++ inner)
    have hstarts := startsWhere_append (hw.clause inner hclause) []
    rw [List.append_nil] at hstarts
    rw [endsHead, htrim, hstarts, Bool.or_true]

theorem forall_gaps (hw : h.IsWritten) : ∀ c ∈ h.nameGap ++ h.genericsGap, isBlank c = true :=
  List.forall_mem_append.mpr ⟨hw.nameGap, hw.genericsGap⟩

theorem tail_of_none (hgenerics : h.generics = none) :
    h.tail = (h.nameGap ++ h.genericsGap) ++ h.condition := by
  simp [StructHead.tail, StructHead.parameters, hgenerics]

theorem tail_of_some {inner : List Char} (hgenerics : h.generics = some inner) :
    h.tail = h.nameGap ++ '<' :: (inner ++ '>' :: (h.genericsGap ++ h.condition)) := by
  simp [StructHead.tail, StructHead.parameters, hgenerics]

/-- What is written after the name of a struct is recognised as the rest of a head. -/
theorem isHeadTail_tail (hw : h.IsWritten) : isHeadTail h.tail = true := by
  have hblank : isBlank '<' = false := by decide
  cases hgenerics : h.generics with
  | none =>
    rw [isHeadTail, tail_of_none hgenerics, endsHead_condition hw (forall_gaps hw), Bool.true_or]
  | some inner =>
    have hends := endsAfterAngle_append (endsHead_condition hw hw.genericsGap) ('<' :: inner)
    rw [List.cons_append] at hends
    rw [isHeadTail, tail_of_some hgenerics, trimStart_append_cons hw.nameGap hblank, hends]
    simp

/-- The name is read to its end, as no word goes on with what comes after it. -/
theorem mayGoOn_tail (hw : h.IsWritten) (ys : List Char) :
    mayGoOn h.name (h.tail ++ '{' :: ys) = true := by
  have hangle : isBlank '<' = false := by decide
  have hbrace : isBlank '{' = false := by decide
  have hw' : isBlank 'w' = false := by decide
  cases hgenerics : h.generics with
  | some inner =>
    rw [mayGoOn, tail_of_some hgenerics, List.append_assoc, List.cons_append,
      trimStart_append_cons hw.nameGap hangle]
    simp
  | none =>
    rw [mayGoOn, tail_of_none hgenerics, List.append_assoc]
    cases hclause : h.clause with
    | none =>
      rw [StructHead.condition, hclause, List.nil_append,
        trimStart_append_cons (forall_gaps hw) hbrace]
      simp
    | some inner =>
      have htrim : trimStart ((h.nameGap ++ h.genericsGap) ++ (h.condition ++ '{' :: ys)) =
          "where".toList ++ inner ++ '{' :: ys := by
        rw [StructHead.condition, hclause]
        exact trimStart_append_cons (forall_gaps hw) hw' ("here".toList ++ inner ++ '{' :: ys)
      rw [htrim, startsWhere_append (hw.clause inner hclause)]
      simp

/-- The name ends before what follows it. -/
theorem exists_tail_append (hw : h.IsWritten) (ys : List Char) :
    ∃ c cs, h.tail ++ '{' :: ys = c :: cs ∧ isWordChar c = false := by
  have hblank {c : Char} (hc : isBlank c = true) : isWordChar c = false :=
    (Piece.breaks_of_isBlank hc).isWordChar
  cases hgenerics : h.generics with
  | some inner =>
    rw [tail_of_some hgenerics]
    cases hgap : h.nameGap with
    | nil => exact ⟨'<', _, rfl, by decide⟩
    | cons c gap => exact ⟨c, _, rfl, hblank (hw.nameGap c (by simp [hgap]))⟩
  | none =>
    rw [tail_of_none hgenerics]
    cases hgap : h.nameGap ++ h.genericsGap with
    | nil =>
      have hclause : h.clause = none := by
        by_contra hne
        exact hw.apart hgenerics hne hgap
      exact ⟨'{', ys, by simp [StructHead.condition, hclause], by decide⟩
    | cons c gap => exact ⟨c, _, rfl, hblank (forall_gaps hw c (by simp [hgap]))⟩

/-- **Heads.** A head is read through its brace. -/
theorem head?_written (hw : h.IsWritten) (ys : List Char) :
    head? (h.text ++ ys) = some (h.name, h.text.length) := by
  obtain ⟨c, inner, hname, hc⟩ := hw.name.exists_cons
  obtain ⟨d, later, htail, hd⟩ := exists_tail_append hw ys
  have htext : h.text ++ ys =
      "struct".toList ++ (h.gap ++ (h.name ++ (h.tail ++ '{' :: ys))) := by
    simp [StructHead.text_eq]
  -- the head is read from left to right: the gap, the name, and the tail up to the brace
  have hblank := isBlank_of_isWordChar (isWordChar_of_isIdentStart hc)
  have htrim : trimStart (h.gap ++ (h.name ++ (h.tail ++ '{' :: ys))) =
      h.name ++ (h.tail ++ '{' :: ys) := by
    rw [hname]
    exact trimStart_append_cons hw.gap hblank _
  have htake : (h.name ++ (h.tail ++ '{' :: ys)).takeWhile isWordChar = h.name := by
    rw [htail]
    exact takeWhile_word hw.name.word hd later
  have hcount : blankCount (h.gap ++ (h.name ++ (h.tail ++ '{' :: ys))) = h.gap.length := by
    rw [blankCount, List.takeWhile_append_of_pos hw.gap, hname, List.cons_append,
      List.takeWhile_cons_of_neg (by simp [hblank]), List.append_nil]
  have hgap : (h.gap ++ (h.name ++ (h.tail ++ '{' :: ys))).head?.any isBlank = true := by
    obtain ⟨b, blanks, hblanks⟩ := List.exists_cons_of_ne_nil hw.gap_ne_nil
    simp [hblanks, hw.gap b]
  have hbrace : isHeadStop '{' = true := by decide
  have hstop : (h.tail ++ '{' :: ys).find? isHeadStop = some '{' := by
    rw [List.find?_append, List.find?_eq_none.mpr (by simpa using hw.no_stop), Option.none_or,
      List.find?_cons_of_pos hbrace]
  have hkept : (h.tail ++ '{' :: ys).takeWhile (!isHeadStop ·) = h.tail := by
    rw [List.takeWhile_append_of_pos (by simpa using hw.no_stop),
      List.takeWhile_cons_of_neg (by simp [hbrace]), List.append_nil]
  have hdeclared : declaredName? h.name h.tail = some h.name := by
    rw [declaredName?, if_pos (isHeadTail_tail hw)]
  have hlength : h.text.length =
      6 + h.gap.length + h.name.length + h.tail.length + 1 := by
    simp [StructHead.text_eq]
    omega
  rw [htext, head?, afterPrefix?_append]
  dsimp only [Option.bind_eq_bind, Option.bind_some]
  rw [htrim, htake, List.drop_left, hgap, hw.name.start, mayGoOn_tail hw, hstop, hkept, hdeclared,
    hcount, hlength]
  rfl

/-! ### Texts without heads -/

/-- A text in which `struct` is nowhere a word before a blank or at the end. -/
def NoHead (cs : List Char) : Prop :=
  ∀ front rest, cs = front ++ ("struct".toList ++ rest) → front.getLast?.any isWordChar = false →
    rest.head?.any (!isBlank ·) = true

/-- Whether `struct` is nowhere a word before a blank or at the end, in a text after a character. -/
def noHeadFrom (before : Option Char) : List Char → Bool
  | [] => true
  | c :: cs =>
    (before.any isWordChar || (afterPrefix? "struct".toList (c :: cs)).all fun rest =>
      rest.head?.any (!isBlank ·)) && noHeadFrom (some c) cs

/-- A text has no head if the keyword stands nowhere in it as a word before a blank. -/
theorem noHeadFrom_iff {before : Option Char} : noHeadFrom before cs = true ↔
    ∀ front rest, cs = front ++ ("struct".toList ++ rest) →
      (front.getLast?.or before).any isWordChar = false → rest.head?.any (!isBlank ·) = true := by
  induction cs generalizing before with
  | nil => simp [noHeadFrom]
  | cons c cs ih =>
    rw [noHeadFrom, Bool.and_eq_true, ih]
    constructor
    · rintro ⟨hfirst, hlater⟩ front rest heq hfront
      -- the keyword stands here or further on
      cases front with
      | nil =>
        have hbefore : before.any isWordChar = false := hfront
        rw [heq, List.nil_append, afterPrefix?_append, hbefore, Bool.false_or] at hfirst
        exact hfirst
      | cons d front =>
        obtain ⟨rfl, hrest⟩ := List.cons.inj heq
        refine hlater front rest hrest ?_
        rw [← hfront, List.getLast?_cons]
        cases front.getLast? <;> rfl
    · intro h
      refine ⟨?_, fun front rest heq hfront => h (c :: front) rest (by simp [heq]) ?_⟩
      · cases hbefore : before.any isWordChar with
        | true => rfl
        | false =>
          cases hstruct : afterPrefix? "struct".toList (c :: cs) with
          | none => rfl
          | some rest =>
            exact h [] rest ((eq_append_of_afterPrefix? hstruct).trans (List.nil_append _).symm)
              hbefore
      · rw [← hfront, List.getLast?_cons]
        cases front.getLast? <;> rfl

instance (cs : List Char) : Decidable (NoHead cs) :=
  decidable_of_iff (noHeadFrom none cs = true) <| noHeadFrom_iff.trans <| by
    simp only [NoHead, Option.or_none]

theorem noHead_of_not_infix (h : ¬ "struct".toList <:+: cs) : NoHead cs := fun front rest heq =>
  absurd ⟨front, rest, by simp [heq]⟩ h

theorem noHead_of_not_mem (hs : 's' ∉ cs) : NoHead cs :=
  noHead_of_not_infix fun h => hs (h.subset (by decide))

theorem any_getLast?_of_append {p : Char → Bool} (h : (xs ++ ys).getLast?.any p = false) :
    ys.getLast?.any p = false := by
  rw [List.getLast?_append] at h
  cases hlast : ys.getLast? with
  | none => rfl
  | some c => simpa [hlast] using h

/-- The word `struct` that starts in a text without heads goes on with a sign that is not blank. -/
theorem NoHead.any_head? {front part rest : List Char} (hxs : NoHead (front ++ part))
    (hpart : part ≠ []) (hfront : front.getLast?.any isWordChar = false)
    (hmeet : part.getLast?.any isWordChar = false ∨ ys.head?.any isWordChar = false)
    (heq : part ++ ys = "struct".toList ++ rest) : rest.head?.any (!isBlank ·) = true := by
  have hword : IsWord "struct".toList := by decide
  obtain ⟨left, hleft, hys⟩ | ⟨left, rfl, rfl⟩ := List.append_eq_append_iff.mp heq
  · cases left with
    | nil =>
      -- the word ends where the text does
      rw [List.append_nil] at hleft
      exact absurd (hxs front [] (by rw [hleft, List.append_nil]) hfront) (by simp)
    | cons d left =>
      obtain ⟨c, hlast⟩ := Option.ne_none_iff_exists'.mp (List.getLast?_eq_none_iff.not.mpr hpart)
      have hc : isWordChar c = true := hword c (by
        rw [hleft]
        exact List.mem_append_left _ (List.mem_of_getLast? hlast))
      have hd : isWordChar d = true := hword d (by simp [hleft])
      obtain hmeet | hmeet := hmeet
      · simp [hlast, hc] at hmeet
      · simp [hys, hd] at hmeet
  · have hnext := hxs front left rfl hfront
    cases left with
    | nil => exact absurd hnext (by simp)
    | cons d left => exact hnext

/-- Two texts that do not meet inside a word. -/
theorem NoHead.append (hxs : NoHead xs) (hys : NoHead ys)
    (hmeet : xs.getLast?.any isWordChar = false ∨ ys.head?.any isWordChar = false) :
    NoHead (xs ++ ys) := by
  intro front rest heq hfront
  obtain ⟨left, rfl, hleft⟩ | ⟨part, rfl, hpart⟩ := List.append_eq_append_iff.mp heq
  · exact hys left rest hleft (any_getLast?_of_append hfront)
  · by_cases hnil : part = []
    · exact hys [] rest (by rw [List.nil_append, hpart, hnil, List.nil_append]) rfl
    · exact hxs.any_head? hnil hfront (hmeet.imp_left any_getLast?_of_append) hpart.symm

/-- A head is passed over as a whole. -/
theorem headsFrom_skip (place : Place) (xs ys : List Char) :
    headsFrom place xs.length (xs ++ ys) = headsFrom (place.after xs) 0 ys := by
  induction xs generalizing place with
  | nil => rfl
  | cons x xs ih => exact ih (place.next x)

/-- No head starts with something other than `struct` and a blank. -/
theorem head?_eq_none (h : ∀ rest, cs = "struct".toList ++ rest → rest.head?.any isBlank = false) :
    head? cs = none := by
  rw [Option.eq_none_iff_forall_ne_some]
  rintro found hfound
  obtain ⟨rest, hrest, hfound⟩ := Option.bind_eq_some_iff.mp hfound
  obtain ⟨_, hguard, -⟩ := Option.bind_eq_some_iff.mp hfound
  have hnone := h rest (eq_append_of_afterPrefix? hrest)
  rw [hnone, Bool.false_and, Bool.false_and] at hguard
  cases hguard

/-- **Texts without heads.** A stretch without heads is passed over. -/
theorem headsFrom_of_noHead (hxs : NoHead xs)
    (hmeet : xs.getLast?.any isWordChar = false ∨ ys.head?.any isWordChar = false)
    (place : Place) : headsFrom place 0 (xs ++ ys) = headsFrom (place.after xs) 0 ys := by
  -- generalized to the part that has been passed, as places are counted from the start
  suffices ∀ front rest, xs = front ++ rest →
      headsFrom (place.after front) 0 (rest ++ ys) = headsFrom (place.after xs) 0 ys from
    this [] xs rfl
  intro front rest
  induction rest generalizing front with
  | nil =>
    rintro rfl
    rw [List.append_nil, List.nil_append]
  | cons c rest ih =>
    intro hsplit
    have hlater := ih (front ++ [c]) (by simp [hsplit])
    rw [Place.after_concat] at hlater
    rw [List.cons_append, headsFrom]
    split
    · next hstart =>
      rw [head?_eq_none fun later heq => ?_]
      · exact hlater
      · have hfront : front.getLast?.any isWordChar = false := by
          rw [Bool.and_eq_true, Place.atWordStart, Place.before_after] at hstart
          cases hlast : front.getLast? with
          | none => rfl
          | some d => simpa [hlast] using hstart.1
        have hmeet' : (c :: rest).getLast?.any isWordChar = false ∨
            ys.head?.any isWordChar = false :=
          hmeet.imp_left fun hlast => any_getLast?_of_append (hsplit ▸ hlast)
        rw [hsplit] at hxs
        have hnext := hxs.any_head? (List.cons_ne_nil c rest) hfront hmeet' heq
        cases later with
        | nil => rfl
        | cons d later => simpa using hnext
    · exact hlater

/-- **Heads in a text.** A head is found, and the scan goes on behind its brace. -/
theorem headsFrom_written (hw : h.IsWritten) (hplace : place.atWordStart = true)
    (ys : List Char) :
    headsFrom place 0 (h.text ++ ys) =
      ⟨h.name, place, ys⟩ :: headsFrom (place.after h.text) 0 ys := by
  have hread := head?_written hw ys
  obtain ⟨inner, hinner⟩ : ∃ inner, h.text = 's' :: inner := ⟨_, rfl⟩
  rw [hinner, List.length_cons, List.cons_append] at hread
  rw [hinner, List.cons_append, headsFrom, if_pos (by rw [hplace]; rfl), hread, Place.after_cons]
  simp only [headsFrom_skip, List.drop_left]

end IndexAdvice.Source
