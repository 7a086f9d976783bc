import IndexAdvice.Proofs.PieceEnds
import IndexAdvice.Text.Case
import Mathlib.Data.List.Basic
import Mathlib.Data.List.Induction

/-!
# Texts in another letter case

Two texts are **recased** versions of each other if they differ in the case of ASCII letters at
most. Whatever looks at characters through classes that have both cases of a letter or neither sees
no difference. That goes for the upper-case and the lower-case form of a text, and for the pieces
that it is cut into (`Piece.ofText_toLower`).
-/

namespace IndexAdvice

namespace Text

variable {α : Type} {m : Char} {s s' : String}

/-! ### Characters -/

/-- What does not tell the two cases of an ASCII letter apart. -/
def Caseless (f : Char → α) : Prop :=
  ∀ n < 26, f (Char.ofNat (65 + n)) = f (Char.ofNat (97 + n))

theorem isUpper_iff {c : Char} : c.isUpper = true ↔ 65 ≤ c.toNat ∧ c.toNat ≤ 90 := by
  delta Char.isUpper
  simp [UInt32.le_iff_toNat_le]

theorem toLower_of_not_isUpper {c : Char} (h : c.isUpper = false) : c.toLower = c := by
  delta Char.toLower
  rw [dif_neg]
  rintro ⟨hfirst, hlast⟩
  have hupper : c.isUpper = true := decide_eq_true ⟨hfirst, hlast⟩
  rw [hupper] at h
  cases h

theorem Caseless.toLower {f : Char → α} (hf : Caseless f) (c : Char) : f c.toLower = f c := by
  by_cases hc : c.isUpper = true
  · have hrange := isUpper_iff.mp hc
    obtain ⟨n, hn⟩ := Nat.exists_eq_add_of_le hrange.1
    have hof : c = Char.ofNat (65 + n) := by rw [← hn, Char.ofNat_toNat]
    have hlt : n < 26 := by omega
    have hlower : ∀ n < 26, (Char.ofNat (65 + n)).toLower = Char.ofNat (97 + n) := by decide
    rw [hof, hlower n hlt, hf n hlt]
  · rw [toLower_of_not_isUpper (Bool.not_eq_true _ ▸ hc)]

/-- No letter is told apart from its other case by a character that is none. -/
theorem caseless_beq (hm : m.isAlpha = false) : Caseless (m == ·) := by
  have halpha : ∀ n < 26, (Char.ofNat (65 + n)).isAlpha = true ∧
      (Char.ofNat (97 + n)).isAlpha = true := by decide
  intro n hn
  obtain ⟨hupper, hlower⟩ := halpha n hn
  have hne {c : Char} (hc : c.isAlpha = true) : (m == c) = false := by
    rw [beq_eq_false_iff_ne]
    rintro rfl
    rw [hm] at hc
    cases hc
  exact (hne hupper).trans (hne hlower).symm

theorem toLower_beq (hm : m.isAlpha = false) (c : Char) : (c.toLower == m) = (c == m) := by
  rw [Bool.beq_comm, (caseless_beq hm).toLower, Bool.beq_comm]

theorem toLower_toLower (c : Char) : c.toLower.toLower = c.toLower :=
  Caseless.toLower (f := Char.toLower) (by unfold Caseless; decide) c

/-- Whether none of the characters is an ASCII letter. -/
def letterless (cs : List Char) : Bool :=
  cs.all (!·.isAlpha)

@[simp]
theorem letterless_cons (c : Char) (cs : List Char) :
    letterless (c :: cs) = (!c.isAlpha && letterless cs) := rfl

/-! ### Upper and lower case -/

/-- Texts that differ in the case of ASCII letters at most. -/
def Recased (s s' : String) : Prop :=
  s.toList.map Char.toLower = s'.toList.map Char.toLower

instance (s s' : String) : Decidable (Recased s s') :=
  inferInstanceAs (Decidable (_ = _))

namespace Recased

theorem refl (s : String) : Recased s s := rfl

theorem isEmpty (h : Recased s s') : s.isEmpty = s'.isEmpty := by
  have hlength := congrArg List.length h
  rw [List.length_map, List.length_map] at hlength
  rw [Bool.eq_iff_iff, String.isEmpty_iff, String.isEmpty_iff, ← String.toList_eq_nil_iff,
    ← String.toList_eq_nil_iff, ← List.length_eq_zero_iff, ← List.length_eq_zero_iff, hlength]

/-- A text without letters has no other letter case. -/
theorem eq_iff (h : Recased s s') {mark : String} (hmark : letterless mark.toList = true) :
    s = mark ↔ s' = mark := by
  have general {cs ms : List Char} (hms : letterless ms = true) :
      cs = ms ↔ cs.map Char.toLower = ms := by
    induction cs generalizing ms with
    | nil => rfl
    | cons c cs ih =>
      cases ms with
      | nil => simp
      | cons m ms =>
        rw [letterless_cons, Bool.and_eq_true, Bool.not_eq_true'] at hms
        have hm := toLower_beq hms.1 c
        rw [Bool.eq_iff_iff, beq_iff_eq, beq_iff_eq] at hm
        rw [List.map_cons, List.cons.injEq, List.cons.injEq, hm, ih hms.2]
  rw [← String.toList_inj, ← String.toList_inj, general hmark, h, ← general hmark]

end Recased

/-- Texts that differ in letter case have the same capitals. -/
theorem upper_of_recased (h : Recased s s') : upper s = upper s' := by
  have hupper : Caseless upperOf := by unfold Caseless; decide
  have hflat (cs : List Char) : (cs.map Char.toLower).flatMap upperOf = cs.flatMap upperOf := by
    rw [List.flatMap_map]
    exact List.flatMap_congr fun c _ => hupper.toLower c
  rw [upper, upper, ← hflat, h, hflat]

/-- The rule for the final sigma looks for letters beside it, in whichever case they are. -/
theorem startsCased_toLower (cs : List Char) :
    startsCased (cs.map Char.toLower) = startsCased cs := by
  have hignorable : Caseless fun c => inRanges ignorableRanges c.toNat := by
    unfold Caseless; decide
  have hcased : Caseless fun c => inRanges casedRanges c.toNat := by unfold Caseless; decide
  induction cs with
  | nil => rfl
  | cons c cs ih =>
    rw [List.map_cons, startsCased, startsCased, hignorable.toLower c, hcased.toLower c, ih]

/-- Each character of a text in small letters is lowered to the same characters. -/
theorem lowerOf_toLower (before : List Char) (c : Char) (after : List Char) :
    lowerOf (before.map Char.toLower) c.toLower (after.map Char.toLower) =
      lowerOf before c after := by
  have hascii := Caseless.toLower (f := fun c => decide (c.toNat < 128)) (by unfold Caseless; decide) c
  by_cases hc : c.toNat < 128
  · have hc' : c.toLower.toNat < 128 := by simpa [hc] using hascii
    rw [lowerOf, lowerOf, if_pos hc, if_pos hc', toLower_toLower]
  · have hupper : c.isUpper = false := by
      rw [Bool.eq_false_iff, Ne, isUpper_iff]
      omega
    rw [toLower_of_not_isUpper hupper, lowerOf, lowerOf, startsCased_toLower, startsCased_toLower]

/-- Texts that differ in letter case have the same small letters. -/
theorem lower_of_recased (h : Recased s s') : lower s = lower s' := by
  have hfrom (before cs : List Char) :
      lowerFrom (before.map Char.toLower) (cs.map Char.toLower) = lowerFrom before cs := by
    induction cs generalizing before with
    | nil => rfl
    | cons c cs ih =>
      have ih := ih (c :: before)
      rw [List.map_cons] at ih
      rw [List.map_cons, lowerFrom, lowerFrom, lowerOf_toLower, ih]
  rw [lower, lower, ← hfrom, h]
  exact congrArg String.ofList (hfrom [] s'.toList)

end Text

open Text

/-! ### Pieces -/

namespace Piece

/-- A mark without letters is found at the same place. -/
theorem searchFrom_toLower {mark : List Char} (hmark : letterless mark = true) (n : Nat)
    (cs : List Char) : searchFrom mark n (cs.map Char.toLower) = searchFrom mark n cs := by
  have hprefix {mark : List Char} (hmark : letterless mark = true) (cs : List Char) :
      mark.isPrefixOf (cs.map Char.toLower) = mark.isPrefixOf cs := by
    induction mark generalizing cs with
    | nil => rfl
    | cons m mark ih =>
      cases cs with
      | nil => rfl
      | cons c cs =>
        rw [letterless_cons, Bool.and_eq_true, Bool.not_eq_true'] at hmark
        rw [List.map_cons, List.isPrefixOf, List.isPrefixOf,
          (caseless_beq hmark.1).toLower c, ih hmark.2]
  induction cs generalizing n with
  | nil => rfl
  | cons c cs ih =>
    have hcons := hprefix hmark (c :: cs)
    rw [List.map_cons] at hcons
    rw [List.map_cons, searchFrom, searchFrom, hcons, ih]

theorem through_toLower {mark : List Char} (hmark : letterless mark = true)
    (cs : List Char) : through mark (cs.map Char.toLower) = through mark cs := by
  rw [through, through, throughFirst?, throughFirst?, searchFrom_toLower hmark, List.length_map]

/-- A string ends at the same place, since quotes and backslashes are no letters. -/
theorem stringTail_toLower (cs : List Char) : stringTail (cs.map Char.toLower) = stringTail cs := by
  have hquote := toLower_beq (m := '\'') (by decide)
  have hbackslash := toLower_beq (m := '\\') (by decide)
  fun_induction stringTail cs with
  | case1 => rfl
  | case2 => rfl
  | _ => simp_all [stringTail]

/-- So does a number, as its exponent may be written either way. -/
theorem numberTail_toLower (pointSeen : Bool) (cs : List Char) :
    numberTail pointSeen (cs.map Char.toLower) = numberTail pointSeen cs := by
  have hdigit : Caseless isDigit := by unfold Caseless; decide
  have hexponent := Caseless.toLower (f := fun c => c == 'e' || c == 'E') (by unfold Caseless; decide)
  have hpoint := toLower_beq (m := '.') (by decide)
  have hplus := toLower_beq (m := '+') (by decide)
  have hminus := toLower_beq (m := '-') (by decide)
  induction cs using List.twoStepInduction generalizing pointSeen with
  | nil => rfl
  | singleton c => simp only [List.map_cons, List.map_nil, numberTail, hdigit.toLower, hpoint]
  | cons_cons c d cs ih ih' =>
    have ih' (pointSeen : Bool) := ih' d pointSeen
    simp only [List.map_cons] at ih'
    simp only [List.map_cons, numberTail, hdigit.toLower, hpoint, hexponent, hplus, hminus, ih, ih']

theorem length_takeWhile_toLower {p : Char → Bool} (hp : Caseless p) (cs : List Char) :
    ((cs.map Char.toLower).takeWhile p).length = (cs.takeWhile p).length := by
  have hcomp : p ∘ Char.toLower = p := funext hp.toLower
  rw [List.takeWhile_map, hcomp, List.length_map]

theorem any_toLower {p : Char → Bool} (hp : Caseless p) (o : Option Char) :
    (o.map Char.toLower).any p = o.any p := by
  rw [Option.any_map]
  exact congrArg (Option.any · o) (funext hp.toLower)

theorem map_toLower_beq {m : Char} (hm : m.isAlpha = false) (o : Option Char) :
    (o.map Char.toLower == some m) = (o == some m) := by
  cases o with
  | none => rfl
  | some c => exact toLower_beq hm c

/-- A parameter is told by its marks and goes on with letters of either case. -/
theorem parameterTail_toLower (before : Option Char) (c : Char) (cs : List Char) :
    parameterTail (before.map Char.toLower) c.toLower (cs.map Char.toLower) =
      parameterTail before c cs := by
  have hdecimal : Caseless isDecimal := by unfold Caseless; decide
  have hstart : Caseless isIdentStart := by unfold Caseless; decide
  have hword : Caseless isWordChar := by unfold Caseless; decide
  have hcolon : (before.map Char.toLower != some ':') = (before != some ':') := by
    rw [bne, bne, map_toLower_beq (by decide)]
  rw [parameterTail_eq, parameterTail_eq, List.head?_map, any_toLower hdecimal, any_toLower hstart,
    length_takeWhile_toLower hdecimal, length_takeWhile_toLower hword, toLower_beq (by decide),
    toLower_beq (by decide), toLower_beq (by decide), toLower_beq (by decide), hcolon]

theorem wideOperators_toLower (c d : Char) :
    wideOperators.contains (c.toLower, d.toLower) = wideOperators.contains (c, d) := by
  have hplain : ∀ o ∈ wideOperators, o.1.isAlpha = false ∧ o.2.isAlpha = false := by decide
  have hiff {m : Char} (hm : m.isAlpha = false) (c : Char) : m = c.toLower ↔ m = c := by
    simpa using (caseless_beq hm).toLower c
  rw [Bool.eq_iff_iff, List.contains_iff_mem, List.contains_iff_mem]
  constructor
  · intro hmem
    obtain ⟨hc, hd⟩ : c.toLower.isAlpha = false ∧ d.toLower.isAlpha = false := hplain _ hmem
    rwa [(hiff hc c).mp rfl, (hiff hd d).mp rfl] at hmem
  · intro hmem
    obtain ⟨hc, hd⟩ : c.isAlpha = false ∧ d.isAlpha = false := hplain _ hmem
    rwa [← (hiff hc c).mpr rfl, ← (hiff hd d).mpr rfl]

/-- What the next piece is and where it ends does not depend on the case of letters. -/
theorem next_toLower (before : Option Char) (c : Char) (cs : List Char) :
    next (before.map Char.toLower) c.toLower (cs.map Char.toLower) = next before c cs := by
  have hblank : Caseless isBlank := by unfold Caseless; decide
  have hdigit : Caseless isDigit := by unfold Caseless; decide
  have hletter : Caseless isLetter := by unfold Caseless; decide
  have htail : Caseless isWordTail := by unfold Caseless; decide
  have hpunctuation : Caseless punctuation := by unfold Caseless; decide
  have hnarrow : Caseless narrowOperators.contains := by unfold Caseless; decide
  have hbeq {m : Char} (hm : m.isAlpha = false) := toLower_beq hm c
  have hhead {m : Char} (hm : m.isAlpha = false) := map_toLower_beq hm cs.head?
  have hwide : (cs.head?.map Char.toLower).any (fun d => wideOperators.contains (c.toLower, d)) =
      cs.head?.any fun d => wideOperators.contains (c, d) := by
    rw [Option.any_map]
    exact congrArg (Option.any · cs.head?) (funext (wideOperators_toLower c))
  have hblock : through ['*', '/'] (cs.map Char.toLower).tail = through ['*', '/'] cs.tail := by
    rw [← List.map_tail, through_toLower (by decide)]
  rw [next, next, List.head?_map, hblank.toLower c, hdigit.toLower c, hletter.toLower c,
    hpunctuation.toLower c, hnarrow.toLower c, any_toLower hdigit, length_takeWhile_toLower htail,
    parameterTail_toLower, hwide, hblock, stringTail_toLower, numberTail_toLower,
    through_toLower (by decide), hhead (by decide), hhead (by decide)]
  simp only [hbeq (m := '-') (by decide), hbeq (m := '/') (by decide), hbeq (m := '\'') (by decide),
    hbeq (m := '"') (by decide), hbeq (m := '\x60') (by decide), hbeq (m := '.') (by decide),
    hbeq (m := '_') (by decide)]
  -- a quoted name ends in the quote that it starts with
  iterate 4 refine ite_congr rfl (fun _ => rfl) fun _ => ?_
  refine ite_congr rfl (fun hc => ?_) fun _ => rfl
  have hquote : c.toLower = c ∧ c.isAlpha = false := by
    rw [Bool.or_eq_true, beq_iff_eq, beq_iff_eq] at hc
    rcases hc with rfl | rfl <;> decide
  rw [hquote.1, through_toLower (by simp [hquote.2, letterless])]

/-- **Cutting** a text in lower case gives its pieces in lower case. -/
theorem cut_toLower (before : Option Char) (skip : Nat) (cs : List Char) :
    cut (before.map Char.toLower) skip (cs.map Char.toLower) =
      (cut before skip cs).map fun p => { p with text := p.text.map Char.toLower } := by
  induction cs generalizing before skip with
  | nil => cases skip <;> rfl
  | cons c cs ih =>
    have ih (skip : Nat) := ih (some c) skip
    rw [Option.map_some] at ih
    cases skip with
    | succ skip => exact ih skip
    | zero =>
      rw [List.map_cons, cut, cut, next_toLower, ih, List.map_cons, List.map_cons, List.map_take]

/-- **Small letters are cut as the text is**, piece by piece. -/
theorem ofText_toLower (cs : List Char) :
    ofText (cs.map Char.toLower) =
      (ofText cs).map fun p => { p with text := p.text.map Char.toLower } :=
  cut_toLower none 0 cs

end Piece

end IndexAdvice
