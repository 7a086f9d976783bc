import IndexAdvice.Source.Place
import IndexAdvice.Proofs.Searching
import Mathlib.Data.List.Induction

/-!
# What a place holds

A place is carried through a text one character after the other. What it holds is what the text
before it decides: its position and line, the beginning of its line, and the block comments that
end after it. So whether a place is commented out can be read off the text
(`isCommented_start_after`): it lies in a block comment, or the line up to it starts with a comment
mark.
-/

namespace IndexAdvice.Source

open Text

variable {text front : List Char} {spans : List (Nat × Nat)} {position k : Nat}

/-! ### Block comments in order -/

/-- Comments are found from the place on at which the search starts. -/
theorem le_of_mem_blockCommentsFrom {skip : Nat} {span : Nat × Nat} {cs : List Char}
    (h : span ∈ blockCommentsFrom position skip cs) : position + skip ≤ span.1 := by
  induction cs generalizing position skip with
  | nil => exact absurd h List.not_mem_nil
  | cons c cs ih =>
    cases skip with
    | succ k =>
      have := ih h
      omega
    | zero =>
      rw [blockCommentsFrom] at h
      split at h
      · have := ih h
        omega
      · split at h
        · obtain rfl | h := List.mem_cons.mp h
          · exact Nat.le_refl _
          · have := ih h
            omega
        · exact absurd h List.not_mem_nil

/-- Stretches of a text that follow each other. -/
structure InTurn (spans : List (Nat × Nat)) : Prop where
  ordered : spans.Pairwise fun s t => s.2 ≤ t.1
  nonempty : ∀ s ∈ spans, s.1 < s.2

theorem InTurn.tail {span : Nat × Nat} (h : InTurn (span :: spans)) : InTurn spans :=
  ⟨(List.pairwise_cons.mp h.ordered).2, (List.forall_mem_cons.mp h.nonempty).2⟩

/-- What follows a stretch ends after it. -/
theorem InTurn.lt_of_mem {s t : Nat × Nat} (h : InTurn (s :: spans)) (ht : t ∈ spans) :
    s.2 < t.2 :=
  Nat.lt_of_le_of_lt ((List.pairwise_cons.mp h.ordered).1 t ht)
    (h.nonempty t (List.mem_cons_of_mem s ht))

/-- Comments are found in turn, none within another one. -/
theorem inTurn_blockCommentsFrom (position skip : Nat) (cs : List Char) :
    InTurn (blockCommentsFrom position skip cs) := by
  induction cs generalizing position skip with
  | nil => exact ⟨.nil, by simp [blockCommentsFrom]⟩
  | cons c cs ih =>
    cases skip with
    | succ k => exact ih _ _
    | zero =>
      rw [blockCommentsFrom]
      split
      · exact ih _ _
      · split
        next n _ =>
          obtain ⟨hordered, hnonempty⟩ := ih (position + 1) (n + 1)
          refine ⟨List.pairwise_cons.mpr ⟨fun t ht => ?_, hordered⟩,
            List.forall_mem_cons.mpr ⟨by omega, hnonempty⟩⟩
          have := le_of_mem_blockCommentsFrom ht
          omega
        next => exact ⟨.nil, by simp⟩

theorem blockCommentsFrom_skip (position : Nat) (xs ys : List Char) :
    blockCommentsFrom position xs.length (xs ++ ys) =
      blockCommentsFrom (position + xs.length) 0 ys := by
  induction xs generalizing position with
  | nil => rfl
  | cons x xs ih =>
    rw [List.length_cons, List.cons_append, blockCommentsFrom, ih]
    congr 1
    omega

/-- A stretch in which no block comment opens is passed over. -/
theorem blockCommentsFrom_append {xs ys : List Char} (hxs : ¬ ['/', '*'] <:+: xs)
    (hmeet : ¬ (xs.getLast? = some '/' ∧ ys.head? = some '*')) (position : Nat) :
    blockCommentsFrom position 0 (xs ++ ys) = blockCommentsFrom (position + xs.length) 0 ys := by
  induction xs generalizing position with
  | nil => rfl
  | cons x xs ih =>
    have hnone := afterPrefix?_pair_eq_none hxs hmeet
    have hmeet' : ¬ (xs.getLast? = some '/' ∧ ys.head? = some '*') := fun h => hmeet
      ⟨by rw [List.getLast?_cons, h.1]; rfl, h.2⟩
    rw [List.cons_append, blockCommentsFrom, hnone, List.length_cons]
    simp only [ih (fun h => hxs (h.trans (List.infix_cons List.infix_rfl))) hmeet']
    congr 1
    omega

/-- A text without `/*` has no block comments. -/
theorem blockComments_eq_nil {cs : List Char} (h : ¬ ['/', '*'] <:+: cs) :
    blockComments cs = [] := by
  have hnone : blockCommentsFrom 0 0 (cs ++ []) = blockCommentsFrom (0 + cs.length) 0 [] :=
    blockCommentsFrom_append h (by simp) 0
  rwa [List.append_nil] at hnone

/-- Whether a position of a text lies in a block comment. -/
def inBlockComment (text : List Char) (k : Nat) : Bool :=
  (blockComments text).any fun s => s.1 ≤ k && k < s.2

/-- Among the stretches that end after a position, the first tells whether one covers it. -/
theorem any_head?_dropWhile (h : InTurn spans) (k : Nat) :
    (spans.dropWhile (·.2 ≤ k)).head?.any (·.1 ≤ k) =
      spans.any fun s => s.1 ≤ k && k < s.2 := by
  induction spans with
  | nil => rfl
  | cons s spans ih =>
    by_cases hs : s.2 ≤ k
    · have hover : (s.1 ≤ k && k < s.2) = false := by
        simp only [Bool.and_eq_false_iff, decide_eq_false_iff_not]
        omega
      rw [List.dropWhile_cons_of_pos (by simpa using hs), ih h.tail, List.any_cons, hover,
        Bool.false_or]
    · have hlater : (spans.any fun t => t.1 ≤ k && k < t.2) = false := by
        rw [List.any_eq_false]
        intro t ht
        have := (List.pairwise_cons.mp h.ordered).1 t ht
        simp only [Bool.and_eq_true, decide_eq_true_eq]
        omega
      rw [List.dropWhile_cons_of_neg (by simpa using hs), List.any_cons, hlater]
      simp only [List.head?_cons, Option.any_some, Bool.or_false]
      have : k < s.2 := Nat.lt_of_not_le hs
      simp [this]

/-! ### The last line -/

/-- The last line of a text. -/
def lastLine (front : List Char) : List Char :=
  (front.reverse.takeWhile (· != '\n')).reverse

theorem lastLine_concat (front : List Char) (c : Char) :
    lastLine (front ++ [c]) = if c = '\n' then [] else lastLine front ++ [c] := by
  rw [lastLine, List.reverse_append, List.reverse_singleton, List.singleton_append,
    List.takeWhile_cons]
  by_cases hc : c = '\n' <;> simp [hc, lastLine]

/-- Whether a line starts with a comment mark. -/
def startsMarked (line : List Char) : Bool :=
  commentMarks.any (·.isPrefixOf (trimStart line))

/-- A further character stays, unless it is a blank and nothing was there. -/
theorem trimStart_concat (line : List Char) (c : Char) :
    trimStart (line ++ [c]) =
      if (trimStart line).isEmpty && isBlank c then [] else trimStart line ++ [c] := by
  induction line with
  | nil => by_cases hc : isBlank c <;> simp [trimStart, hc]
  | cons d line ih =>
    by_cases hd : isBlank d
    · simpa [trimStart, hd] using ih
    · simp [trimStart, hd]

/-- The lead of a line is what its trimmed text starts with, extended character by character. -/
theorem extendLead_take (line : List Char) {c : Char} (hc : c ≠ '\n') :
    Place.extendLead ((trimStart line).take markLength) c =
      (trimStart (line ++ [c])).take markLength := by
  rw [Place.extendLead, if_neg (by simpa using hc), trimStart_concat]
  cases trimStart line with
  | nil => by_cases hblank : isBlank c <;> simp [hblank, markLength]
  | cons d rest => cases rest <;> simp [markLength]

/-- The first characters of a line tell whether it starts with a comment mark. -/
theorem any_commentMarks_take (line : List Char) :
    commentMarks.any (·.isPrefixOf (line.take markLength)) =
      commentMarks.any (·.isPrefixOf line) := by
  have hmarks : ∀ mark ∈ commentMarks, mark.length ≤ markLength := by decide
  refine Bool.eq_iff_iff.mpr ?_
  simp only [List.any_eq_true, List.isPrefixOf_iff_prefix]
  exact exists_congr fun mark => and_congr_right fun hmark =>
    List.prefix_take_iff.trans (and_iff_left (hmarks mark hmark))

/-- A line of its own has only the blanks before it. -/
theorem lastLine_append_of_isBlank {before indent : List Char}
    (hindent : ∀ c ∈ indent, isBlank c = true) (hbreak : before = [] ∨ '\n' ∈ indent) :
    ∀ c ∈ lastLine (before ++ indent), isBlank c = true := by
  induction indent using List.reverseRecOn with
  | nil =>
    obtain rfl : before = [] := hbreak.resolve_right List.not_mem_nil
    simp [lastLine]
  | append_singleton indent c ih =>
    rw [← List.append_assoc, lastLine_concat]
    split
    · exact fun _ h => absurd h List.not_mem_nil
    · next hc =>
      have hinner := ih (fun d hd => hindent d (List.mem_append_left [c] hd))
        (hbreak.imp_right fun h => (List.mem_append.mp h).resolve_right (by simpa using Ne.symm hc))
      rw [List.forall_mem_append]
      exact ⟨hinner, fun d hd => hindent d (List.mem_append_right indent hd)⟩

theorem trimStart_of_isBlank {line : List Char} (h : ∀ c ∈ line, isBlank c = true) :
    trimStart line = [] := by
  rw [trimStart, ← List.append_nil line, List.dropWhile_append_of_pos h]
  rfl

/-- A line of blanks has no comment mark. -/
theorem startsMarked_of_isBlank {line : List Char} (h : ∀ c ∈ line, isBlank c = true) :
    startsMarked line = false := by
  rw [startsMarked, trimStart_of_isBlank h]
  rfl

/-! ### Going through a text -/

namespace Place

variable {p : Place} {xs ys : List Char} {c : Char}

/-- The place after some characters. -/
def after (p : Place) (xs : List Char) : Place :=
  xs.foldl next p

@[simp]
theorem after_nil (p : Place) : p.after [] = p :=
  rfl

@[simp]
theorem after_cons (p : Place) (c : Char) (xs : List Char) :
    p.after (c :: xs) = (p.next c).after xs :=
  rfl

theorem after_append (p : Place) (xs ys : List Char) :
    p.after (xs ++ ys) = (p.after xs).after ys :=
  List.foldl_append

theorem after_concat (p : Place) (xs : List Char) (c : Char) :
    p.after (xs ++ [c]) = (p.after xs).next c :=
  after_append p xs [c]

theorem position_after (p : Place) (xs : List Char) :
    (p.after xs).position = p.position + xs.length := by
  induction xs generalizing p with
  | nil => rfl
  | cons c xs ih =>
    rw [after_cons, ih, List.length_cons]
    simp only [next]
    omega

theorem line_after (p : Place) (xs : List Char) :
    (p.after xs).line = p.line + xs.count '\n' := by
  induction xs generalizing p with
  | nil => rfl
  | cons c xs ih =>
    rw [after_cons, ih, List.count_cons]
    by_cases hc : c = '\n' <;> simp [next, hc]
    omega

theorem before_after (p : Place) (xs : List Char) :
    (p.after xs).before = xs.getLast?.or p.before := by
  induction xs using List.reverseRecOn with
  | nil => rfl
  | append_singleton xs c => simp [after_concat, next]

/-- After anything but a word character a word may start. -/
theorem atWordStart_after (p : Place) {xs : List Char}
    (hxs : ∀ c ∈ xs.getLast?, isWordChar c = false) (hp : xs = [] → p.atWordStart = true) :
    (p.after xs).atWordStart = true := by
  cases hlast : xs.getLast? with
  | none =>
    obtain rfl := List.getLast?_eq_none_iff.mp hlast
    exact hp rfl
  | some c => simp [atWordStart, before_after, hlast, hxs c hlast]

/-- The lead at a place is that of the line it is in. -/
theorem lead_start_after (text front : List Char) :
    ((start text).after front).lead = (trimStart (lastLine front)).take markLength := by
  induction front using List.reverseRecOn with
  | nil => rfl
  | append_singleton front c ih =>
    rw [after_concat, next, ih, lastLine_concat]
    by_cases hc : c = '\n'
    · simp [hc, extendLead, trimStart]
    · rw [if_neg hc, extendLead_take _ hc]

/-- Comments that have ended may be forgotten one character at a time. -/
theorem endingAfter_dropWhile (h : InTurn spans) (k : Nat) :
    endingAfter (k + 1) (spans.dropWhile (·.2 ≤ k)) = spans.dropWhile (·.2 ≤ k + 1) := by
  induction spans with
  | nil => rfl
  | cons s spans ih =>
    by_cases hs : s.2 ≤ k
    · rw [List.dropWhile_cons_of_pos (by simpa using hs),
        List.dropWhile_cons_of_pos (by simp only [decide_eq_true_eq]; omega), ih h.tail]
    · rw [List.dropWhile_cons_of_neg (by simpa using hs), endingAfter]
      by_cases hnext : s.2 ≤ k + 1
      · rw [if_pos hnext, List.dropWhile_cons_of_pos (by simpa using hnext)]
        cases spans with
        | nil => rfl
        | cons t spans =>
          have := h.lt_of_mem (t := t) List.mem_cons_self
          rw [List.dropWhile_cons_of_neg (by simp only [decide_eq_true_eq]; omega)]
      · rw [if_neg hnext, List.dropWhile_cons_of_neg (by simpa using hnext)]

/-- The comments at a place are those that have not ended there. -/
theorem comments_start_after (text front : List Char) :
    ((start text).after front).comments =
      (blockComments text).dropWhile (·.2 ≤ front.length) := by
  have hturn := inTurn_blockCommentsFrom 0 0 text
  induction front using List.reverseRecOn with
  | nil =>
    have hkept : (blockComments text).dropWhile (·.2 ≤ 0) = blockComments text := by
      cases hspans : blockComments text with
      | nil => rfl
      | cons s spans =>
        have := hturn.nonempty s (by rw [← blockComments, hspans]; exact List.mem_cons_self)
        exact List.dropWhile_cons_of_neg (by simp only [decide_eq_true_eq]; omega)
    exact hkept.symm
  | append_singleton front c ih =>
    rw [after_concat, next, ih, position_after, start, Nat.zero_add, List.length_append,
      List.length_singleton]
    exact endingAfter_dropWhile hturn _

/-- **Commented-out places.** A place is commented out if it lies in a block comment or the line up
to it starts with a comment mark. -/
theorem isCommented_start_after (text front : List Char) :
    ((start text).after front).isCommented =
      (inBlockComment text front.length || startsMarked (lastLine front)) := by
  rw [isCommented, comments_start_after, position_after, lead_start_after, any_commentMarks_take,
    start, Nat.zero_add, blockComments, any_head?_dropWhile (inTurn_blockCommentsFrom 0 0 text)]
  rfl

end Place

end IndexAdvice.Source
