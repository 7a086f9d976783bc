import IndexAdvice.Proofs.Searching
import IndexAdvice.Proofs.SourcePlaces
import IndexAdvice.Source.Declaration

/-!
# Code and comments

A source text is read from the left: characters of code, line comments up to the end of their line,
and block comments up to the first mark that closes them. `AreParts` says that a list of parts is
this reading of its text, and `partsOf` computes the parts of any text.

The scans of declarations and calls do not read a text this way. They look for block comments
everywhere, in line comments too. Where no line comment holds an opening mark, the block comments
they find are the block parts (`inBlockComment_textOf`), and taking out first these and then the
line comments leaves the code with a blank for each comment (`replaceAll_comments`).
-/

namespace IndexAdvice.Source

open Text

/-- A part of a source text: a character of code, or a comment. -/
inductive Part
  | code (c : Char)
  | line (content : List Char)
  | block (content : List Char)
deriving DecidableEq, Repr

namespace Part

/-- A part as it is written. -/
def text : Part → List Char
  | code c => [c]
  | line content => '/' :: '/' :: content
  | block content => '/' :: '*' :: (content ++ ['*', '/'])

def isBlock : Part → Bool
  | block _ => true
  | _ => false

def isComment : Part → Bool
  | code _ => false
  | _ => true

/-- What is left of a part without comments. -/
def plain : Part → List Char
  | code c => [c]
  | _ => [' ']

/-- A part with a blank for a block comment. -/
def withoutBlock : Part → Part
  | block _ => code ' '
  | p => p

end Part

open IndexAdvice.Source.Part

variable {c : Char} {k n position : Nat} {content cs xs ys : List Char} {p : Part}
  {ps qs : List Part}

/-- The text that parts are written as. -/
def textOf (ps : List Part) : List Char :=
  ps.flatMap Part.text

@[simp]
theorem textOf_nil : textOf [] = [] :=
  rfl

@[simp]
theorem textOf_cons (p : Part) (ps : List Part) : textOf (p :: ps) = p.text ++ textOf ps :=
  List.flatMap_cons

@[simp]
theorem textOf_append (ps qs : List Part) : textOf (ps ++ qs) = textOf ps ++ textOf qs :=
  List.flatMap_append

theorem text_infix_textOf (h : p ∈ ps) : p.text <:+: textOf ps := by
  obtain ⟨before, after, rfl⟩ := List.append_of_mem h
  exact ⟨textOf before, textOf after, by simp⟩

/-- Characters of code. -/
def codes (cs : List Char) : List Part :=
  cs.map code

@[simp]
theorem textOf_codes (cs : List Char) : textOf (codes cs) = cs := by
  induction cs with
  | nil => rfl
  | cons c cs ih => exact congrArg (c :: ·) ih

/-! ### Reading a text -/

/-- The comments that are read in a text are the parts that are comments. -/
inductive AreParts : List Part → Prop
  | nil : AreParts []
  | code {c : Char} {ps : List Part} : lineComment? (c :: textOf ps) = none →
      blockComment? (c :: textOf ps) = none → AreParts ps → AreParts (code c :: ps)
  | line {content : List Char} {ps : List Part} : '\n' ∉ content →
      (∀ c ∈ (textOf ps).head?, c = '\n') → AreParts ps → AreParts (line content :: ps)
  | block {content : List Char} {ps : List Part} : ¬ ['*', '/'] <:+: content → AreParts ps →
      AreParts (block content :: ps)

/-- A line comment is found with its length, if its line ends where it does. -/
theorem lineComment?_line (hcontent : '\n' ∉ content) (hxs : ∀ c ∈ xs.head?, c = '\n') :
    lineComment? ((line content).text ++ xs) = some (line content).text.length := by
  have htake : (content ++ xs).takeWhile (· != '\n') = content := by
    rw [List.takeWhile_append_of_pos fun c hc => ?_]
    · cases xs with
      | nil => exact List.append_nil content
      | cons x xs =>
        rw [List.takeWhile_cons_of_neg (by simpa using hxs x rfl), List.append_nil]
    · simpa using ne_of_mem_of_not_mem hc hcontent
  have hprefix : afterPrefix? ['/', '/'] ((line content).text ++ xs) = some (content ++ xs) :=
    afterPrefix?_append ['/', '/'] (content ++ xs)
  rw [lineComment?, hprefix, Option.map_some, htake]
  rfl

/-- What is found as a line comment is one. -/
theorem exists_of_lineComment? (h : lineComment? cs = some n) :
    ∃ content rest, cs = (line content).text ++ rest ∧ n = (line content).text.length ∧
      '\n' ∉ content ∧ ∀ c ∈ rest.head?, c = '\n' := by
  obtain ⟨rest, hrest, rfl⟩ := Option.map_eq_some_iff.mp h
  obtain rfl := eq_append_of_afterPrefix? hrest
  refine ⟨rest.takeWhile (· != '\n'), rest.dropWhile (· != '\n'), ?_, rfl, fun hmem => ?_,
    fun c hc => ?_⟩
  · simp [text]
  · simpa using List.all_eq_true.mp List.all_takeWhile '\n' hmem
  · have hstop := List.head?_dropWhile_not (· != '\n') rest
    rw [Option.mem_def.mp hc] at hstop
    simpa using hstop

/-- A block comment is found with its length, whatever follows. -/
theorem blockComment?_block (hcontent : ¬ ['*', '/'] <:+: content) (xs : List Char) :
    blockComment? ((block content).text ++ xs) = some (block content).text.length := by
  have htext : (block content).text ++ xs = ['/', '*'] ++ (content ++ (['*', '/'] ++ xs)) := by
    simp [text]
  have hfirst : throughFirst? ['*', '/'] (content ++ (['*', '/'] ++ xs)) =
      some (0 + content.length + 2) := searchFrom_first (by decide) hcontent 0 xs
  rw [htext, blockComment?, afterPrefix?_append, Option.bind_some, hfirst, Option.map_some]
  simp [text]

/-- A block comment is closed by the first mark that can close it. -/
theorem exists_of_blockComment? (h : blockComment? cs = some n) :
    ∃ content rest, cs = (block content).text ++ rest ∧ n = (block content).text.length ∧
      ¬ ['*', '/'] <:+: content := by
  obtain ⟨opened, hopened, hclosed⟩ := Option.bind_eq_some_iff.mp h
  obtain ⟨m, hm, rfl⟩ := Option.map_eq_some_iff.mp hclosed
  obtain rfl := eq_append_of_afterPrefix? hopened
  obtain ⟨content, rest, rfl, rfl, hcontent⟩ := exists_of_searchFrom (by decide) hm
  exact ⟨content, rest, by simp [text], by simp [text], hcontent⟩

/-- The parts of a text whose first `skip` characters belong to a comment read already. -/
def partsFrom (skip : Nat) : List Char → List Part
  | [] => []
  | c :: cs =>
    match skip with
    | k + 1 => partsFrom k cs
    | 0 =>
      match lineComment? (c :: cs) with
      | some n => line (((c :: cs).take n).drop 2) :: partsFrom (n - 1) cs
      | none =>
        match blockComment? (c :: cs) with
        | some n => block (((c :: cs).take (n - 2)).drop 2) :: partsFrom (n - 1) cs
        | none => code c :: partsFrom 0 cs

/-- The parts of a text. -/
def partsOf (text : List Char) : List Part :=
  partsFrom 0 text

theorem partsFrom_skip (xs ys : List Char) : partsFrom xs.length (xs ++ ys) = partsFrom 0 ys := by
  induction xs with
  | nil => rfl
  | cons x xs ih => exact ih

/-- A character that starts no comment is a part of its own. -/
theorem partsOf_code (hline : lineComment? (c :: cs) = none)
    (hblock : blockComment? (c :: cs) = none) : partsOf (c :: cs) = code c :: partsOf cs := by
  simp only [partsOf, partsFrom, hline, hblock]

theorem partsOf_line (hcontent : '\n' ∉ content) (hxs : ∀ c ∈ xs.head?, c = '\n') :
    partsOf ((line content).text ++ xs) = line content :: partsOf xs := by
  have hread := lineComment?_line hcontent hxs
  have hskip := partsFrom_skip content xs
  simp only [text, List.cons_append] at hread
  simp only [partsOf, text, List.cons_append, partsFrom, hread]
  simpa using hskip

theorem partsOf_block (hcontent : ¬ ['*', '/'] <:+: content) (xs : List Char) :
    partsOf ((block content).text ++ xs) = block content :: partsOf xs := by
  have hread := blockComment?_block hcontent xs
  have hskip := partsFrom_skip (content ++ ['*', '/']) xs
  have hline : lineComment? ((block content).text ++ xs) = none := rfl
  simp only [text, List.cons_append] at hread hskip hline
  simp only [partsOf, text, List.cons_append, partsFrom, hread, hline]
  simpa using hskip

/-- **Every text has parts.** -/
theorem partsOf_spec (cs : List Char) : textOf (partsOf cs) = cs ∧ AreParts (partsOf cs) := by
  induction hn : cs.length using Nat.strongRecOn generalizing cs with
  | ind _ ih =>
    subst hn
    cases cs with
    | nil => exact ⟨rfl, .nil⟩
    | cons c cs =>
      cases hline : lineComment? (c :: cs) with
      | some n =>
        obtain ⟨content, rest, htext, -, hcontent, hrest⟩ := exists_of_lineComment? hline
        obtain ⟨hsame, hparts⟩ := ih rest.length (by rw [htext]; simp [text]; omega) rest rfl
        rw [htext, partsOf_line hcontent hrest, textOf_cons, hsame]
        exact ⟨rfl, .line hcontent (by rwa [hsame]) hparts⟩
      | none =>
        cases hblock : blockComment? (c :: cs) with
        | some n =>
          obtain ⟨content, rest, htext, -, hcontent⟩ := exists_of_blockComment? hblock
          obtain ⟨hsame, hparts⟩ := ih rest.length (by rw [htext]; simp [text]; omega) rest rfl
          rw [htext, partsOf_block hcontent, textOf_cons, hsame]
          exact ⟨rfl, .block hcontent hparts⟩
        | none =>
          obtain ⟨hsame, hparts⟩ := ih cs.length (Nat.lt_succ_self _) cs rfl
          rw [partsOf_code hline hblock, textOf_cons, hsame]
          exact ⟨rfl, .code (by rwa [hsame]) (by rwa [hsame]) hparts⟩

/-- A text is read in one way only. -/
theorem areParts_iff : AreParts ps ↔ partsOf (textOf ps) = ps := by
  refine ⟨fun h => ?_, fun h => h ▸ (partsOf_spec (textOf ps)).2⟩
  induction h with
  | nil => rfl
  | code hline hblock _ ih =>
    rw [textOf_cons, text, List.singleton_append, partsOf_code hline hblock, ih]
  | line hcontent hnext _ ih => rw [textOf_cons, partsOf_line hcontent hnext, ih]
  | block hcontent _ ih => rw [textOf_cons, partsOf_block hcontent, ih]

instance (ps : List Part) : Decidable (AreParts ps) :=
  decidable_of_iff _ areParts_iff.symm

/-! ### Some of the parts -/

/-- Parts after others are parts by themselves. -/
theorem AreParts.right (h : AreParts (ps ++ qs)) : AreParts qs := by
  induction ps with
  | nil => exact h
  | cons p ps ih =>
    cases h with
    | code _ _ h | line _ _ h | block _ h => exact ih h

theorem lineComment?_eq_none_of_append (h : lineComment? (xs ++ ys) = none) :
    lineComment? xs = none := by
  rw [Option.eq_none_iff_forall_ne_some] at h ⊢
  rintro n hn
  obtain ⟨content, rest, rfl, -⟩ := exists_of_lineComment? hn
  exact absurd h (by simp [lineComment?, afterPrefix?, text])

theorem blockComment?_eq_none_of_append (h : blockComment? (xs ++ ys) = none) :
    blockComment? xs = none := by
  rw [Option.eq_none_iff_forall_ne_some] at h ⊢
  rintro n hn
  obtain ⟨content, rest, rfl, -, hcontent⟩ := exists_of_blockComment? hn
  rw [List.append_assoc] at h
  exact h _ (blockComment?_block hcontent (rest ++ ys))

/-- Parts before others are parts by themselves. -/
theorem AreParts.left (h : AreParts (ps ++ qs)) : AreParts ps := by
  induction ps with
  | nil => exact .nil
  | cons p ps ih =>
    rw [List.cons_append] at h
    cases h with
    | code hline hblock h =>
      rw [textOf_append, ← List.cons_append] at hline hblock
      exact .code (lineComment?_eq_none_of_append hline) (blockComment?_eq_none_of_append hblock)
        (ih h)
    | line hcontent hnext h =>
      refine .line hcontent (fun c hc => hnext c ?_) (ih h)
      rw [textOf_append, List.head?_append, Option.mem_def.mp hc]
      rfl
    | block hcontent h => exact .block hcontent (ih h)

theorem lineComment?_eq_none (h : afterPrefix? ['/', '/'] cs = none) : lineComment? cs = none := by
  rw [lineComment?, h]
  rfl

theorem blockComment?_eq_none (h : afterPrefix? ['/', '*'] cs = none) :
    blockComment? cs = none := by
  rw [blockComment?, h]
  rfl

/-- Code in which no comment starts. -/
theorem areParts_codes_append (hline : ¬ ['/', '/'] <:+: cs) (hblock : ¬ ['/', '*'] <:+: cs)
    (hmeet : cs.getLast? = some '/' → ∀ d ∈ (textOf ps).head?, d ∉ ['/', '*'])
    (h : AreParts ps) : AreParts (codes cs ++ ps) := by
  induction cs with
  | nil => exact h
  | cons c cs ih =>
    have hends (d : Char) (hd : d ∈ ['/', '*']) :
        ¬ ((c :: cs).getLast? = some '/' ∧ (textOf ps).head? = some d) :=
      fun ⟨hlast, hhead⟩ => hmeet hlast d hhead hd
    have hrest : AreParts (codes cs ++ ps) := by
      refine ih ?_ ?_ fun hlast => hmeet ?_
      · exact fun h => hline (h.trans (List.infix_cons List.infix_rfl))
      · exact fun h => hblock (h.trans (List.infix_cons List.infix_rfl))
      · rw [List.getLast?_cons, hlast]
        rfl
    have htext : textOf (codes cs ++ ps) = cs ++ textOf ps := by simp
    have hlineNone := lineComment?_eq_none (afterPrefix?_pair_eq_none hline (hends '/' (by decide)))
    have hblockNone :=
      blockComment?_eq_none (afterPrefix?_pair_eq_none hblock (hends '*' (by decide)))
    rw [← htext] at hlineNone hblockNone
    exact .code hlineNone hblockNone hrest

/-! ### Positions -/

/-- The part that a position lies in. -/
def partAt? : List Part → Nat → Option Part
  | [], _ => none
  | p :: ps, k => if k < p.text.length then some p else partAt? ps (k - p.text.length)

/-- A place in a part is in that part. -/
theorem partAt?_append (ps : List Part) (p : Part) (qs : List Part) (hn : n < p.text.length) :
    partAt? (ps ++ p :: qs) ((textOf ps).length + n) = some p := by
  induction ps with
  | nil => rw [List.nil_append, textOf_nil, List.length_nil, Nat.zero_add, partAt?, if_pos hn]
  | cons q ps ih =>
    rw [List.cons_append, textOf_cons, List.length_append, Nat.add_assoc, partAt?,
      if_neg (by omega), Nat.add_sub_cancel_left, ih]

/-- The part at a place is one around it. -/
theorem exists_of_partAt? (h : partAt? ps k = some p) :
    ∃ before after n, ps = before ++ p :: after ∧ k = (textOf before).length + n ∧
      n < p.text.length := by
  induction ps generalizing k with
  | nil => exact absurd h (by simp [partAt?])
  | cons q ps ih =>
    rw [partAt?] at h
    split at h
    · next hk =>
      obtain rfl := Option.some.inj h
      exact ⟨[], ps, k, rfl, by simp, hk⟩
    · next hk =>
      obtain ⟨before, after, n, rfl, hn, hlt⟩ := ih h
      refine ⟨q :: before, after, n, rfl, ?_, hlt⟩
      rw [textOf_cons, List.length_append]
      omega

/-- A position lies in a part, unless it is behind the text. -/
theorem partAt?_eq_none_iff : partAt? ps k = none ↔ (textOf ps).length ≤ k := by
  induction ps generalizing k with
  | nil => simp [partAt?]
  | cons p ps ih =>
    rw [partAt?, textOf_cons, List.length_append]
    split
    · simp only [reduceCtorEq, false_iff]
      omega
    · rw [ih]
      omega

/-! ### Block comments -/

/-- From where to where the block parts of a text reach. -/
def blockSpans (position : Nat) : List Part → List (Nat × Nat)
  | [] => []
  | p :: ps =>
    let stop := position + p.text.length
    if p.isBlock then (position, stop) :: blockSpans stop ps else blockSpans stop ps

theorem le_of_mem_blockSpans {span : Nat × Nat} (h : span ∈ blockSpans position ps) :
    position ≤ span.1 := by
  fun_induction blockSpans position ps with
  | case1 => exact absurd h List.not_mem_nil
  | case2 position p ps stop _ ih =>
    obtain rfl | h := List.mem_cons.mp h
    · exact Nat.le_refl _
    · exact Nat.le_trans (Nat.le_add_right _ _) (ih h)
  | case3 position p ps stop _ ih => exact Nat.le_trans (Nat.le_add_right _ _) (ih h)

theorem blockSpans_eq_nil (h : ∀ p ∈ ps, p.isBlock = false) : blockSpans position ps = [] := by
  induction ps generalizing position with
  | nil => rfl
  | cons p ps ih =>
    rw [List.forall_mem_cons] at h
    rw [blockSpans, h.1]
    exact ih h.2

/-- A place is in some block comment's span just if the part there is a block comment. -/
theorem any_blockSpans (ps : List Part) (position k : Nat) :
    (blockSpans position ps).any (fun s => s.1 ≤ position + k && position + k < s.2) =
      (partAt? ps k).any Part.isBlock := by
  induction ps generalizing position k with
  | nil => rfl
  | cons p ps ih =>
    rw [partAt?, blockSpans]
    by_cases hk : k < p.text.length
    · have hlater : (blockSpans (position + p.text.length) ps).any
          (fun s => s.1 ≤ position + k && position + k < s.2) = false := by
        rw [List.any_eq_false]
        intro s hs
        have := le_of_mem_blockSpans hs
        simp only [Bool.and_eq_true, decide_eq_true_eq]
        omega
      rw [if_pos hk]
      cases hp : p.isBlock <;> simp [hp, hlater, hk]
    · have hlater := ih (position + p.text.length) (k - p.text.length)
      rw [Nat.add_assoc, Nat.add_sub_cancel' (Nat.le_of_not_lt hk)] at hlater
      rw [if_neg hk]
      cases hp : p.isBlock <;> simp [hlater, hk]

/-- A part that is no line comment with a mark in it that opens a block comment. -/
def Part.HidesNoOpener : Part → Prop
  | line content => ¬ ['/', '*'] <:+: '/' :: content
  | _ => True

instance : DecidablePred Part.HidesNoOpener
  | code _ | block _ => .isTrue trivial
  | line content => inferInstanceAs (Decidable (¬ ['/', '*'] <:+: '/' :: content))

theorem Part.HidesNoOpener.text (h : (line content).HidesNoOpener) :
    ¬ ['/', '*'] <:+: (line content).text := by
  rw [Part.text, List.infix_cons_iff, not_or]
  exact ⟨by simp, h⟩

/-- The block comments of a text are its block parts. -/
theorem blockCommentsFrom_textOf (h : AreParts ps) (hlines : ∀ p ∈ ps, p.HidesNoOpener)
    (position : Nat) : blockCommentsFrom position 0 (textOf ps) = blockSpans position ps := by
  induction h generalizing position with
  | nil => rfl
  | @code c ps _ hblock _ ih =>
    rw [List.forall_mem_cons] at hlines
    rw [textOf_cons, text, List.singleton_append, blockCommentsFrom, blockSpans]
    cases hopened : afterPrefix? ['/', '*'] (c :: textOf ps) with
    | none => exact ih hlines.2 (position + 1)
    | some content =>
      obtain ⟨rfl, hps⟩ : c = '/' ∧ textOf ps = '*' :: content :=
        List.cons.inj (eq_append_of_afterPrefix? hopened)
      have hnever : throughFirst? ['*', '/'] content = none := by
        simpa [blockComment?, hopened] using hblock
      have hclosed := not_infix_of_searchFrom (by decide) hnever
      -- a block part in the rest would have a closing mark in it
      have hnil : ∀ p ∈ ps, p.isBlock = false := by
        intro p hp
        cases p with
        | code | line => rfl
        | block inner =>
          have hinside : (block inner).text <:+: '*' :: content := hps ▸ text_infix_textOf hp
          have hend : ['*', '/'] <:+: (block inner).text :=
            ⟨'/' :: '*' :: inner, [], by simp [text]⟩
          obtain hstart | hlater := List.infix_cons_iff.mp hinside
          · exact absurd (List.cons_prefix_cons.mp hstart).1 (by decide)
          · exact absurd (hend.trans hlater) hclosed
      simp only [hnever]
      exact (blockSpans_eq_nil hnil).symm
  | @line content ps hcontent hnext _ ih =>
    rw [List.forall_mem_cons] at hlines
    rw [textOf_cons, blockCommentsFrom_append hlines.1.text fun hmeet => ?_, ih hlines.2]
    · rfl
    · exact absurd (hnext '*' hmeet.2) (by decide)
  | @block content ps hcontent _ ih =>
    rw [List.forall_mem_cons] at hlines
    have hfirst : throughFirst? ['*', '/'] (content ++ (['*', '/'] ++ textOf ps)) =
        some (0 + content.length + 2) := searchFrom_first (by decide) hcontent 0 (textOf ps)
    have htext : textOf (block content :: ps) =
        '/' :: '*' :: (content ++ (['*', '/'] ++ textOf ps)) := by
      simp [text]
    have hopened : afterPrefix? ['/', '*'] (textOf (block content :: ps)) =
        some (content ++ (['*', '/'] ++ textOf ps)) := htext ▸ afterPrefix?_append ['/', '*'] _
    have hskip : blockCommentsFrom (position + 2) (content.length + 2)
        (content ++ (['*', '/'] ++ textOf ps)) =
          blockCommentsFrom (position + 2 + (content.length + 2)) 0 (textOf ps) := by
      have hpassed := blockCommentsFrom_skip (position + 2) (content ++ ['*', '/']) (textOf ps)
      rwa [List.append_assoc, List.length_append] at hpassed
    have hlength : (block content).text.length = content.length + 4 := by simp [text]
    rw [htext] at hopened ⊢
    simp only [blockCommentsFrom, hopened, hfirst, blockSpans, isBlock, hlength, if_true]
    rw [Nat.zero_add, hskip, ← ih hlines.2]
    congr 2
    omega

/-- **Block comments.** Where no line comment hides an opening mark, the positions in a block
comment are those in a block part. -/
theorem inBlockComment_textOf (h : AreParts ps) (hlines : ∀ p ∈ ps, p.HidesNoOpener) (k : Nat) :
    inBlockComment (textOf ps) k = (partAt? ps k).any Part.isBlock := by
  have hspans := any_blockSpans ps 0 k
  rw [Nat.zero_add] at hspans
  rw [inBlockComment, blockComments, blockCommentsFrom_textOf h hlines, hspans]

/-- Code is not taken for a comment, if no line comment hides the start of one. -/
theorem inBlockComment_code (h : AreParts (ps ++ code c :: qs))
    (hlines : ∀ p ∈ ps ++ code c :: qs, p.HidesNoOpener) :
    inBlockComment (textOf (ps ++ code c :: qs)) (textOf ps).length = false := by
  have hat := partAt?_append (n := 0) ps (code c) qs Nat.one_pos
  rw [Nat.add_zero] at hat
  rw [inBlockComment_textOf h hlines, hat]
  rfl

/-! ### Texts without comments -/

/-- What follows a line comment stays what it is. -/
theorem head?_textOf_withoutBlock {ps : List Part} (h : ∀ c ∈ (textOf ps).head?, c = '\n') :
    ∀ c ∈ (textOf (ps.map withoutBlock)).head?, c = '\n' := by
  cases ps with
  | nil => simp
  | cons p ps =>
    cases p with
    | code c => exact h
    | line content => exact h
    | block content => exact absurd (h '/' rfl) (by decide)

/-- Taking block comments out takes out those parts, if no line comment hides the start of one. -/
theorem replaceAll_blockComment? (h : AreParts ps) (hlines : ∀ p ∈ ps, p.HidesNoOpener) :
    replaceAll blockComment? [' '] (textOf ps) = textOf (ps.map withoutBlock) := by
  induction h with
  | nil => rfl
  | @code c ps _ hblock _ ih =>
    rw [List.forall_mem_cons] at hlines
    rw [textOf_cons, text, List.singleton_append, replaceAll_cons_of_none [' '] hblock,
      ih hlines.2]
    rfl
  | @line content ps hcontent hnext _ ih =>
    rw [List.forall_mem_cons] at hlines
    rw [textOf_cons, replaceAll_append [' '] fun d rest hsuffix => ?_, ih hlines.2]
    · rfl
    · refine blockComment?_eq_none (afterPrefix?_pair_eq_none (fun hpair => ?_) fun hmeet => ?_)
      · exact hlines.1.text (hpair.trans hsuffix.isInfix)
      · exact absurd (hnext '*' hmeet.2) (by decide)
  | @block content ps hcontent _ ih =>
    rw [List.forall_mem_cons] at hlines
    have hread := blockComment?_block hcontent (textOf ps)
    rw [textOf_cons]
    exact (replaceAll_append_of_some [' '] hread).trans (congrArg (' ' :: ·) (ih hlines.2))

/-- After that, line comments are all that is left to take out. -/
theorem replaceAll_lineComment? (h : AreParts ps) :
    replaceAll lineComment? [' '] (textOf (ps.map withoutBlock)) = ps.flatMap plain := by
  induction h with
  | nil => rfl
  | @code c ps hline _ _ ih =>
    have hnone : lineComment? (c :: textOf (ps.map withoutBlock)) = none := by
      refine lineComment?_eq_none ?_
      rw [Option.eq_none_iff_forall_ne_some]
      intro rest hrest
      obtain ⟨rfl, hnext⟩ : c = '/' ∧ textOf (ps.map withoutBlock) = '/' :: rest :=
        List.cons.inj (eq_append_of_afterPrefix? hrest)
      -- a blank in the place of a comment makes no slash, so the second one was there before
      obtain ⟨rest', hps⟩ : ∃ rest', textOf ps = '/' :: rest' := by
        cases ps with
        | nil => exact absurd hnext (by simp)
        | cons p ps =>
          cases p with
          | code d => exact ⟨textOf ps, by rw [(List.cons.inj hnext).1]; rfl⟩
          | line content => exact ⟨_, rfl⟩
          | block content => exact ⟨_, rfl⟩
      rw [hps] at hline
      exact absurd hline (by simp [lineComment?, afterPrefix?])
    exact (replaceAll_cons_of_none [' '] hnone).trans (congrArg (c :: ·) ih)
  | @line content ps hcontent hnext _ ih =>
    have hread := lineComment?_line hcontent (head?_textOf_withoutBlock hnext)
    exact (replaceAll_append_of_some [' '] hread).trans (congrArg (' ' :: ·) ih)
  | @block content ps hcontent _ ih =>
    have hnone : lineComment? (' ' :: textOf (ps.map withoutBlock)) = none := rfl
    exact (replaceAll_cons_of_none [' '] hnone).trans (congrArg (' ' :: ·) ih)

/-- **Texts without comments.** The two replacements leave a blank for each comment. -/
theorem replaceAll_comments (h : AreParts ps) (hlines : ∀ p ∈ ps, p.HidesNoOpener) :
    replaceAll lineComment? [' '] (replaceAll blockComment? [' '] (textOf ps)) =
      ps.flatMap plain := by
  rw [replaceAll_blockComment? h hlines, replaceAll_lineComment? h]

end IndexAdvice.Source
