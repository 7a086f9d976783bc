import IndexAdvice.Naming
import IndexAdvice.Proofs.LetterCase

/-!
# Lower case stays as it is

A code point that lower case changes lies in one of the `changedRuns`, and no run maps to one of
those (`holds_image`). So a text in lower case is its own lower-case form (`lower_lower`), and so
are the variants of a name (`lower_of_mem_variants`).

The runs hold some thousand code points. To tell the two sets apart at once, each of them is made
one number, with a bit for each member (`bits`).
-/

namespace IndexAdvice

namespace Text

/-! ### Sets of code points -/

/-- The number whose bits are the given ones. -/
def bits (ns : List Nat) : Nat :=
  ns.foldr (fun n m => m ||| 1 <<< n) 0

theorem testBit_bits {ns : List Nat} {n : Nat} (h : n ∈ ns) : (bits ns).testBit n = true := by
  induction ns with
  | nil => exact absurd h List.not_mem_nil
  | cons m ns ih =>
    rw [bits, List.foldr_cons, Nat.testBit_or, Bool.or_eq_true]
    rcases List.mem_cons.mp h with rfl | h
    · exact .inr (by rw [Nat.one_shiftLeft, Nat.testBit_two_pow_self])
    · exact .inl (ih h)

/-- Lists whose masks have no bit in common have no number in common. -/
theorem not_mem_of_bits {ns ms : List Nat} (h : bits ns &&& bits ms = 0) {n : Nat} (hn : n ∈ ns) :
    n ∉ ms := by
  intro hm
  have hboth : (bits ns &&& bits ms).testBit n = true := by
    rw [Nat.testBit_and, testBit_bits hn, testBit_bits hm]
    rfl
  rw [h, Nat.zero_testBit] at hboth
  cases hboth

/-! ### Runs -/

namespace CaseRun

/-- Whether a run holds a code point. -/
def holds (r : CaseRun) (n : Nat) : Bool :=
  r.first ≤ n && n ≤ r.last && (n - r.first) % r.step == 0

/-- The code points that a run holds. -/
def codes (r : CaseRun) : List Nat :=
  (List.range ((r.last - r.first) / r.step + 1)).map fun k => r.first + k * r.step

/-- The code point that a run maps `n` to. -/
def image (r : CaseRun) (n : Nat) : Nat :=
  r.target + (n - r.first)

theorem mem_codes {r : CaseRun} {n : Nat} (h : r.holds n = true) : n ∈ r.codes := by
  simp only [holds, Bool.and_eq_true, decide_eq_true_eq, beq_iff_eq] at h
  obtain ⟨⟨hfirst, hlast⟩, hstep⟩ := h
  have hdiv := Nat.div_add_mod (n - r.first) r.step
  refine List.mem_map.mpr ⟨(n - r.first) / r.step, List.mem_range.mpr ?_, ?_⟩
  · exact Nat.lt_succ_of_le (Nat.div_le_div_right (Nat.sub_le_sub_right hlast _))
  · rw [Nat.mul_comm]
    omega

end CaseRun

/-- The code points that lower case changes: the capitals of ASCII, the two letters with rules of
their own, and the regular runs. -/
def changedRuns : List CaseRun :=
  ⟨65, 90, 1, 97⟩ :: ⟨304, 304, 1, 105⟩ :: ⟨931, 931, 1, 963⟩ :: lowerRuns

/-- Whether lower case changes a character. -/
def changes (c : Char) : Bool :=
  changedRuns.any (·.holds c.toNat)

/-- **No run maps to a code point that lower case changes.** -/
theorem holds_image {r : CaseRun} (hr : r ∈ lowerRuns) {n : Nat} (hn : r.holds n = true) :
    changedRuns.any (·.holds (r.image n)) = false := by
  have hapart : bits (lowerRuns.flatMap fun r => r.codes.map r.image) &&&
      bits (changedRuns.flatMap CaseRun.codes) = 0 := by decide +kernel
  have hmem : r.image n ∈ lowerRuns.flatMap fun r => r.codes.map r.image :=
    List.mem_flatMap.mpr ⟨r, hr, List.mem_map_of_mem (CaseRun.mem_codes hn)⟩
  refine List.any_eq_false.mpr fun s hs hholds => not_mem_of_bits hapart hmem ?_
  exact List.mem_flatMap.mpr ⟨s, hs, CaseRun.mem_codes hholds⟩

/-! ### Characters and texts -/

theorem map?_eq_none_iff {runs : List CaseRun} {n : Nat} :
    CaseRun.map? runs n = none ↔ runs.any (·.holds n) = false := by
  rw [CaseRun.map?, Option.map_eq_none_iff, List.find?_eq_none, List.any_eq_false]
  rfl

/-- What lower case does not change is its own lower-case form. -/
theorem lowerOf_of_not_changes {c : Char} (h : changes c = false) (before after : List Char) :
    lowerOf before c after = [c] := by
  simp only [changes, changedRuns, List.any_cons, Bool.or_eq_false_iff] at h
  obtain ⟨hcapital, hdotted, hsigma, hruns⟩ := h
  have hupper : c.isUpper = false := by
    simp only [CaseRun.holds, Nat.mod_one, BEq.rfl, Bool.and_true] at hcapital
    rw [Bool.eq_false_iff, Ne, isUpper_iff]
    simpa using hcapital
  have hne304 : (c.toNat == 304) = false := by
    rw [beq_eq_false_iff_ne]
    intro heq
    simp [CaseRun.holds, heq] at hdotted
  have hne931 : (c.toNat == 931) = false := by
    rw [beq_eq_false_iff_ne]
    intro heq
    simp [CaseRun.holds, heq] at hsigma
  simp only [lowerOf, toLower_of_not_isUpper hupper, hne931, map?_eq_none_iff.mpr hruns,
    lowerExpansions, List.lookup_cons, List.lookup_nil, hne304, Bool.false_eq_true, if_false,
    ite_self]

/-- A character outside of all runs does not change. -/
theorem not_changes_ofNat {n : Nat} (h : changedRuns.any (·.holds n) = false) :
    changes (Char.ofNat n) = false := by
  by_cases hvalid : n.isValidChar
  · have hn : (Char.ofNat n).toNat = n := by
      rw [Char.ofNat, dif_pos hvalid]
      rfl
    rwa [changes, hn]
  · rw [Char.ofNat, dif_neg hvalid]
    decide +kernel

/-- Beyond the capitals, no run holds an ASCII character. -/
theorem not_changes_of_ascii {c : Char} (hc : c.toNat < 128) (hcapital : c.isUpper = false) :
    changes c = false := by
  have hhigh : ∀ r ∈ changedRuns.tail, 128 ≤ r.first := by decide +kernel
  have hrange : ¬ (65 ≤ c.toNat ∧ c.toNat ≤ 90) := by
    rwa [Bool.eq_false_iff, Ne, isUpper_iff] at hcapital
  refine List.any_eq_false.mpr fun r hr hholds => ?_
  simp only [CaseRun.holds, Bool.and_eq_true, decide_eq_true_eq] at hholds
  rcases List.mem_cons.mp hr with rfl | hr
  · exact hrange hholds.1
  · have := hhigh r hr
    omega

/-- Lower case gives what it does not change. -/
theorem not_changes_of_mem_lowerOf {before after : List Char} {c d : Char}
    (h : d ∈ lowerOf before c after) : changes d = false := by
  by_cases hc : c.toNat < 128
  · simp only [lowerOf, if_pos hc, List.mem_singleton] at h
    have hlower : ∀ n < 128, (Char.ofNat n).toLower.toNat < 128 ∧
        (Char.ofNat n).toLower.isUpper = false := by decide +kernel
    have hd := hlower c.toNat hc
    rw [Char.ofNat_toNat, ← h] at hd
    exact not_changes_of_ascii hd.1 hd.2
  · have hcapital : CaseRun.holds ⟨65, 90, 1, 97⟩ c.toNat = false := by
      simp only [CaseRun.holds, Bool.and_eq_false_iff, decide_eq_false_iff_not]
      omega
    rw [lowerOf, if_neg hc] at h
    split at h
    · -- the capital sigma
      rcases List.mem_singleton.mp h with rfl
      split <;> decide +kernel
    · rename_i hsigma
      split at h
      · -- a code point of some run, whose image is in none
        rename_i m hm
        rcases List.mem_singleton.mp h with rfl
        obtain ⟨r, hr, rfl⟩ := Option.map_eq_some_iff.mp hm
        have hholds := List.find?_some hr
        rw [← CaseRun.holds] at hholds
        exact not_changes_ofNat (holds_image (List.mem_of_find?_eq_some hr) hholds)
      · rename_i hnone
        split at h
        · -- a code point with a longer form
          rename_i ms hms
          obtain ⟨l₁, l₂, hsplit, -⟩ := List.lookup_eq_some_iff.mp hms
          have hmem : (c.toNat, ms) ∈ lowerExpansions := by
            rw [hsplit]
            exact List.mem_append_right l₁ List.mem_cons_self
          have hall : ∀ entry ∈ lowerExpansions, ∀ m ∈ entry.2, changes (Char.ofNat m) = false := by
            decide +kernel
          obtain ⟨m, hm, rfl⟩ := List.mem_map.mp h
          exact hall _ hmem m hm
        · -- one that stays as it is
          rename_i hsingle
          rcases List.mem_singleton.mp h with rfl
          have hdotted : d.toNat ≠ 304 := by
            intro heq
            rw [heq] at hsingle
            exact absurd hsingle (by decide)
          have hsigma : d.toNat ≠ 931 := by simpa using hsigma
          simp only [changes, changedRuns, List.any_cons, hcapital, map?_eq_none_iff.mp hnone,
            Bool.false_or, Bool.or_false, Bool.or_eq_false_iff]
          simp only [CaseRun.holds, Bool.and_eq_false_iff, decide_eq_false_iff_not]
          omega

/-- Text of which no character changes stays as it is. -/
theorem lowerFrom_eq_self {cs : List Char} (h : ∀ c ∈ cs, changes c = false)
    (before : List Char) : lowerFrom before cs = cs := by
  induction cs generalizing before with
  | nil => rfl
  | cons c cs ih =>
    rw [lowerFrom, lowerOf_of_not_changes (h c List.mem_cons_self),
      ih fun d hd => h d (List.mem_cons_of_mem c hd)]
    rfl

/-- **Lowering is final**: no character of a lowered text changes again. -/
theorem not_changes_of_mem_lower {s : String} : ∀ d ∈ (lower s).toList, changes d = false := by
  have hfrom (before cs : List Char) : ∀ d ∈ lowerFrom before cs, changes d = false := by
    induction cs generalizing before with
    | nil => exact fun d h => absurd h List.not_mem_nil
    | cons c cs ih =>
      intro d h
      rcases List.mem_append.mp h with h | h
      · exact not_changes_of_mem_lowerOf h
      · exact ih _ d h
  rw [lower, String.toList_ofList]
  exact hfrom [] s.toList

theorem lower_eq_self {s : String} (h : ∀ c ∈ s.toList, changes c = false) : lower s = s := by
  rw [lower, lowerFrom_eq_self h, String.ofList_toList]

/-- A text in lower case is its own lower-case form. -/
theorem lower_lower (s : String) : lower (lower s) = lower s :=
  lower_eq_self not_changes_of_mem_lower

end Text

open Text

/-! ### Variants -/

/-- A plural adds small letters only. -/
theorem not_changes_of_mem_plural {word : String} (h : ∀ c ∈ word.toList, changes c = false) :
    ∀ c ∈ (plural word).toList, changes c = false := by
  -- every ending is made of letters of the longest one
  have happend {word : String} (h : ∀ c ∈ word.toList, changes c = false) {ending : String}
      (hending : ending = "s" ∨ ending = "es" ∨ ending = "ies") :
      ∀ c ∈ (word ++ ending).toList, changes c = false := by
    have hletters : ("ies".toList.all (!changes ·)) = true := by decide +kernel
    have hsub : ending.toList ⊆ "ies".toList := by
      rcases hending with rfl | rfl | rfl <;> decide
    intro c hc
    rw [String.toList_append] at hc
    refine (List.mem_append.mp hc).elim (h c) fun hc => ?_
    simpa using List.all_eq_true.mp hletters c (hsub hc)
  unfold plural
  split
  · exact fun c hc => absurd hc (by simp)
  · rename_i last rest hreverse
    have hrest : ∀ c ∈ (String.ofList rest.reverse).toList, changes c = false := by
      intro c hc
      rw [String.toList_ofList, List.mem_reverse] at hc
      refine h c ?_
      rw [← List.mem_reverse, hreverse]
      exact List.mem_cons_of_mem last hc
    split
    · exact happend hrest (by simp)
    · split
      · exact happend h (by simp)
      · exact happend h (by simp)

/-- The variants of a name are in lower case. -/
theorem lower_of_mem_variants {name v : String} (h : v ∈ variants name) : lower v = v := by
  unfold variants at h
  split at h
  · exact absurd h List.not_mem_nil
  · rw [List.mem_eraseDups] at h
    simp only [List.mem_cons, List.not_mem_nil, or_false] at h
    have hsnake : ∀ c ∈ (snakeCase name).toList, changes c = false := by
      rw [snakeCase]
      exact not_changes_of_mem_lower
    rcases h with h | h | h
    · rw [h, lower_lower]
    · rw [h, lower_eq_self hsnake]
    · rw [h, lower_eq_self (not_changes_of_mem_plural hsnake)]

end IndexAdvice
