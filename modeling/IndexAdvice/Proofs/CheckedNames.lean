import IndexAdvice.Catalog
import IndexAdvice.Proofs.CheckedAccess

/-!
# Checked naming

The plural of a word depends on its last letter but one, which a word of one letter does not have.
All else that is computed from names is computed from their variants, with no fault
(`Checked.variants_eq`).
-/

namespace IndexAdvice

namespace Checked

open Text

/-! ### Plurals -/

/-- A word with the ending that words get that do not change. -/
def withEnding (word : String) : String :=
  if ["s", "x", "z", "ch", "sh"].any fun ending => ending.toList.isSuffixOf word.toList then
    word ++ "es"
  else word ++ "s"

/-- The plural of a word. -/
def plural (word : String) : Checked String :=
  if word.toList.isEmpty then return ""
  else if "y".toList.isSuffixOf word.toList && 1 < word.toList.length then do
    let b ← itemBack word.toList 2
    if ['a', 'e', 'i', 'o', 'u'].contains b then return withEnding word
    else return String.ofList word.toList.dropLast ++ "ies"
  else return withEnding word

/-- The ending of a plural is chosen by the last two letters. -/
theorem withEnding_eq {word : String} {c : Char} {rest : List Char}
    (h : word.toList.reverse = c :: rest) : withEnding word =
      if ['s', 'x', 'z'].contains c ||
        (c == 'h' && rest.head?.any (fun b => b == 'c' || b == 's')) then word ++ "es"
      else word ++ "s" := by
  have hends : (["s", "x", "z", "ch", "sh"].any fun ending =>
      ending.toList.isSuffixOf word.toList) = (['s', 'x', 'z'].contains c ||
        (c == 'h' && rest.head?.any (fun b => b == 'c' || b == 's'))) := by
    rw [Bool.eq_iff_iff]
    simp only [List.isSuffixOf, h, List.any_cons]
    cases rest <;> simp [List.isPrefixOf] <;> grind
  rw [withEnding, hends]

/-- Only a word that has a letter has its last one looked at. -/
theorem plural_eq (word : String) : plural word = .ok (IndexAdvice.plural word) := by
  have hy {c : Char} {rest : List Char} (h : word.toList.reverse = c :: rest) :
      "y".toList.isSuffixOf word.toList = (c == 'y') := by
    simp [List.isSuffixOf, h, List.isPrefixOf, BEq.comm]
  rw [plural, IndexAdvice.plural]
  -- a word of one letter has none before its last one
  match h : word.toList.reverse with
  | [] =>
    rw [List.reverse_eq_nil_iff.mp h]
    rfl
  | [c] =>
    have hword : word.toList = [c] := by rw [← List.reverse_reverse word.toList, h]; rfl
    rw [hy h, withEnding_eq h, hword]
    simp
  | c :: b :: more =>
    have hword : word.toList = more.reverse ++ [b, c] := by
      rw [← List.reverse_reverse word.toList, h]
      simp
    have hlong : 1 < word.toList.length := by rw [hword]; simp
    have hback : itemBack word.toList 2 = .ok b := by rw [hword, itemBack_two]
    have hfront : word.toList.dropLast = (b :: more).reverse := by rw [hword]; simp
    rw [if_neg (by rw [hword]; simp), hy h, decide_eq_true hlong, Bool.and_true, hback, ok_bind,
      withEnding_eq h, hfront]
    dsimp only
    cases hc : c == 'y' with
    | false => rfl
    | true =>
      by_cases hvowel : ['a', 'e', 'i', 'o', 'u'].contains b = true
      · rw [if_pos rfl, if_pos hvowel]
        refine congrArg Except.ok (if_neg ?_).symm
        rw [Bool.true_and, List.head?_cons, Option.any_some, hvowel]
        exact Bool.false_ne_true
      · rw [if_pos rfl, if_neg hvowel, if_pos (by simpa using hvowel)]
        rfl

/-! ### Variants -/

/-- The lower-case spellings that a table of this name may take in query text. -/
def variants (name : String) : Checked (List String) :=
  if name.isEmpty then return []
  else do
    let many ← plural (snakeCase name)
    return [lower name, snakeCase name, many].eraseDups

/-- Whether two names have a variant in common. -/
def shareVariant (a b : String) : Checked Bool := do
  let these ← variants a
  let those ← variants b
  return these.any those.contains

/-- Every variant of the given subjects with the first subject that has it. -/
def subjectTable (subjects : List String) : Checked (List (String × String)) :=
  subjects.foldlM (fun table subject => do
    let known ← variants subject
    return known.foldl (fun table v => addAbsent table v subject) table) []

/-- The fields of the first declaration that has any and has the given variant. -/
def ofVariant? (catalog : Catalog) (variant : String) : Checked (Option (List String)) :=
  catalog.findSomeM? fun declared => do
    let known ← variants declared.1
    return if !declared.2.isEmpty && known.contains variant then some declared.2 else none

/-- The fields of a table, looked up by its variants. -/
def fieldsFor (catalog : Catalog) (table : String) : Checked (List String) := do
  let known ← variants table
  let found ← (sortTexts known).findSomeM? (ofVariant? catalog)
  return found.getD []

theorem variants_eq (name : String) : variants name = .ok (IndexAdvice.variants name) := by
  rw [variants, IndexAdvice.variants, plural_eq, ok_bind]
  split <;> rfl

theorem shareVariant_eq (a b : String) :
    shareVariant a b = .ok (IndexAdvice.shareVariant a b) := by
  rw [shareVariant, variants_eq, variants_eq]
  rfl

theorem subjectTable_eq (subjects : List String) :
    subjectTable subjects = .ok (IndexAdvice.subjectTable subjects) :=
  foldlM_eq (fun table subject _ => by rw [variants_eq]; rfl) []

theorem ofVariant?_eq (catalog : Catalog) (variant : String) :
    ofVariant? catalog variant = .ok (catalog.ofVariant? variant) := by
  rw [ofVariant?, findSomeM?_eq fun declared _ => by rw [variants_eq, ok_bind]; rfl,
    Catalog.ofVariant?]
  refine congrArg Except.ok ?_
  induction catalog with
  | nil => rfl
  | cons declared catalog ih =>
    rw [List.findSome?_cons, List.find?_cons]
    cases !declared.2.isEmpty && (IndexAdvice.variants declared.1).contains variant with
    | true => rfl
    | false => exact ih

/-- A table looked up by its variants is in the catalog when it is found. -/
theorem fieldsFor_eq (catalog : Catalog) (table : String) :
    fieldsFor catalog table = .ok (catalog.fieldsFor table) := by
  rw [fieldsFor, variants_eq, ok_bind, findSomeM?_eq fun variant _ => ofVariant?_eq catalog variant]
  rfl

end Checked

end IndexAdvice
