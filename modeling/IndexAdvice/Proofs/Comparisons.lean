import IndexAdvice.Proofs.BooleanStructure
import IndexAdvice.Proofs.ConstantText

/-!
# Printed comparisons

A `Comparison` is a column, an operator and constants, with what makes their text readable: the
column has a name like a field that is no keyword, and the constants stand by themselves. Its text
is cut into the pieces that it is printed from (`Comparison.ofText_text`) and read as the predicate
that it says (`Comparison.gist_classify`). Comparisons with `AND` between them are read one by one
(`Comparison.map_gist_joined`), as long as each of them but the last may have text after it, which a
string that is not closed may not.
-/

namespace IndexAdvice

open Text Token

/-! ### Names of columns -/

/-- The keywords that steer the reading of a query. -/
def Keyword.all : List String :=
  statement ++ clause ++ paired.flatMap (fun (first, second) => [first, second]) ++ setOperator ++
    joinModifier ++ reserved ++ range

/-- A name like that of a struct field that is no keyword. -/
structure IsFieldName (name : String) : Prop where
  starts : name.toList.head?.any isIdentStart = true
  wordChars : name.toList.all isWordChar = true
  free : upper name ∉ Keyword.all

instance : DecidablePred IsFieldName := fun name =>
  decidable_of_iff (name.toList.head?.any isIdentStart = true ∧
      name.toList.all isWordChar = true ∧ upper name ∉ Keyword.all)
    ⟨fun ⟨h₁, h₂, h₃⟩ => ⟨h₁, h₂, h₃⟩, fun ⟨h₁, h₂, h₃⟩ => ⟨h₁, h₂, h₃⟩⟩

/-- A field name is no keyword. -/
theorem IsFieldName.contains_eq_false {name : String} (h : IsFieldName name)
    {keywords : List String} (hsub : keywords ⊆ Keyword.all) :
    keywords.contains (upper name) = false := by
  rw [Bool.eq_false_iff, ne_eq, List.contains_iff_mem]
  exact fun hmem => h.free (hsub hmem)

/-- An identifier starts a word. -/
theorem Piece.next_identStart {c : Char} (hc : isIdentStart c = true) (before : Option Char)
    (cs : List Char) : next before c cs = (some .word, (cs.takeWhile isWordTail).length) := by
  have hother {d : Char} (hd : isIdentStart d = false) : (c == d) = false :=
    beq_eq_false_iff_ne.mpr fun heq => by rw [heq, hd] at hc; exact absurd hc (by decide)
  have hblank : isBlank c = false := by
    refine Bool.eq_false_iff.mpr fun h => ?_
    rw [(breaks_of_isBlank h).isIdentStart] at hc
    exact absurd hc (by decide)
  have hletter : (isLetter c || c == '_') = true := by
    rw [isIdentStart, Bool.or_eq_true] at hc
    rw [Bool.or_eq_true]
    exact hc.imp_left isLetter_of_isAlpha
  have hdigit : isDigit c = false := by
    rw [isIdentStart, Bool.or_eq_true, beq_iff_eq] at hc
    rcases hc with hc | rfl
    · have hn := toNat_of_isAlpha hc
      rw [isDigit_eq_of_ascii (by omega), Bool.and_eq_false_iff, decide_eq_false_iff_not,
        decide_eq_false_iff_not]
      omega
    · decide
  simp only [next, hblank, hletter, hdigit, hother (d := '-') (by decide),
    hother (d := '/') (by decide), hother (d := '\'') (by decide), hother (d := '"') (by decide),
    hother (d := '\x60') (by decide), hother (d := '.') (by decide), Bool.false_and, Bool.false_or,
    Bool.false_eq_true, if_false, if_true]

theorem IsFieldName.whole {name : String} (h : IsFieldName name) :
    Piece.ofText (name.toList ++ [' ']) = [⟨some .word, name.toList⟩, Piece.space] := by
  obtain ⟨c, hhead, hc⟩ := (Option.any_eq_true _ _).mp h.starts
  obtain ⟨cs, hcs⟩ := List.head?_eq_some_iff.mp hhead
  have htail : ∀ d ∈ cs, Piece.isWordTail d = true := fun d hd =>
    Piece.isWordTail_of_isWordChar
      (List.all_eq_true.mp h.wordChars d (hcs ▸ List.mem_cons_of_mem c hd))
  have hrun : ((cs ++ [' ']).takeWhile Piece.isWordTail) = cs := by
    rw [List.takeWhile_append_of_pos htail, List.takeWhile_cons_of_neg (by decide), List.append_nil]
  have hspace := (@Piece.cut_append (some c) cs.length cs [' '] [] _ (Nat.le_refl _) rfl
    (by simp)).2
  rw [Piece.cut_blank (by decide)] at hspace
  rw [hcs, List.cons_append, Piece.ofText, Piece.cut, Piece.next_identStart hc, hrun,
    List.take_left, ← hspace]
  rfl

/-- A column name as a word. -/
def IsFieldName.word {name : String} (h : IsFieldName name) : Word :=
  ⟨.word, name.toList, h.whole⟩

/-! ### Comparisons -/

/-- A comparison of a column with constants, as it is printed. -/
structure Comparison where
  column : String
  operator : String
  constants : List Piece
  isFieldName : IsFieldName column
  areConstants : Constants operator constants

namespace Comparison

variable (c : Comparison)

/-- The operator as a word. -/
def sign : Word :=
  if c.operator = "IN" then ⟨.word, ['I', 'N'], by decide⟩ else ⟨.operator, ['='], by decide⟩

theorem sign_cases :
    (c.operator = "=" ∧ c.sign.piece = ⟨some .operator, ['=']⟩) ∨
      (c.operator = "IN" ∧ c.sign.piece = ⟨some .word, ['I', 'N']⟩) := by
  rcases c.areConstants.operator_eq with h | h
  · exact .inl ⟨h, by rw [sign, if_neg (by rw [h]; decide)]; rfl⟩
  · exact .inr ⟨h, by rw [sign, if_pos h]; rfl⟩

theorem sign_kind : c.sign.kind = .operator ∨ c.sign.kind = .word := by
  rcases c.sign_cases with ⟨-, h⟩ | ⟨-, h⟩
  · exact .inl (Option.some.inj (congrArg Piece.kind h))
  · exact .inr (Option.some.inj (congrArg Piece.kind h))

theorem toList_operator : c.operator.toList = c.sign.text := by
  rcases c.sign_cases with ⟨h, hsign⟩ | ⟨h, hsign⟩
  · rw [h]
    exact (congrArg Piece.text hsign).symm
  · rw [h]
    exact (congrArg Piece.text hsign).symm

/-- The column and the operator. -/
def lead : List Piece :=
  [c.isFieldName.word.piece, Piece.space, c.sign.piece]

/-- The pieces of a comparison, with single spaces around the operator. -/
def pieces : List Piece :=
  c.lead ++ Piece.space :: c.constants

/-- The text of a comparison. -/
def text : List Char :=
  c.pieces.flatMap Piece.text

theorem text_eq : c.text =
    c.column.toList ++ ' ' :: (c.operator.toList ++ ' ' :: c.constants.flatMap Piece.text) := by
  rw [toList_operator]
  simp [text, pieces, lead, Piece.space, Word.piece, IsFieldName.word]

/-- What a comparison says. -/
def predicate : Predicate where
  column := some c.column
  kind := .equality
  isLiteral := true
  operator := c.operator
  value := String.ofList (c.constants.flatMap Piece.text)
  text := String.ofList c.text

/-! ### Cutting and locating -/

theorem isCut_lead : Piece.IsCut c.lead :=
  Piece.IsCut.words [c.isFieldName.word, c.sign]

/-- A printed comparison is read back into the pieces it was made of. -/
theorem ofText_text : Piece.ofText c.text = c.pieces := by
  rw [text, pieces, List.flatMap_append, List.flatMap_cons]
  have := c.isCut_lead ' ' (.inl (by decide)) (c.constants.flatMap Piece.text)
  rw [Piece.space, List.singleton_append, this, Piece.ofText, Piece.cut_blank (by decide),
    c.areConstants.alone]

variable {c}

theorem isCut_pieces (h : Piece.IsCut c.constants) : Piece.IsCut c.pieces :=
  c.isCut_lead.append h.space ⟨' ', _, .inl (by decide), rfl⟩

variable (c)

/-- A located comparison starts with two tokens, one for the column and one for the operator. -/
theorem locate_pieces (s d : Nat) : locate s d c.pieces =
    ofPiece .word c.column.toList s d ::
      ofPiece c.sign.kind c.sign.text (s + c.column.toList.length + 1) d ::
        locate (s + c.column.toList.length + 1 + c.sign.text.length + 1) d c.constants := by
  have hdepth : depthAfter d c.sign.kind = d := by
    rcases c.sign_kind with h | h <;> rw [h] <;> rfl
  have hname : c.isFieldName.word.piece = ⟨some .word, c.column.toList⟩ := rfl
  rw [pieces, lead, hname, Word.piece, Piece.space, List.cons_append, locate_some, List.cons_append,
    locate_none, List.cons_append, locate_some, show depthAfter d .word = d from rfl, hdepth,
    List.nil_append, locate_none]
  rfl

theorem balanced : IsBalanced c.pieces := by
  have hword (k : TokenKind) (hk : k = .operator ∨ k = .word) (text : List Char) (s d : Nat) :
      nestingStep 0 (ofPiece k text s d) = some 0 := by
    rcases hk with rfl | rfl <;> rfl
  rw [IsBalanced, locate_pieces, nesting, hword _ (.inr rfl), Option.bind_some, nesting,
    hword _ c.sign_kind, Option.bind_some]
  exact c.areConstants.balanced.nesting_eq _ _ 0

end Comparison

/-- The keywords that end a condition, divide it into branches or start another statement. -/
def Keyword.breaking : List String :=
  ["OR", "GROUP", "ORDER"] ++ statement ++ ending

/-- The keywords that divide a condition in any way. -/
def Keyword.dividing : List String :=
  ["AND", "BETWEEN"] ++ breaking

/-- A token that is none of some keywords, ends no statement and asks for no value. -/
structure Token.IsInert (keywords : List String) (t : Token) : Prop where
  unended : t.kind ≠ .semicolon
  bound : t.kind ≠ .placeholder
  undivided : t.isKeyword keywords = false

theorem Token.IsInert.mono {keywords more : List String} {t : Token} (hsub : keywords ⊆ more)
    (h : t.IsInert more) : t.IsInert keywords :=
  ⟨h.unended, h.bound, isKeyword_eq_false_of_subset hsub h.undivided⟩

/-- A word that is no dividing keyword divides nothing. -/
theorem Token.isInert_word {keywords : List String} {text : List Char}
    (h : keywords.contains (Text.upper (String.ofList text)) = false) (s d : Nat) :
    (ofPiece .word text s d).IsInert keywords :=
  ⟨by simp [ofPiece], by simp [ofPiece], by rw [isKeyword_ofPiece, h]⟩

theorem Token.IsListed.isInert {t : Token} (h : t.IsListed) : t.IsInert Keyword.dividing := by
  have hother (hword : t.kind ≠ .word) (hsemicolon : t.kind ≠ .semicolon)
      (hplaceholder : t.kind ≠ .placeholder) : t.IsInert Keyword.dividing :=
    ⟨hsemicolon, hplaceholder, isKeyword_eq_false hword _⟩
  rcases h with (h | h | ⟨h, -⟩ | h) | h | h | h
  · exact hother (by simp [h]) (by simp [h]) (by simp [h])
  · exact hother (by simp [h]) (by simp [h]) (by simp [h])
  · exact hother (by simp [h]) (by simp [h]) (by simp [h])
  · have hword := kind_of_isKeyword h
    refine ⟨by simp [hword], by simp [hword], ?_⟩
    have hconstant : ∀ word ∈ Keyword.constant, Keyword.dividing.contains word = false := by
      decide
    rw [isKeyword, Bool.and_eq_true, List.contains_iff_mem] at h
    rw [isKeyword, hconstant _ h.2, Bool.and_false]
  · exact hother (by simp [h]) (by simp [h]) (by simp [h])
  · exact hother (by simp [h]) (by simp [h]) (by simp [h])
  · exact hother (by simp [h]) (by simp [h]) (by simp [h])

namespace Comparison

variable (c : Comparison)

/-- Nothing in a comparison divides a condition. -/
theorem isInert_of_mem {s d : Nat} {t : Token} (ht : t ∈ locate s d c.pieces) :
    t.IsInert Keyword.dividing := by
  rw [locate_pieces] at ht
  rcases List.mem_cons.mp ht with rfl | ht
  · refine isInert_word ?_ s d
    rw [String.ofList_toList]
    exact c.isFieldName.contains_eq_false (by decide)
  rcases List.mem_cons.mp ht with rfl | ht
  · obtain ⟨kind, text, hsign, hinert⟩ : ∃ kind text, c.sign.piece = ⟨some kind, text⟩ ∧
        ∀ s, (ofPiece kind text s d).IsInert Keyword.dividing := by
      rcases c.sign_cases with ⟨-, h⟩ | ⟨-, h⟩
      · exact ⟨_, _, h, fun s => ⟨by simp [ofPiece], by simp [ofPiece], rfl⟩⟩
      · exact ⟨_, _, h, fun s => isInert_word (by decide) s d⟩
    obtain ⟨hkind, rfl⟩ := Piece.mk.inj hsign
    obtain rfl := Option.some.inj hkind
    exact hinert _
  · rw [c.areConstants.balanced.locate_eq] at ht
    obtain ⟨u, hu, rfl⟩ := List.mem_map.mp ht
    exact Token.IsListed.isInert (t := u.shift _ _) (c.areConstants.listed u hu)

theorem locate_ne_nil (s d : Nat) : locate s d c.pieces ≠ [] := by
  rw [locate_pieces]
  exact List.cons_ne_nil _ _

/-! ### Reading a comparison -/

theorem dottedNames_of_kind {t : Token} (h : t.kind ≠ .dot) (ts : List Token) :
    ColumnRef.dottedNames (t :: ts) = ([], t :: ts) := by
  have hdot : (t.kind == .dot) = false := beq_eq_false_iff_ne.mpr h
  cases ts with
  | nil => rfl
  | cons u us => simp [ColumnRef.dottedNames, hdot]

/-- The column is read as the reference that a comparison starts with. -/
theorem read?_pieces (s d : Nat) : ColumnRef.read? (locate s d c.pieces) =
    some (⟨none, c.column⟩, (locate s d c.pieces).tail) := by
  have hreserved : (ofPiece .word c.column.toList s d).isKeyword Keyword.reserved = false := by
    rw [isKeyword_ofPiece, String.ofList_toList]
    exact c.isFieldName.contains_eq_false (by decide)
  have hdot (s : Nat) : (ofPiece c.sign.kind c.sign.text s d).kind ≠ .dot := by
    rcases c.sign_kind with h | h <;> simp [ofPiece, h]
  have hname : (ofPiece .word c.column.toList s d).name = c.column := String.ofList_toList
  rw [locate_pieces, ColumnRef.read?, dottedNames_of_kind (hdot _), hreserved, hname]
  rfl

/-- Either operator is read as an equality. -/
theorem comparison?_sign (s d : Nat) (rhs : List Token) :
    Predicate.comparison? (ofPiece c.sign.kind c.sign.text s d) rhs =
      some (.equality, c.operator) := by
  rcases c.sign_cases with ⟨hop, h⟩ | ⟨hop, h⟩
  · obtain ⟨hkind, htext⟩ := Piece.mk.inj h
    rw [Option.some.inj hkind, htext, hop]
    rfl
  · obtain ⟨hkind, htext⟩ := Piece.mk.inj h
    have hin : (ofPiece .word ['I', 'N'] s d).isKeyword ["IN"] = true := by
      rw [isKeyword_ofPiece]
      decide
    rw [Option.some.inj hkind, htext, hop, Predicate.comparison?, if_neg (by simp [ofPiece]),
      if_pos hin]

theorem isTight_pieces : Piece.IsTight c.pieces := by
  refine ⟨rfl, ?_⟩
  obtain ⟨W, k, x, hW⟩ := c.areConstants.tight.exists_concat
  rw [pieces, hW, ← List.cons_append, ← List.append_assoc, List.getLast?_concat]
  rfl

/-- A comparison is read as what it says. -/
theorem gist_classify {scope : Scope} {s : Nat} (hfield : scope.field? c.column = some c.column)
    (hstands : StandsAt scope.sql c.text s) (d : Nat) :
    (Predicate.classify scope (locate s d c.pieces)).gist = c.predicate := by
  have hwhole : scope.text (locate s d c.pieces) = String.ofList c.text :=
    Scope.text_locate c.isTight_pieces hstands
  have hresolve : scope.resolve ⟨none, c.column⟩ = some c.column := hfield
  -- the constants are compared and stand in the text as they do by themselves
  have hvalue : StandsAt scope.sql (c.constants.flatMap Piece.text)
      (s + c.column.toList.length + 1 + c.sign.text.length + 1) := by
    rw [text_eq, toList_operator] at hstands
    have hsign := StandsAt.right (u := [' ']) hstands.right
    exact StandsAt.right (u := [' ']) hsign.right
  have htext : scope.text (locate (s + c.column.toList.length + 1 + c.sign.text.length + 1) d
      c.constants) = String.ofList (c.constants.flatMap Piece.text) :=
    Scope.text_locate c.areConstants.tight hvalue
  have hcompared := c.areConstants.compared
  rw [← Predicate.comparesConstants_shift
    (s + c.column.toList.length + 1 + c.sign.text.length + 1) d,
    ← c.areConstants.balanced.locate_eq] at hcompared
  have hne : (locate (s + c.column.toList.length + 1 + c.sign.text.length + 1) d
      c.constants).isEmpty = false := by
    obtain ⟨k, x, W, hW⟩ := c.areConstants.tight.exists_cons
    rw [hW, locate_some]
    rfl
  rw [Predicate.classify, read?_pieces]
  rw [locate_pieces] at hwhole ⊢
  simp only [List.tail_cons, comparison?_sign, hresolve, hne, htext, hcompared,
    Predicate.opaqueOf, hwhole, Bool.false_eq_true, if_false, Predicate.gist]
  rfl

/-- Nothing divides a comparison. -/
theorem solid {sep : Token → Bool} {b : Bool}
    (hsep : ∀ t : Token, t.IsInert Keyword.dividing → sep t = false)
    (s d : Nat) : Solid d sep b (locate s d c.pieces) := by
  refine solid_of_forall fun t ht _ => ?_
  have hinert := c.isInert_of_mem ht
  exact ⟨isKeyword_eq_false_of_subset (by decide) hinert.undivided, hsep t hinert⟩

/-- The tokens of a comparison are one conjunct. -/
theorem conjuncts_pieces (s d : Nat) : conjuncts (locate s d c.pieces) = [locate s d c.pieces] := by
  rw [conjuncts, c.balanced.baseDepth_eq (c.locate_ne_nil s d)]
  exact (c.solid (fun t h => isKeyword_eq_false_of_subset (by decide) h.undivided) s d).cutFrom_eq
    (c.locate_ne_nil s d)

/-- A comparison is one condition, read as it stands. -/
theorem ofConjunction_pieces (scope : Scope) (s d : Nat) :
    Predicate.ofConjunction scope (locate s d c.pieces) =
      [Predicate.classify scope (locate s d c.pieces)] := by
  have hwrapped : isWrapped (locate s d c.pieces) = false := by
    rw [locate_pieces]
    rfl
  rw [Predicate.ofConjunction_eq, conjuncts_pieces, List.flatMap_singleton, hwrapped]
  rfl

/-! ### Joined comparisons -/

/-- The pieces of comparisons joined by `AND`. -/
def joined : List Comparison → List Piece
  | [] => []
  | [c] => c.pieces
  | c :: c' :: rest => Piece.join c.pieces .conj (joined (c' :: rest))

/-- Whether each comparison but the last may have text after it. -/
def Separable (cs : List Comparison) : Prop :=
  cs.IsChain fun c _ => Piece.IsCut c.constants

variable {c} {cs : List Comparison} {s d : Nat}

theorem balanced_joined (cs : List Comparison) : IsBalanced (joined cs) := by
  induction cs with
  | nil => rfl
  | cons c cs ih =>
    cases cs with
    | nil => exact c.balanced
    | cons c' cs => exact c.balanced.join rfl ih

/-- Joined comparisons are cut as they were put together. -/
theorem ofText_joined (h : Separable cs) :
    Piece.ofText ((joined cs).flatMap Piece.text) = joined cs := by
  induction cs with
  | nil => rfl
  | cons c cs ih =>
    cases cs with
    | nil => exact c.ofText_text
    | cons c' cs =>
      obtain ⟨hc, hcs⟩ := List.isChain_cons_cons.mp h
      -- the word after a comparison ends it
      have hword : Piece.IsCut (c.pieces ++ [Piece.space, Word.conj.piece]) :=
        (isCut_pieces hc).append (Piece.IsCut.word .conj).space ⟨' ', _, .inl (by decide), rfl⟩
      have hcut := hword ' ' (.inl (by decide)) ((joined (c' :: cs)).flatMap Piece.text)
      have hspace := Piece.cut_blank (c := ' ') (by decide) none
        ((joined (c' :: cs)).flatMap Piece.text)
      rw [← Piece.ofText] at hspace
      rw [hspace, ih hcs, List.append_assoc] at hcut
      rw [joined, Piece.texts_join]
      rw [List.flatMap_append, List.append_assoc] at hcut
      exact hcut

/-- The text of joined comparisons. -/
theorem texts_joined (cs : List Comparison) :
    (joined cs).flatMap Piece.text = [' ', 'A', 'N', 'D', ' '].intercalate (cs.map text) := by
  induction cs with
  | nil => rfl
  | cons c cs ih =>
    cases cs with
    | nil => exact List.intercalate_singleton.symm
    | cons c' cs =>
      rw [joined, Piece.texts_join, ih, List.map_cons, List.map_cons, List.map_cons,
        List.intercalate_cons_cons, List.append_assoc]
      rfl

/-- Nothing in joined comparisons ends a condition or divides it into branches. -/
theorem isInert_of_mem_joined {t : Token} (ht : t ∈ locate s d (joined cs)) :
    t.IsInert Keyword.breaking := by
  induction cs generalizing s with
  | nil => exact absurd ht List.not_mem_nil
  | cons c cs ih =>
    have hhead {s : Nat} (h : t ∈ locate s d c.pieces) : t.IsInert Keyword.breaking :=
      (c.isInert_of_mem h).mono (List.subset_append_right _ _)
    cases cs with
    | nil => exact hhead ht
    | cons c' cs =>
      rw [joined, locate_join c.balanced rfl] at ht
      rcases List.mem_append.mp ht with ht | ht
      · exact hhead ht
      · rcases List.mem_cons.mp ht with rfl | ht
        · exact isInert_word (by decide) _ _
        · exact ih ht

theorem locate_joined_ne_nil (c : Comparison) (cs : List Comparison) :
    locate s d (joined (c :: cs)) ≠ [] := by
  cases cs with
  | nil => exact c.locate_ne_nil s d
  | cons c' cs =>
    rw [joined, locate_join c.balanced rfl]
    exact List.append_ne_nil_of_left_ne_nil (c.locate_ne_nil s d) _

/-- Joined comparisons are cut after the first. -/
theorem conjuncts_joined (c c' : Comparison) (cs : List Comparison) (s d : Nat) :
    conjuncts (locate s d (joined (c :: c' :: cs))) = locate s d c.pieces ::
      conjuncts (locate (s + c.text.length + 5) d (joined (c' :: cs))) := by
  -- the whole and the rest have the same outermost depth, so the rest is cut as it would be alone
  rw [conjuncts, conjuncts, (balanced_joined _).baseDepth_eq (locate_joined_ne_nil c _),
    (balanced_joined _).baseDepth_eq (locate_joined_ne_nil c' cs), joined,
    cutFrom_join c.balanced (c.locate_ne_nil s d)
      (c.solid (fun t h => isKeyword_eq_false_of_subset (by decide) h.undivided) s d) rfl
      (by decide) (by decide)]
  rfl

/-- Joined comparisons are classified one by one. The five characters between two of them are the
AND and its blanks. -/
theorem ofConjunction_joined (scope : Scope) (c c' : Comparison) (cs : List Comparison)
    (s d : Nat) : Predicate.ofConjunction scope (locate s d (joined (c :: c' :: cs))) =
      Predicate.classify scope (locate s d c.pieces) ::
        Predicate.ofConjunction scope (locate (s + c.text.length + 5) d (joined (c' :: cs))) := by
  have hsingle := c.ofConjunction_pieces scope s d
  rw [Predicate.ofConjunction_eq, conjuncts_pieces, List.flatMap_singleton] at hsingle
  rw [Predicate.ofConjunction_eq, conjuncts_joined, List.flatMap_cons, hsingle,
    ← Predicate.ofConjunction_eq, List.singleton_append]

/-- **Joined comparisons** are read one by one. -/
theorem map_gist_joined {scope : Scope} (c : Comparison) (cs : List Comparison)
    (hfield : ∀ c' ∈ c :: cs, scope.field? c'.column = some c'.column)
    (hstands : StandsAt scope.sql ((joined (c :: cs)).flatMap Piece.text) s) :
    (Predicate.ofConjunction scope (locate s d (joined (c :: cs)))).map Predicate.gist =
      (c :: cs).map predicate := by
  induction cs generalizing c s with
  | nil =>
    rw [joined, ofConjunction_pieces, List.map_singleton,
      c.gist_classify (hfield c List.mem_cons_self) hstands]
    rfl
  | cons c' cs ih =>
    obtain ⟨hc, hcs⟩ := List.forall_mem_cons.mp hfield
    rw [joined, Piece.texts_join] at hstands
    have hrest := StandsAt.right (u := [' ', 'A', 'N', 'D', ' ']) hstands.right
    rw [ofConjunction_joined, List.map_cons, c.gist_classify hc hstands.left]
    exact congrArg _ (ih c' hcs hrest)

end Comparison

end IndexAdvice
