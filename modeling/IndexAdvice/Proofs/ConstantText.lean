import IndexAdvice.Proofs.Grafting
import IndexAdvice.Proofs.SourceOrder

/-!
# The text of constants

Tokens that stand together in a text are cut from a stretch of it, and this stretch is cut into the
same pieces by itself, or before a blank if more text followed it (`Piece.isCut_of_ofText`). So the
constants that a predicate compares a column with can be written elsewhere: their parentheses match,
and their text is read as the same tokens again (`Predicate.exists_constants`). Only a string that
is not closed has to remain at the end of the text, and then its predicate is the last one.
-/

namespace IndexAdvice

open Text

/-! ### Stretches of a text -/

namespace Piece

variable {before b : Option Char} {skip : Nat} {cs : List Char} {p : Piece} {A P V B : List Piece}

/-- How a piece was decided. -/
theorem exists_next_of_mem_cut (h : p ∈ cut before skip cs) :
    ∃ b c ds, p.kind = (next b c ds).1 ∧ p.text.head? = some c := by
  obtain ⟨b, c, ds, rfl⟩ := exists_step_of_mem_cut h
  exact ⟨b, c, ds, rfl, rfl⟩

/-- What a token that starts with a sign or a colon may be. -/
theorem kind_of_mark {k : TokenKind} {c : Char} (hc : c = '+' ∨ c = '-' ∨ c = ':')
    (h : p ∈ cut before skip cs) (hk : p.kind = some k) (hp : p.text.head? = some c) :
    k = .operator ∨ c = ':' ∧ (k = .placeholder ∨ k = .other) := by
  obtain ⟨b, c', ds, hkind, hhead⟩ := exists_next_of_mem_cut h
  obtain rfl : c' = c := Option.some.inj (hhead.symm.trans hp)
  have hclass : isBlank c' = false ∧ isDigit c' = false ∧ isLetter c' = false ∧
      punctuation c' = none := by
    rcases hc with rfl | rfl | rfl <;> decide
  obtain ⟨hblank, hdigit, hletter, hpunctuation⟩ := hclass
  rw [hk, next_eq] at hkind
  rcases hc with rfl | rfl | rfl
  · have hnarrow : '+' ∈ narrowOperators := by decide
    simp [shape, hblank, hdigit, hletter, hpunctuation, hnarrow, apply_ite Prod.fst] at hkind
    exact .inl hkind
  · have hnarrow : '-' ∈ narrowOperators := by decide
    simp [shape, hblank, hdigit, hletter, hpunctuation, hnarrow, apply_ite Prod.fst] at hkind
    exact .inl hkind.2
  · have hnarrow : ':' ∉ narrowOperators := by decide
    simp [shape, hblank, hdigit, hletter, hpunctuation, hnarrow, apply_ite Prod.fst] at hkind
    split_ifs at hkind <;> simp_all

/-- What stands before a text matters only if this starts with a colon. -/
theorem cut_of_head (hcs : cs.head? ≠ some ':') (b : Option Char) : cut b 0 cs = ofText cs := by
  cases cs with
  | nil => rfl
  | cons c cs =>
    have hc : (c == ':') = false := beq_eq_false_iff_ne.mpr fun hc => hcs (by rw [hc, List.head?_cons])
    have hnext : next b c cs = next none c cs := by
      rw [next_eq, next_eq]
      simp only [shape, hc, Bool.false_and]
    rw [ofText, cut, cut, hnext]

/-- Behind some of its pieces a text is cut into the others. -/
theorem exists_cut_rest (h : ofText cs = A ++ P) : ∃ b, cut b 0 (P.flatMap text) = P := by
  rw [eq_texts_of_ofText h] at h
  exact ⟨_, (cut_append (Nat.zero_le _) h rfl).2⟩

/-- **A stretch of a text** is cut into the same pieces by itself. -/
theorem ofText_of_ofText (h : ofText cs = A ++ (V ++ B))
    (hcolon : (V.flatMap text).head? ≠ some ':') : ofText (V.flatMap text) = V := by
  obtain ⟨b, hrest⟩ := exists_cut_rest h
  rw [List.flatMap_append] at hrest
  rw [← cut_of_head hcolon b]
  exact (cut_append (Nat.zero_le _) hrest rfl).1

/-- If text followed it, it is cut so wherever a word may end after it. -/
theorem isCut_of_ofText (h : ofText cs = A ++ (V ++ B)) (hB : B ≠ [])
    (hcolon : (V.flatMap text).head? ≠ some ':') : IsCut V := by
  obtain ⟨b, hrest⟩ := exists_cut_rest h
  obtain ⟨z, v, hz⟩ : ∃ z v, B.flatMap text = z :: v := by
    refine List.exists_cons_of_ne_nil fun hnil => hB (eq_nil_of_texts (fun p hp => ?_) hnil)
    have hmem : p ∈ ofText cs := by
      rw [h]
      exact List.mem_append_right A (List.mem_append_right V hp)
    exact text_ne_nil_of_mem_cut hmem
  rw [List.flatMap_append, hz] at hrest
  intro r hr d
  have hhead : (V.flatMap text ++ r :: d).head? ≠ some ':' := by
    cases hV : V.flatMap text with
    | nil =>
      rintro ⟨⟩
      exact absurd hr.breaks (by decide)
    | cons c cs => rwa [hV] at hcolon
  rw [← cut_of_head hhead b, cut_append_break hr.breaks (Nat.zero_le _) hrest rfl d, hr.cut_before]

/-- Pieces that start and end with tokens. -/
def IsTight (ps : List Piece) : Prop :=
  ps.head?.any isToken = true ∧ ps.getLast?.any isToken = true

instance : DecidablePred IsTight := fun _ => inferInstanceAs (Decidable (_ ∧ _))

theorem IsTight.exists_cons (h : IsTight V) : ∃ k x W, V = ⟨some k, x⟩ :: W := by
  obtain ⟨⟨kind, x⟩, hp, htoken⟩ := (Option.any_eq_true _ _).mp h.1
  obtain ⟨k, rfl⟩ := Option.isSome_iff_exists.mp htoken
  obtain ⟨W, rfl⟩ := List.head?_eq_some_iff.mp hp
  exact ⟨k, x, W, rfl⟩

theorem IsTight.exists_concat (h : IsTight V) : ∃ W k x, V = W ++ [⟨some k, x⟩] := by
  obtain ⟨⟨kind, x⟩, hp, htoken⟩ := (Option.any_eq_true _ _).mp h.2
  obtain ⟨k, rfl⟩ := Option.isSome_iff_exists.mp htoken
  obtain ⟨W, rfl⟩ := List.getLast?_eq_some_iff.mp hp
  exact ⟨W, k, x, rfl⟩

end Piece

namespace Token

variable {start depth s d : Nat} {ts us vs : List Token} {ps V : List Piece}

/-- Tokens that stand together are those of a stretch of the pieces. -/
theorem exists_stretch (h : locate start depth ps = us ++ (ts ++ vs)) (hne : ts ≠ []) :
    ∃ A V B, ps = A ++ (V ++ B) ∧ Piece.IsTight V ∧
      ts = locate (start + (A.flatMap Piece.text).length) (depthThrough depth A) V ∧
      (vs ≠ [] → B ≠ []) := by
  obtain ⟨t, ts', rfl⟩ := List.exists_cons_of_ne_nil hne
  obtain ⟨A, text, ps', rfl, -, ht, hrest⟩ := exists_of_locate h
  rcases List.eq_nil_or_concat' ts' with rfl | ⟨mid, u, rfl⟩
  · refine ⟨A, [⟨some t.kind, text⟩], ps', rfl, ⟨rfl, rfl⟩, ?_, ?_⟩
    · rw [locate_some, ← ht]
      rfl
    · rintro hvs rfl
      exact hvs hrest
  · have hsplit : locate t.stop (depthAfter (depthThrough depth A) t.kind) ps' =
        mid ++ u :: vs := by
      rw [← hrest]
      simp
    obtain ⟨M, text', B, rfl, hmid, hu, hvs⟩ := exists_of_locate hsplit
    refine ⟨A, ⟨some t.kind, text⟩ :: (M ++ [⟨some u.kind, text'⟩]), B, by simp, ⟨rfl, ?_⟩, ?_, ?_⟩
    · rw [← List.cons_append, List.getLast?_concat]
      rfl
    · have hstop : t.stop = start + (A.flatMap Piece.text).length + text.length :=
        congrArg Token.stop ht
      rw [locate_some, ← ht, ← hstop, locate_append, ← hmid, locate_some, ← hu]
      rfl
    · rintro hne rfl
      exact hne hvs

end Token

open Token in
/-- The text of tokens is that of the stretch that they are cut from. -/
theorem Scope.text_locate {scope : Scope} {s d : Nat} {V : List Piece} (hV : Piece.IsTight V)
    (hsql : V.flatMap Piece.text <+: scope.sql.drop s) :
    scope.text (locate s d V) = String.ofList (V.flatMap Piece.text) := by
  obtain ⟨k, x, W, hcons⟩ := hV.exists_cons
  obtain ⟨W', k', x', hconcat⟩ := hV.exists_concat
  have hhead : (locate s d V).head? = some (ofPiece k x s d) := by
    rw [hcons, locate_some, List.head?_cons]
  obtain ⟨last, hlast, hstop⟩ : ∃ last, (locate s d V).getLast? = some last ∧
      last.stop = s + (V.flatMap Piece.text).length := by
    refine ⟨ofPiece k' x' (s + (W'.flatMap Piece.text).length) (depthThrough d W'), ?_, ?_⟩
    · rw [hconcat, locate_append, locate_some, locate, List.getLast?_concat]
    · rw [hconcat, List.flatMap_append, List.length_append, ← Nat.add_assoc]
      simp [ofPiece]
  obtain ⟨more, hmore⟩ := hsql
  rw [text, hhead, hlast]
  simp only [hstop]
  rw [show (ofPiece k x s d).start = s from rfl, Text.slice, ← hmore, Nat.add_sub_cancel_left,
    List.take_left]

/-! ### The tokens of constants -/

namespace Token

variable {n : Nat} {t : Token} {ts : List Token} {sql : String}

/-- What a single constant is made of: a string, a number, a sign, `TRUE` or `FALSE`. -/
def IsValue (t : Token) : Prop :=
  t.kind = .string ∨ t.kind = .number ∨ (t.kind = .operator ∧ (t.text = "+" ∨ t.text = "-")) ∨
    t.isKeyword Keyword.constant = true

/-- What constants and lists of constants are made of. -/
def IsListed (t : Token) : Prop :=
  t.IsValue ∨ t.kind = .lparen ∨ t.kind = .rparen ∨ t.kind = .comma

/-- A token that reads as a sign is an operator. -/
theorem kind_of_sign (ht : t ∈ tokenize sql) (hsign : t.text = "+" ∨ t.text = "-") :
    t.kind = .operator := by
  obtain ⟨p, hp, hkind, htext⟩ := exists_piece_of_mem_locate ht
  have hhead : p.text.head? = some '+' ∨ p.text.head? = some '-' := by
    have hlist : t.text.toList = p.text := by rw [htext, String.toList_ofList]
    rw [← hlist]
    rcases hsign with hsign | hsign <;> rw [hsign]
    · exact .inl rfl
    · exact .inr rfl
  rcases hhead with hhead | hhead
  · exact (Piece.kind_of_mark (.inl rfl) hp hkind hhead).resolve_right fun h => absurd h.1 (by decide)
  · exact (Piece.kind_of_mark (.inr (.inl rfl)) hp hkind hhead).resolve_right
      fun h => absurd h.1 (by decide)

/-- The tokens of a constant are literals and signs. -/
theorem isValue_of_isConstant (hts : ts ⊆ tokenize sql) (h : Predicate.isConstant ts = true)
    (ht : t ∈ ts) : t.IsValue := by
  match ts with
  | [u] =>
    obtain rfl := List.mem_singleton.mp ht
    simp only [Predicate.isConstant, Bool.or_eq_true, beq_iff_eq] at h
    rcases h with (h | h) | h
    · exact .inl h
    · exact .inr (.inl h)
    · exact .inr (.inr (.inr h))
  | [sign, u] =>
    simp only [Predicate.isConstant, Bool.and_eq_true, Bool.or_eq_true, beq_iff_eq] at h
    rcases List.mem_cons.mp ht with rfl | ht
    · exact .inr (.inr (.inl ⟨kind_of_sign (hts List.mem_cons_self) h.1, h.1⟩))
    · obtain rfl := List.mem_singleton.mp ht
      exact .inr (.inl h.2)

/-- Tokens are separators or in one of the parts between these. -/
theorem mem_cutFrom {base : Nat} {sep : Token → Bool} {b w : Bool} {part : List Token}
    (ht : t ∈ part.reverse ++ ts) :
    sep t = true ∨ ∃ p ∈ cutFrom base sep b w part ts, t ∈ p := by
  have hflush {part : List Token} (h : t ∈ part.reverse) : ∃ p ∈ flush part, t ∈ p := by
    refine ⟨part.reverse, ?_, h⟩
    rw [flush, if_neg (by rintro hnil; simp [List.isEmpty_iff.mp hnil] at h)]
    exact List.mem_singleton.mpr rfl
  -- a token that is no separator is held until its part is cut off
  induction ts generalizing w part with
  | nil =>
    rw [List.append_nil] at ht
    exact .inr (hflush ht)
  | cons u ts ih =>
    have hkeep (w' : Bool) :
        sep t = true ∨ ∃ p ∈ cutFrom base sep b w' (u :: part) ts, t ∈ p :=
      ih (by rwa [List.reverse_cons, List.append_assoc])
    rw [cutFrom]
    split
    · exact hkeep true
    · split
      · next hsep =>
        split
        · exact hkeep false
        · rcases List.mem_append.mp ht with ht | ht
          · obtain ⟨p, hp, htp⟩ := hflush ht
            exact .inr ⟨p, List.mem_append_left _ hp, htp⟩
          · rcases List.mem_cons.mp ht with rfl | ht
            · exact .inl (Bool.and_eq_true_iff.mp hsep).2
            · refine (@ih w [] ht).imp_right ?_
              rintro ⟨p, hp, htp⟩
              exact ⟨p, List.mem_append_right _ hp, htp⟩
      · exact hkeep w

/-- Tokens are commas or in one of the items between these. -/
theorem mem_items (ht : t ∈ ts) : t.kind = .comma ∨ ∃ item ∈ items ts, t ∈ item :=
  (@mem_cutFrom t ts (baseDepth ts) (·.kind == .comma) false false [] ht).imp_left beq_iff_eq.mp

/-- A wrapped list is something between two parentheses. -/
theorem exists_of_isWrapped (h : isWrapped ts = true) :
    ∃ l inside r, ts = l :: (inside ++ [r]) ∧ l.kind = .lparen ∧ r.kind = .rparen := by
  match ts with
  | l :: u :: us =>
    simp only [isWrapped, Bool.and_eq_true, beq_iff_eq] at h
    obtain ⟨r, hr, hkind⟩ := (Option.any_eq_true _ _).mp h.2
    obtain ⟨inside, hinside⟩ := List.getLast?_eq_some_iff.mp hr
    exact ⟨l, inside, r, by rw [hinside], h.1.1, by simpa using hkind⟩

theorem nesting_of_no_paren (h : ∀ t ∈ ts, t.kind ≠ .lparen ∧ t.kind ≠ .rparen) (n : Nat) :
    nesting n ts = some n := by
  induction ts with
  | nil => rfl
  | cons t ts ih =>
    obtain ⟨ht, hts⟩ := List.forall_mem_cons.mp h
    have hstep : nestingStep n t = some n := by
      rw [nestingStep]
      split
      · next hkind => exact absurd hkind ht.1
      · next hkind => exact absurd hkind ht.2
      · rfl
    rw [nesting, hstep, Option.bind_some, ih hts]

theorem IsValue.kind_ne (h : t.IsValue) : t.kind ≠ .lparen ∧ t.kind ≠ .rparen := by
  rcases h with h | h | ⟨h, -⟩ | h
  · simp [h]
  · simp [h]
  · simp [h]
  · simp [kind_of_isKeyword h]

/-- The parentheses of constants match. -/
theorem nesting_of_comparesConstants {operator : String} (hts : ts ⊆ tokenize sql)
    (hop : operator = "=" ∨ operator = "IN")
    (h : Predicate.comparesConstants operator ts = true) :
    nesting 0 ts = some 0 ∧ ∀ t ∈ ts, t.IsListed := by
  rcases hop with rfl | rfl
  · -- a single value
    have hconstant : Predicate.isConstant ts = true := h
    have hvalue : ∀ t ∈ ts, t.IsValue := fun t ht => isValue_of_isConstant hts hconstant ht
    exact ⟨nesting_of_no_paren (fun t ht => (hvalue t ht).kind_ne) 0, fun t ht => .inl (hvalue t ht)⟩
  · -- values with commas between them, in parentheses
    have hlist : (isWrapped ts && !(items ts.tail.dropLast).isEmpty &&
        (items ts.tail.dropLast).all Predicate.isConstant) = true := h
    simp only [Bool.and_eq_true] at hlist
    obtain ⟨l, inside, r, rfl, hl, hr⟩ := exists_of_isWrapped hlist.1.1
    have hall := hlist.2
    rw [List.tail_cons, List.dropLast_concat, List.all_eq_true] at hall
    have hinside : ∀ t ∈ inside, t.IsValue ∨ t.kind = .comma := by
      intro t ht
      rcases mem_items ht with hcomma | ⟨part, hpart, htpart⟩
      · exact .inr hcomma
      · have hsub : part ⊆ inside :=
          ((inOrder_cutFrom _ _ _ _ [] inside).infix_of_mem hpart).subset
        refine .inl (isValue_of_isConstant (fun u hu => hts ?_) (hall part hpart) htpart)
        exact List.mem_cons_of_mem l (List.mem_append_left _ (hsub hu))
    constructor
    · refine nesting_group l r hl hr (nesting_of_no_paren (fun t ht => ?_) 0)
      rcases hinside t ht with hvalue | hcomma
      · exact hvalue.kind_ne
      · simp [hcomma]
    · intro t ht
      rcases List.mem_cons.mp ht with rfl | ht
      · exact .inr (.inl hl)
      · rcases List.mem_append.mp ht with ht | ht
        · exact (hinside t ht).imp_right fun hcomma => .inr (.inr hcomma)
        · exact .inr (.inr (.inl (List.mem_singleton.mp ht ▸ hr)))

/-- No constant starts with a colon. -/
theorem IsListed.head_ne_colon {kind : TokenKind} {text : List Char} {s d : Nat}
    (h : (ofPiece kind text s d).IsListed) {cs : List Char}
    (hp : ⟨some kind, text⟩ ∈ Piece.ofText cs) : text.head? ≠ some ':' := by
  intro hhead
  have hmark := Piece.kind_of_mark (.inr (.inr rfl)) hp rfl hhead
  have hsign {sign : String} (hsign : String.ofList text = sign) (hne : sign.toList.head? ≠ some ':') :
      False := by
    rw [← hsign, String.toList_ofList] at hne
    exact hne hhead
  rcases h with (h | h | ⟨-, h | h⟩ | h) | h | h | h
  · obtain rfl : kind = .string := h
    simp at hmark
  · obtain rfl : kind = .number := h
    simp at hmark
  · exact hsign h (by decide)
  · exact hsign h (by decide)
  · obtain rfl : kind = .word := kind_of_isKeyword h
    simp at hmark
  · obtain rfl : kind = .lparen := h
    simp at hmark
  · obtain rfl : kind = .rparen := h
    simp at hmark
  · obtain rfl : kind = .comma := h
    simp at hmark

end Token

/-! ### Constants on the right of an operator -/

open Token

/-- Pieces of constants that stand by themselves on the right of an operator. -/
structure Constants (operator : String) (V : List Piece) : Prop where
  operator_eq : operator = "=" ∨ operator = "IN"
  tight : Piece.IsTight V
  /-- Their text is cut into them. -/
  alone : Piece.ofText (V.flatMap Piece.text) = V
  balanced : IsBalanced V
  compared : Predicate.comparesConstants operator (locate 0 0 V) = true
  listed : ∀ t ∈ locate 0 0 V, t.IsListed

/-- **Constants in a text.** The constants that a column is compared with are a stretch of the text
that is cut in the same way by itself, and before other text unless it ends the query. -/
theorem exists_constants {sql operator : String} {us rhs vs : List Token}
    (hT : tokenize sql = us ++ (rhs ++ vs)) (hop : operator = "=" ∨ operator = "IN")
    (hne : rhs ≠ []) (h : Predicate.comparesConstants operator rhs = true) :
    ∃ V, Constants operator V ∧ (vs ≠ [] → Piece.IsCut V) ∧
      ∀ scope : Scope, scope.sql = sql.toList →
        scope.text rhs = String.ofList (V.flatMap Piece.text) := by
  have hmem : rhs ⊆ tokenize sql := by
    rw [hT]
    exact fun t ht => List.mem_append_right us (List.mem_append_left vs ht)
  obtain ⟨hnesting, hlisted⟩ := nesting_of_comparesConstants hmem hop h
  obtain ⟨A, V, B, hps, htight, hrhs, hB⟩ := exists_stretch hT hne
  rw [Nat.zero_add] at hrhs
  have hbalanced : IsBalanced V := by
    rw [IsBalanced, nesting_locate 0 0 _ (depthThrough 0 A), ← hrhs, hnesting]
  have hshift := hbalanced.locate_eq (A.flatMap Piece.text).length (depthThrough 0 A)
  rw [← hrhs] at hshift
  have hplaced : ∀ t ∈ locate 0 0 V, t.IsListed := by
    intro t ht
    have := hlisted (t.shift (A.flatMap Piece.text).length (depthThrough 0 A))
      (hshift ▸ List.mem_map_of_mem ht)
    exact this
  -- the stretch is cut by itself as in the text, since only a colon minds what is before it
  have hcolon : (V.flatMap Piece.text).head? ≠ some ':' := by
    obtain ⟨kind, text, W, rfl⟩ := htight.exists_cons
    have hpiece : ⟨some kind, text⟩ ∈ Piece.ofText sql.toList := by
      rw [hps]
      exact List.mem_append_right A (List.mem_append_left B List.mem_cons_self)
    have hfirst : (ofPiece kind text 0 0).IsListed :=
      hplaced _ (by rw [locate_some]; exact List.mem_cons_self)
    have htext := Piece.text_ne_nil_of_mem_cut hpiece
    rw [List.flatMap_cons, List.head?_append_of_ne_nil _ htext]
    exact hfirst.head_ne_colon hpiece
  refine ⟨V, ⟨hop, htight, Piece.ofText_of_ofText hps hcolon, hbalanced, ?_, hplaced⟩,
    fun hvs => Piece.isCut_of_ofText hps (hB hvs) hcolon, fun scope hsql => ?_⟩
  · rwa [hshift, Predicate.comparesConstants_shift] at h
  · rw [hrhs, Scope.text_locate htight]
    have htexts := Piece.eq_texts_of_ofText hps
    rw [List.flatMap_append] at htexts
    rw [hsql, htexts, List.drop_left]
    exact List.prefix_append _ _

end IndexAdvice
