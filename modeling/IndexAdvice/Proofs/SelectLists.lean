import IndexAdvice.Proofs.ConditionCuts
import IndexAdvice.Proofs.ConstantText
import IndexAdvice.Proofs.NestedText

/-!
# Select lists

A grammar of select lists over tokens. `Expresses` derives scalar expressions: columns, values,
constants, function calls, operations, expressions in parentheses and nested queries. `IsItem` adds
the alias, with or without `AS`, and `IsSelectList` makes a list of items. Each derivation tells
which columns are mentioned, in order; nested queries mention none.

A mention is a reference, or it is one of two things that a reader without a grammar takes for a
reference: a constant such as `NULL`, and an alias without `AS` that follows a value, since an alias
is told from a column by the name, the keyword or the parenthesis before it.

The lemmas say what is seen of a derivation from outside: its parentheses match (`nesting_eq`), it
starts with no word that changes how the next tokens are read (`isKeyword_head?`), it does not end
like an alias (`dropAlias_eq_self`), and no comma stands at its own depth (`solid`).
-/

namespace IndexAdvice

open Token

/-- The words before the first item of a select list. -/
def Keyword.quantifier : List String :=
  ["DISTINCT", "ALL"]

/-- The words that change how the tokens after them are read. -/
def Keyword.leading : List String :=
  "AS" :: (nested ++ quantifier)

/-- The words that stand for values. -/
def Keyword.valued : List String :=
  "NULL" :: constant

/-- The words that no column is called by without quotes. -/
def Keyword.unnamed : List String :=
  reserved ++ leading ++ valued

/-! ### The grammar -/

/-- A column that a select list mentions, and whether it is a reference or only taken for one. -/
structure ColumnMention where
  ref : ColumnRef
  isReference : Bool
deriving DecidableEq, Repr

/-- Names joined by dots, after a qualifier, and the column that they are: the last name, with the
one before it for a qualifier. -/
inductive Path : Option String → List Token → ColumnRef → Prop
  | name {qualifier : Option String} {t : Token} :
      t.isIdentifier = true → Path qualifier [t] ⟨qualifier, t.name⟩
  | dotted {qualifier : Option String} {t d : Token} {ts : List Token} {ref : ColumnRef} :
      t.isIdentifier = true → d.kind = .dot → Path (some t.name) ts ref →
      Path qualifier (t :: d :: ts) ref

/-- What a derivation is of: one expression, or the arguments of a call. -/
inductive Phrase where
  | scalar | arguments

/-- The tokens of a phrase, and the columns that it mentions. -/
inductive Expresses : Phrase → List Token → List ColumnMention → Prop
  | column {ts : List Token} {ref : ColumnRef} :
      Path none ts ref → (∀ t ∈ ts.head?, t.isKeyword Keyword.unnamed = false) →
      Expresses .scalar ts [⟨ref, true⟩]
  | value {t : Token} : t.kind ∈ [TokenKind.string, .number, .placeholder] →
      Expresses .scalar [t] []
  | constant {t : Token} : t.isKeyword Keyword.valued = true →
      Expresses .scalar [t] [⟨⟨none, t.name⟩, false⟩]
  | call {fs ts : List Token} {f : ColumnRef} {l r : Token} {ms : List ColumnMention} :
      Path none fs f → (∀ t ∈ fs.head?, t.isKeyword Keyword.leading = false) → l.kind = .lparen →
      r.kind = .rparen → Expresses .arguments ts ms → Expresses .scalar (fs ++ l :: (ts ++ [r])) ms
  /-- A cast is no operation, since a type follows it. -/
  | operation {ts us : List Token} {op : Token} {ms ns : List ColumnMention} :
      Expresses .scalar ts ms → op.kind ∈ [TokenKind.operator, .star] → op.text ≠ "::" →
      Expresses .scalar us ns → Expresses .scalar (ts ++ op :: us) (ms ++ ns)
  | signed {op : Token} {ts : List Token} {ms : List ColumnMention} :
      op.kind = .operator → Expresses .scalar ts ms → Expresses .scalar (op :: ts) ms
  | group {l r : Token} {ts : List Token} {ms : List ColumnMention} :
      l.kind = .lparen → r.kind = .rparen → Expresses .scalar ts ms →
      Expresses .scalar (l :: (ts ++ [r])) ms
  | nested {l r : Token} {body : List Token} :
      IsNestedQuery l body r → Expresses .scalar (l :: (body ++ [r])) []
  | empty : Expresses .arguments [] []
  | star {t : Token} : t.kind = .star → Expresses .arguments [t] []
  | argument {ts : List Token} {ms : List ColumnMention} :
      Expresses .scalar ts ms → Expresses .arguments ts ms
  | comma {ts us : List Token} {c : Token} {ms ns : List ColumnMention} :
      Expresses .scalar ts ms → c.kind = .comma → Expresses .arguments us ns →
      Expresses .arguments (ts ++ c :: us) (ms ++ ns)

/-- Whether tokens end like something that may have an alias without `AS`. -/
def endsNamed (ts : List Token) : Bool :=
  ts.getLast?.any ([TokenKind.word, .quoted, .rparen].contains ·.kind)

/-- The tokens of an item of a select list, and the columns that it mentions. After a value, an alias
without `AS` counts, unless it is a reserved word. -/
inductive IsItem : List Token → List ColumnMention → Prop
  | plain {ts : List Token} {ms : List ColumnMention} : Expresses .scalar ts ms → IsItem ts ms
  | withAs {ts : List Token} {as short : Token} {ms : List ColumnMention} :
      Expresses .scalar ts ms → as.isKeyword ["AS"] = true → short.isIdentifier = true →
      IsItem (ts ++ [as] ++ [short]) ms
  | withoutAs {ts : List Token} {short : Token} {ms : List ColumnMention} :
      Expresses .scalar ts ms → short.isIdentifier = true →
      IsItem (ts ++ [short]) (ms ++
        if endsNamed ts || short.isKeyword Keyword.reserved then []
        else [⟨⟨none, short.name⟩, false⟩])

/-- The tokens of some items with commas between them. -/
inductive AreItems : List Token → List ColumnMention → Prop
  | single {ts : List Token} {ms : List ColumnMention} : IsItem ts ms → AreItems ts ms
  | more {ts us : List Token} {c : Token} {ms ns : List ColumnMention} :
      IsItem ts ms → c.kind = .comma → AreItems us ns → AreItems (ts ++ c :: us) (ms ++ ns)

/-- The tokens of a select list, and the columns that it mentions. -/
inductive IsSelectList : List Token → List ColumnMention → Prop
  | plain {ts : List Token} {ms : List ColumnMention} : AreItems ts ms → IsSelectList ts ms
  | quantified {t : Token} {ts : List Token} {ms : List ColumnMention} :
      t.isKeyword Keyword.quantifier = true → AreItems ts ms → IsSelectList (t :: ts) ms

variable {phrase : Phrase} {qualifier : Option String} {ref : ColumnRef} {t : Token}
  {ts us init : List Token} {ms : List ColumnMention}

/-- A word of one list is no word of another that has none of its words. -/
theorem isKeyword_eq_false_of_disjoint {keywords others : List String}
    (hdisjoint : ∀ word ∈ keywords, word ∉ others) (ht : t.isKeyword keywords = true) :
    t.isKeyword others = false := by
  refine Bool.eq_false_iff.mpr fun hother => ?_
  simp only [isKeyword, Bool.and_eq_true, List.contains_iff_mem] at ht hother
  exact hdisjoint _ ht.2 hother.2

/-! ### Parentheses -/

theorem nesting_append_of_balanced (hts : nesting 0 ts = some 0) (hus : nesting 0 us = some 0) :
    nesting 0 (ts ++ us) = some 0 := by
  rw [nesting_append, hts, Option.bind_some, hus]

/-- One more token that is no parenthesis leaves the parentheses matching. -/
theorem nesting_cons (hl : t.kind ≠ .lparen) (hr : t.kind ≠ .rparen)
    (hts : nesting 0 ts = some 0) : nesting 0 (t :: ts) = some 0 := by
  have ht : nesting 0 [t] = some 0 := nesting_of_no_paren (by simpa using ⟨hl, hr⟩) 0
  exact nesting_append_of_balanced ht hts

theorem Path.kind (h : Path qualifier ts ref) :
    ∀ t ∈ ts, t.kind = .word ∨ t.kind = .quoted ∨ t.kind = .dot := by
  induction h with
  | name ht => simpa using (kind_of_isIdentifier ht).imp_right .inl
  | dotted ht hd _ ih =>
    rintro u (_ | ⟨_, _ | ⟨_, hu⟩⟩)
    · exact (kind_of_isIdentifier ht).imp_right .inl
    · exact .inr (.inr hd)
    · exact ih u hu

theorem Path.nesting_eq (h : Path qualifier ts ref) : nesting 0 ts = some 0 := by
  refine nesting_of_no_paren (fun t ht => ?_) 0
  rcases h.kind t ht with h | h | h <;> simp [h]

theorem Path.ne_nil (h : Path qualifier ts ref) : ts ≠ [] := by
  cases h <;> exact List.cons_ne_nil _ _

namespace Expresses

/-- Expressions are balanced, as each rule of the grammar is. -/
theorem nesting_eq (h : Expresses phrase ts ms) : nesting 0 ts = some 0 := by
  induction h with
  | column hpath _ => exact hpath.nesting_eq
  | value ht =>
    refine nesting_of_no_paren (List.forall_mem_singleton.mpr ?_) 0
    simp only [List.mem_cons, List.not_mem_nil, or_false] at ht
    rcases ht with h | h | h <;> simp [h]
  | constant ht => exact nesting_of_no_paren (by simp [kind_of_isKeyword ht]) 0
  | call hf _ hl hr _ ih =>
    exact nesting_append_of_balanced hf.nesting_eq (nesting_group _ _ hl hr ih)
  | operation _ hop _ _ ih ih' =>
    exact nesting_append_of_balanced ih (nesting_cons (ne_of_mem_of_not_mem hop (by decide))
      (ne_of_mem_of_not_mem hop (by decide)) ih')
  | signed hop _ ih => exact nesting_cons (by simp [hop]) (by simp [hop]) ih
  | group hl hr _ ih => exact nesting_group _ _ hl hr ih
  | nested hquery => exact nesting_group _ _ hquery.lparen hquery.rparen hquery.balanced
  | empty => rfl
  | star ht => exact nesting_of_no_paren (by simp [ht]) 0
  | argument _ ih => exact ih
  | comma _ hc _ ih ih' =>
    exact nesting_append_of_balanced ih (nesting_cons (by simp [hc]) (by simp [hc]) ih')

theorem ne_nil (h : Expresses .scalar ts ms) : ts ≠ [] := by
  cases h with
  | column hpath _ => exact hpath.ne_nil
  | call | operation => simp
  | _ => exact List.cons_ne_nil _ _

/-- The first token changes nothing about how the others are read. -/
theorem isKeyword_head? (h : Expresses phrase ts ms) :
    ∀ t ∈ ts.head?, t.isKeyword Keyword.leading = false := by
  -- the first token is that of the first part, which has one
  induction h with
  | column _ hname => exact fun t ht => isKeyword_eq_false_of_subset (by decide) (hname t ht)
  | value ht =>
    refine fun _ h => Option.some.inj h ▸ isKeyword_eq_false (fun hkind => ?_) _
    simp [hkind] at ht
  | constant ht =>
    exact fun _ h => Option.some.inj h ▸ isKeyword_eq_false_of_disjoint (by decide) ht
  | call hpath hf =>
    intro t ht
    rw [List.head?_append_of_ne_nil _ hpath.ne_nil] at ht
    exact hf t ht
  | @operation ts us op _ _ hts _ _ _ ih _ =>
    intro t ht
    obtain ⟨u, us, rfl⟩ := List.exists_cons_of_ne_nil hts.ne_nil
    exact ih t ht
  | signed hop _ _ =>
    exact fun _ h => Option.some.inj h ▸ isKeyword_eq_false (by simp [hop]) _
  | group hl _ _ _ =>
    exact fun _ h => Option.some.inj h ▸ isKeyword_eq_false (by simp [hl]) _
  | nested hquery =>
    exact fun _ h => Option.some.inj h ▸ isKeyword_eq_false (by simp [hquery.lparen]) _
  | empty => exact fun _ h => absurd h (by simp)
  | star ht => exact fun _ h => Option.some.inj h ▸ isKeyword_eq_false (by simp [ht]) _
  | argument _ ih => exact ih
  | @comma ts us c _ _ hts _ _ ih _ =>
    intro t ht
    obtain ⟨u, us, rfl⟩ := List.exists_cons_of_ne_nil hts.ne_nil
    exact ih t ht

end Expresses

/-! ### The end of an expression -/

/-- Whether a name ends some tokens is told by the last of them. -/
theorem endsNamed_append (hus : us ≠ []) : endsNamed (ts ++ us) = endsNamed us := by
  rw [endsNamed, List.getLast?_append_of_ne_nil _ hus, endsNamed]

/-- Whether tokens end like an item with an alias that does not follow `AS`. -/
def EndsAliased (ts : List Token) : Prop :=
  ∃ init t, ts = init ++ [t] ∧ t.isIdentifier = true ∧ endsNamed init = true

theorem dropAlias_of_not_endsAliased (h : ¬ EndsAliased ts) : dropAlias ts = ts := by
  rcases List.eq_nil_or_concat ts with rfl | ⟨init, t, rfl⟩
  · rfl
  · rw [List.concat_eq_append] at h ⊢
    rw [dropAlias_concat, if_neg]
    intro halias
    obtain ⟨ht, hinit⟩ := Bool.and_eq_true_iff.mp halias
    exact h ⟨init, t, rfl, ht, hinit⟩

/-- Tokens that follow something with no name at its end, and do not end like an alias, do not
after it. -/
theorem not_endsAliased_append (hts : endsNamed ts = false) (hus : ¬ EndsAliased us)
    (hne : us ≠ []) : ¬ EndsAliased (ts ++ us) := by
  rintro ⟨init, t, heq, ht, hinit⟩
  rcases List.eq_nil_or_concat us with rfl | ⟨init', t', rfl⟩
  · exact hne rfl
  · rw [List.concat_eq_append, ← List.append_assoc] at heq
    obtain ⟨rfl, ht'⟩ := List.append_inj' heq rfl
    obtain rfl := List.singleton_inj.mp ht'
    by_cases hnil : init' = []
    · rw [hnil, List.append_nil, hts] at hinit
      exact Bool.noConfusion hinit
    · rw [endsNamed_append hnil] at hinit
      exact hus ⟨init', t', by rw [List.concat_eq_append], ht, hinit⟩

theorem not_endsAliased_concat {r : Token} (hr : r.kind = .rparen) (ts : List Token) :
    ¬ EndsAliased (ts ++ [r]) := by
  rintro ⟨init, t, heq, ht, -⟩
  obtain ⟨-, htr⟩ := List.append_inj' heq rfl
  rw [← List.singleton_inj.mp htr, isIdentifier, hr] at ht
  exact absurd ht (by decide)

theorem not_endsAliased_singleton (t : Token) : ¬ EndsAliased [t] := by
  rintro ⟨init, u, heq, -, hinit⟩
  obtain rfl : init = [] := List.length_eq_zero_iff.mp (by simpa using congrArg List.length heq)
  exact absurd hinit (by decide)

/-- The last name of a path follows a dot, so it is no alias. -/
theorem Path.not_endsAliased (h : Path qualifier ts ref) : ¬ EndsAliased ts := by
  induction h with
  | name => exact not_endsAliased_singleton _
  | @dotted _ t d ts _ _ hd hts ih =>
    have hdot : endsNamed [t, d] = false := by simp [endsNamed, hd]
    exact not_endsAliased_append hdot ih hts.ne_nil

namespace Expresses

/-- No expression looks as if it ended in an alias. -/
theorem not_endsAliased (h : Expresses phrase ts ms) : phrase = .scalar → ¬ EndsAliased ts := by
  have hsymbol {op : Token} (ts : List Token) (hop : op.kind ∈ [TokenKind.operator, .star]) :
      endsNamed (ts ++ [op]) = false := by
    rw [endsNamed, List.getLast?_concat, Option.any_some]
    simp only [List.mem_cons, List.not_mem_nil, or_false] at hop
    rcases hop with h | h <;> rw [h] <;> decide
  induction h with
  | column hpath _ => exact fun _ => hpath.not_endsAliased
  | value | constant => exact fun _ => not_endsAliased_singleton _
  | @call fs ts _ l r _ _ _ _ hr _ _ =>
    intro _
    rw [← List.cons_append, ← List.append_assoc]
    exact not_endsAliased_concat hr (fs ++ l :: ts)
  | @operation ts us op _ _ _ hop _ hus _ ih =>
    intro hscalar
    have := not_endsAliased_append (hsymbol ts hop) (ih rfl) hus.ne_nil
    rwa [List.append_assoc] at this
  | @signed op ts _ hop hts ih =>
    exact fun _ => not_endsAliased_append (hsymbol [] (by simp [hop])) (ih rfl) hts.ne_nil
  | @group l r ts _ _ hr _ _ => exact fun _ => not_endsAliased_concat hr (l :: ts)
  | @nested l r body hquery =>
    exact fun _ => not_endsAliased_concat hquery.rparen (l :: body)
  | empty | star | argument | comma => exact fun hscalar => Phrase.noConfusion hscalar

/-- No alias is seen in an expression. -/
theorem dropAlias_eq_self (h : Expresses .scalar ts ms) : dropAlias ts = ts :=
  dropAlias_of_not_endsAliased (h.not_endsAliased rfl)

end Expresses

/-! ### Commas -/

/-- Tokens that are found in a text one after the other, the first of them at a depth unless it
closes a parenthesis. -/
def Token.LocatedAt (d : Nat) (ts : List Token) : Prop :=
  ∃ start ps, ts = locate start d ps

namespace Token.LocatedAt

variable {d : Nat} {l : Token} {body : List Token}

/-- A balanced part of located tokens is a located part, and so is the rest. -/
theorem of_append (h : LocatedAt d (ts ++ us)) (hts : nesting 0 ts = some 0) :
    (∃ start ps, ts = locate start d ps ∧ IsBalanced ps) ∧ LocatedAt d us := by
  obtain ⟨start, ps, hps⟩ := h
  have hbalanced {start : Nat} {ps₁ : List Piece} (heq : ts = locate start d ps₁) :
      IsBalanced ps₁ := by
    rw [IsBalanced, nesting_locate 0 0 start d, ← heq, hts]
  cases us with
  | nil =>
    rw [List.append_nil] at hps
    exact ⟨⟨start, ps, hps, hbalanced hps⟩, 0, [], rfl⟩
  | cons u us =>
    obtain ⟨ps₁, text, ps₂, rfl, hleft, -, -⟩ := exists_of_locate hps.symm
    refine ⟨⟨start, ps₁, hleft, hbalanced hleft⟩, start + (ps₁.flatMap Piece.text).length,
      ⟨some u.kind, text⟩ :: ps₂, ?_⟩
    rw [locate_append, ← hleft, (hbalanced hleft).depthThrough_eq] at hps
    exact List.append_cancel_left hps

theorem append (h : LocatedAt d (ts ++ us)) (hts : nesting 0 ts = some 0) : LocatedAt d us :=
  (h.of_append hts).2

/-- A token that is no parenthesis stands at the depth of the list and leaves it. -/
theorem cons (h : LocatedAt d (t :: ts)) (hl : t.kind ≠ .lparen) (hr : t.kind ≠ .rparen) :
    t.depth = d ∧ LocatedAt d ts := by
  obtain ⟨start, ps, hps⟩ := h
  obtain ⟨text, place, ps', ht, hts⟩ := exists_of_locate_cons hps
  have hdepth : depthAfter d t.kind = d := by
    rw [depthAfter]
    · exact hl
    · exact hr
  refine ⟨?_, t.stop, ps', hdepth ▸ hts⟩
  rw [ht, ofPiece, if_neg hr]

/-- A list is at the depth of its first token. -/
theorem baseDepth_eq (h : LocatedAt d (ts ++ us)) (hts : nesting 0 ts = some 0) (hne : ts ≠ []) :
    baseDepth ts = d := by
  obtain ⟨⟨start, ps, rfl, hps⟩, -⟩ := h.of_append hts
  exact hps.baseDepth_eq hne

/-- What a parenthesis encloses is deeper than it. -/
theorem lt_depth (h : LocatedAt d (l :: (body ++ us))) (hl : l.kind = .lparen)
    (hbody : nesting 0 body = some 0) (ht : t ∈ body) : d < t.depth := by
  obtain ⟨start, ps, hps⟩ := h
  obtain ⟨text, place, ps', -, hrest⟩ := exists_of_locate_cons hps
  rw [hl] at hrest
  obtain ⟨⟨start', inner, rfl, hinner⟩, -⟩ :=
    of_append (d := d + 1) ⟨_, _, hrest⟩ hbody
  exact hinner.le_depth ht

end Token.LocatedAt

theorem solid_of_ne_comma {d : Nat} (h : ∀ t ∈ ts, t.kind ≠ .comma) :
    Solid d (·.kind == .comma) false ts :=
  solid_of_forall_sep fun t ht _ => beq_eq_false_iff_ne.mpr (h t ht)

theorem solid_singleton {d : Nat} (h : t.kind ≠ .comma) :
    Solid d (·.kind == .comma) false [t] :=
  solid_of_ne_comma (List.forall_mem_singleton.mpr h)

/-- Parentheses keep the commas between them together. -/
theorem solid_parentheses {d : Nat} {l r : Token} {body : List Token} (hl : l.kind = .lparen)
    (hr : r.kind = .rparen) (hbody : nesting 0 body = some 0)
    (hlocated : LocatedAt d (l :: (body ++ us))) :
    Solid d (·.kind == .comma) false (l :: (body ++ [r])) := by
  refine solid_of_forall_sep fun t ht hdepth => beq_eq_false_iff_ne.mpr fun hcomma => ?_
  rcases List.mem_cons.mp ht with rfl | ht
  · exact absurd (hl.symm.trans hcomma) (by decide)
  rcases List.mem_append.mp ht with ht | ht
  · exact (hlocated.lt_depth hl hbody ht).ne' hdepth
  · rw [List.mem_singleton.mp ht, hr] at hcomma
    exact absurd hcomma (by decide)

theorem Path.solid {d : Nat} (h : Path qualifier ts ref) :
    Solid d (·.kind == .comma) false ts := by
  refine solid_of_ne_comma fun t ht => ?_
  rcases h.kind t ht with h | h | h <;> simp [h]

/-- An expression is not cut at its commas. -/
theorem Expresses.solid {d : Nat} (h : Expresses phrase ts ms) (hscalar : phrase = .scalar)
    (hlocated : LocatedAt d (ts ++ us)) : Solid d (·.kind == .comma) false ts := by
  -- commas occur between arguments, that is in parentheses
  induction h generalizing us with
  | column hpath _ => exact hpath.solid
  | value ht =>
    refine solid_singleton fun hcomma => ?_
    simp [hcomma] at ht
  | constant ht => exact solid_singleton (by simp [kind_of_isKeyword ht])
  | call hf _ hl hr hts _ =>
    rw [List.append_assoc, List.cons_append, List.append_assoc] at hlocated
    exact hf.solid.append
      (solid_parentheses hl hr hts.nesting_eq (hlocated.append hf.nesting_eq))
  | @operation ts vs op _ _ hts hop _ _ ih ih' =>
    have hkind {kind : TokenKind} (h : kind ∉ [TokenKind.operator, .star]) : op.kind ≠ kind :=
      ne_of_mem_of_not_mem hop h
    rw [List.append_assoc] at hlocated
    have hrest := (hlocated.append hts.nesting_eq).cons (hkind (by decide)) (hkind (by decide))
    exact (ih rfl hlocated).append
      ((solid_singleton (hkind (by decide))).append (ih' rfl hrest.2))
  | @signed op ts _ hop _ ih =>
    have hrest := (hlocated.cons (by simp [hop]) (by simp [hop])).2
    exact (solid_singleton (by simp [hop])).append (ih rfl hrest)
  | group hl hr hts _ =>
    rw [List.cons_append, List.append_assoc] at hlocated
    exact solid_parentheses hl hr hts.nesting_eq hlocated
  | nested hquery =>
    rw [List.cons_append, List.append_assoc] at hlocated
    exact solid_parentheses hquery.lparen hquery.rparen hquery.balanced hlocated
  | empty | star | argument | comma => exact Phrase.noConfusion hscalar

/-! ### Items -/

namespace IsItem

/-- An item is an expression and what is left of its alias. -/
theorem exists_append (h : IsItem ts ms) : ∃ front ns back, ts = front ++ back ∧
    Expresses .scalar front ns ∧ ∀ t ∈ back, t.kind = .word ∨ t.kind = .quoted := by
  cases h with
  | plain h => exact ⟨ts, ms, [], (List.append_nil ts).symm, h, by simp⟩
  | @withAs ts as short _ h has hshort =>
    refine ⟨ts, ms, [as, short], by simp, h, ?_⟩
    simpa using ⟨.inl (kind_of_isKeyword has), kind_of_isIdentifier hshort⟩
  | @withoutAs ts short ms h hshort =>
    exact ⟨ts, ms, [short], rfl, h, by simpa using kind_of_isIdentifier hshort⟩

theorem nesting_eq (h : IsItem ts ms) : nesting 0 ts = some 0 := by
  obtain ⟨front, ns, back, rfl, hfront, hback⟩ := h.exists_append
  refine nesting_append_of_balanced hfront.nesting_eq (nesting_of_no_paren (fun t ht => ?_) 0)
  rcases hback t ht with h | h <;> simp [h]

theorem ne_nil (h : IsItem ts ms) : ts ≠ [] := by
  obtain ⟨front, ns, back, rfl, hfront, -⟩ := h.exists_append
  exact List.append_ne_nil_of_left_ne_nil hfront.ne_nil back

/-- No quantifier is seen in an item. -/
theorem dropQuantifier_eq_self (h : IsItem ts ms) : dropQuantifier ts = ts := by
  obtain ⟨front, ns, back, rfl, hfront, -⟩ := h.exists_append
  obtain ⟨t, front, rfl⟩ := List.exists_cons_of_ne_nil hfront.ne_nil
  have ht : t.isKeyword ["DISTINCT", "ALL"] = false :=
    isKeyword_eq_false_of_subset (by decide) (hfront.isKeyword_head? t rfl)
  rw [List.cons_append, dropQuantifier, ht]
  rfl

/-- An item is never cut, as all commas in it are in groups. -/
theorem solid {d : Nat} (h : IsItem ts ms) (hlocated : LocatedAt d (ts ++ us)) :
    Solid d (·.kind == .comma) false ts := by
  obtain ⟨front, ns, back, rfl, hfront, hback⟩ := h.exists_append
  rw [List.append_assoc] at hlocated
  refine (hfront.solid rfl hlocated).append (solid_of_ne_comma fun t ht => ?_)
  rcases hback t ht with h | h <;> simp [h]

end IsItem

theorem AreItems.nesting_eq (h : AreItems ts ms) : nesting 0 ts = some 0 := by
  induction h with
  | single h => exact h.nesting_eq
  | more h hc _ ih =>
    exact nesting_append_of_balanced h.nesting_eq (nesting_cons (by simp [hc]) (by simp [hc]) ih)

theorem AreItems.ne_nil (h : AreItems ts ms) : ts ≠ [] := by
  cases h with
  | single h => exact h.ne_nil
  | more => simp

theorem IsSelectList.nesting_eq (h : IsSelectList ts ms) : nesting 0 ts = some 0 := by
  cases h with
  | plain h => exact h.nesting_eq
  | quantified ht h =>
    have hkind := kind_of_isKeyword ht
    exact nesting_cons (by simp [hkind]) (by simp [hkind]) h.nesting_eq

theorem IsSelectList.ne_nil (h : IsSelectList ts ms) : ts ≠ [] := by
  cases h with
  | plain h => exact h.ne_nil
  | quantified => exact List.cons_ne_nil _ _

end IndexAdvice
