import IndexAdvice.Proofs.NestedTables
import IndexAdvice.Proofs.SelectLists

/-!
# Output aliases

The reader of select lists has no grammar. It takes the last name of an item for an alias if a name,
a keyword or a closing parenthesis stands before it, and every other name for a column unless a
parenthesis follows. `Expresses.readAs` says what this makes of an expression: the columns that it
mentions, by one lemma of `ReadAs` for each rule of the grammar. `IsItem.referencesFrom_dropAlias`
adds the alias.

So the selected columns of a query are those that its select list mentions
(`selected_of_selectList`). A constant and an alias without `AS` after a value are among the
mentions, and such an alias is selected if it is spelled like a known column
(`labelledUsers_alias_selected`).
-/

namespace IndexAdvice

open Token

variable {query : Query} {scope : Scope} {phrase : Phrase} {qualifier : Option String}
  {ref : ColumnRef} {t l r : Token} {ts us body post rest names after : List Token}
  {ms ns : List ColumnMention}

/-! ### Outside nested queries -/

/-- What opens before a place where all nested queries are closed is closed before it. -/
theorem Token.ClosedBefore.isSome_closeOf {front between : List Token}
    (h : ClosedBefore (front ++ t :: (between ++ rest)) (front ++ t :: between).length)
    (hopens : opensBefore t (between ++ rest) = true) : (closeOf 0 between).isSome := by
  have hopen : isOpenAt (front ++ t :: (between ++ rest)) front.length
      (front ++ t :: between).length = false := by
    refine h front.length (by simp) ?_
    rwa [← opensNested_zero, ← opensNested_append_left front 0, Nat.add_zero] at hopens
  have hsplit : front ++ t :: (between ++ rest) = front ++ t :: between ++ rest := by simp
  rw [isOpenAt, hsplit, List.take_left, List.drop_length_add_append] at hopen
  exact Option.isNone_eq_false_iff.mp hopen

/-- A parenthesis is closed by the first token that closes it. -/
theorem Group.closer_mem {between : List Token} (hlocated : Located (t :: (between ++ rest)))
    (ht : t.kind = .lparen) (hclose : (closeOf 0 between).isSome) :
    Group.closer t (between ++ rest) ∈ between := by
  obtain ⟨k, hk⟩ := Option.isSome_iff_exists.mp hclose
  obtain ⟨body, r, more, rfl, rfl, -, -⟩ := closeOf_eq_some_iff.mp hk
  rw [closer, hlocated.closing?_eq ht, closeOf_append_of_some hk]
  simp [List.getD]

theorem Token.opensBefore_of_ne_lparen (hl : l.kind ≠ .lparen) : opensBefore l ts = false := by
  simp [opensBefore, hl]

/-- The last tokens of a query, from a place where all nested queries before it are closed. -/
def Query.ResumesAt (query : Query) (ts : List Token) : Prop :=
  ∃ pre, statementTokens query.sql = pre ++ ts ∧ ClosedBefore (pre ++ ts) pre.length

namespace Query.ResumesAt

/-- A token that opens no nested query leaves them closed. -/
theorem cons (h : query.ResumesAt (t :: ts)) (ht : opensBefore t ts = false) :
    query.ResumesAt ts := by
  obtain ⟨pre, hS, hclosed⟩ := h
  have hopens : opensNested (pre ++ t :: ts) pre.length = false := by
    rw [← ht, ← opensNested_zero, ← opensNested_append_left pre 0, Nat.add_zero]
  refine ⟨pre ++ [t], by rw [hS, List.append_assoc]; rfl, ?_⟩
  rw [List.append_assoc, List.length_append]
  exact hclosed.succ hopens

/-- So do tokens whose parentheses match. -/
theorem append (h : query.ResumesAt (ts ++ us)) (hts : nesting 0 ts = some 0) :
    query.ResumesAt us := by
  obtain ⟨pre, hS, hclosed⟩ := h
  refine ⟨pre ++ ts, by rw [hS, List.append_assoc], ?_⟩
  rw [List.append_assoc, List.length_append]
  intro j hj hopens
  by_cases hlt : j < pre.length
  · exact isOpenAt_eq_false_of_le (hclosed j hlt hopens) (Nat.le_add_right _ _)
  · obtain ⟨i, rfl⟩ := Nat.exists_eq_add_of_le (Nat.le_of_not_lt hlt)
    obtain ⟨u, hu, hkind⟩ := kind_of_opensNested hopens
    have hi : i < ts.length := by omega
    rw [List.getElem?_append_right (Nat.le_add_right _ _), Nat.add_sub_cancel_left,
      List.getElem?_append_left hi] at hu
    rw [isOpenAt_append pre ts us i (Nat.le_refl _), isOpenAt, List.take_length]
    exact Option.isNone_eq_false_iff.mpr (isSome_closeOf_drop hts hu hkind)

/-- A token that opens no nested query is in no group. -/
theorem covers_eq_false (h : query.ResumesAt (t :: ts)) (ht : opensBefore t ts = false) :
    Group.covers query.groups t = false := by
  obtain ⟨pre, hS, hclosed⟩ := h
  refine Bool.eq_false_iff.mpr fun hcovers => ?_
  obtain ⟨g, hg, hbounds⟩ := List.any_eq_true.mp hcovers
  simp only [Bool.and_eq_true, decide_eq_true_eq] at hbounds
  rw [Query.groups, Group.ofTokens, hS] at hg
  obtain ⟨front, u, rest, before, hsplit, hopens, rfl⟩ := Group.exists_of_mem_collect hg
  have horder := consecutive_statementTokens query.sql
  have hlocated := located_statementTokens query.sql
  rw [hS] at horder hlocated
  rcases List.append_eq_append_iff.mp hsplit with ⟨between, rfl, hrest⟩ | ⟨between, rfl, hrest⟩
  · cases between with
    | nil =>
      obtain ⟨rfl, rfl⟩ := List.cons.inj hrest
      exact Bool.noConfusion (ht.symm.trans hopens)
    | cons v between =>
      -- the group starts after the token
      obtain ⟨rfl, rfl⟩ := List.cons.inj hrest
      have hlt := horder.start_lt t (by simp)
      have hle := (List.pairwise_append.mp horder.stop_le).2.1
      have := (List.pairwise_cons.mp hle).1 u (by simp)
      have hstart : u.start ≤ t.start := hbounds.1
      omega
  · cases between with
    | nil =>
      obtain ⟨rfl, rfl⟩ := List.cons.inj hrest
      exact Bool.noConfusion (ht.symm.trans hopens)
    | cons v between =>
      -- the group is closed before the token
      obtain ⟨rfl, rfl⟩ := List.cons.inj hrest
      have hlparen : u.kind = .lparen := by
        simpa using (Bool.and_eq_true_iff.mp hopens).1
      rw [List.append_assoc, List.cons_append] at hclosed horder hlocated
      have hcloser := Group.closer_mem hlocated.right hlparen (hclosed.isSome_closeOf hopens)
      have hstop : t.start < (Group.closer u (between ++ t :: ts)).stop := hbounds.2
      have hle := (List.pairwise_append.mp horder.stop_le).2.1
      have := (List.pairwise_append.mp (List.pairwise_cons.mp hle).2).2.2 _ hcloser t (by simp)
      omega

/-- The tokens of a nested query between its parentheses are in a group. -/
theorem covers_of_mem (h : query.ResumesAt (l :: (body ++ r :: post)))
    (hquery : IsNestedQuery l body r) (ht : t ∈ body) : Group.covers query.groups t = true := by
  obtain ⟨pre, hS, -⟩ := h
  obtain ⟨semis, -, hsplit⟩ := statementTokens_append query.sql
  have horder := consecutive_statementTokens query.sql
  rw [hS] at hsplit horder
  rw [List.append_assoc, List.cons_append, List.append_assoc, List.cons_append] at hsplit
  have hle := (List.pairwise_append.mp horder.stop_le).2.1
  obtain ⟨hfirst, hle⟩ := List.pairwise_cons.mp hle
  have hbefore := hfirst t (by simp [ht])
  have hafter := (List.pairwise_append.mp hle).2.2 t ht r (by simp)
  have hl := horder.start_lt l (by simp)
  have ht := horder.start_lt t (by simp [ht])
  exact covers_groups hsplit hquery (by omega) (by omega)

end Query.ResumesAt

/-! ### Reading names -/

/-- The known column that a mention is taken for. -/
def ColumnMention.column? (scope : Scope) (m : ColumnMention) : Option String :=
  (scope.resolve m.ref).filter (!·.isEmpty)

/-- The known columns that mentions are taken for. -/
def columnsOf (scope : Scope) (ms : List ColumnMention) : List String :=
  ms.filterMap (·.column? scope)

theorem columnsOf_append :
    columnsOf scope (ms ++ ns) = columnsOf scope ms ++ columnsOf scope ns :=
  List.filterMap_append

/-- The mentions that are references. -/
def references (ms : List ColumnMention) : List ColumnMention :=
  ms.filter (·.isReference)

/-- If no other mention is taken for a known column, the references alone tell the columns. -/
theorem columnsOf_references
    (h : ∀ m ∈ ms, m.isReference = false → m.column? scope = none) :
    columnsOf scope (references ms) = columnsOf scope ms := by
  rw [columnsOf, references, List.filterMap_filter, columnsOf]
  refine List.filterMap_congr fun m hm => ?_
  cases hreference : m.isReference with
  | true => rfl
  | false => exact (h m hm hreference).symm

/-- What is read of tokens depends on the token before them only if that is `AS`. -/
theorem referencesFrom_before (before : Option Token)
    (hbefore : before.any (·.isKeyword ["AS"]) = false) (ts : List Token) :
    referencesFrom scope before 0 ts = referencesFrom scope none 0 ts := by
  cases ts with
  | nil => rfl
  | cons t ts =>
    have hnone : (none : Option Token).any (·.isKeyword ["AS"]) = false := rfl
    rw [referencesFrom, referencesFrom, hbefore, hnone]

/-- A symbol is passed over, whatever stands before it. -/
theorem referencesFrom_symbol (before : Option Token) (ht : t.isIdentifier = false)
    (ts : List Token) :
    referencesFrom scope before 0 (t :: ts) = referencesFrom scope none 0 ts := by
  have hkind : t.kind ≠ .word := fun hkind => by simp [isIdentifier, hkind] at ht
  rw [referencesFrom_of_not_isIdentifier scope before ht]
  exact referencesFrom_before (some t) (isKeyword_eq_false hkind _) ts

theorem continues_of_head? (h : ∀ t ∈ rest.head?, t.kind ≠ .dot) :
    ColumnRef.continues rest = false := by
  match rest with
  | [] => rfl
  | [_] => rfl
  | d :: t :: rest => simp [ColumnRef.continues, h d rfl]

/-- What may follow a name: nothing that would go on it. -/
def EndsNames (ts : List Token) : Prop :=
  ∀ t ∈ ts.head?, t.kind ≠ .dot ∧ t.kind ≠ .lparen

/-- Names end before a token that is neither a dot nor an opening parenthesis. -/
theorem EndsNames.cons (hd : t.kind ≠ .dot) (hl : t.kind ≠ .lparen) : EndsNames (t :: ts) :=
  fun _ h => Option.some.inj h ▸ ⟨hd, hl⟩

/-- The names of a path are read up to its end. -/
theorem Path.dottedNames (h : Path qualifier (t :: names) ref)
    (hafter : ColumnRef.continues after = false) :
    t.isIdentifier = true ∧ ∃ more, ColumnRef.dottedNames (names ++ after) = (more, after) ∧
      more.isEmpty = names.isEmpty ∧ ColumnRef.ofNames qualifier t.name more = ref := by
  generalize hts : t :: names = ts at h
  induction h generalizing t names with
  | name ht =>
    obtain ⟨rfl, rfl⟩ := List.cons.inj hts
    exact ⟨ht, [], ColumnRef.dottedNames_eq_nil hafter, rfl, rfl⟩
  | @dotted _ u d ts _ hu hd hpath ih =>
    obtain ⟨rfl, rfl⟩ := List.cons.inj hts
    obtain ⟨v, ts, rfl⟩ := List.exists_cons_of_ne_nil hpath.ne_nil
    obtain ⟨hv, more, hmore, -, href⟩ := ih rfl
    refine ⟨hu, v.name :: more, ?_, rfl, href⟩
    rw [List.cons_append, List.cons_append, ColumnRef.dottedNames, if_pos (by simp [hd, hv]), hmore]

/-- A path is read as the column that it is, except for a reserved word alone. -/
theorem Path.read?_append (h : Path none (t :: names) ref)
    (hafter : ColumnRef.continues after = false) :
    ColumnRef.read? (t :: names ++ after) =
      if names.isEmpty && t.isKeyword Keyword.reserved then none else some (ref, after) := by
  obtain ⟨ht, more, hmore, hempty, href⟩ := h.dottedNames hafter
  rw [List.cons_append, ColumnRef.read?, hmore]
  simp only [ht, hempty, href, Bool.not_true, Bool.false_or]

/-- A path in the list itself is not part of a nested query. -/
theorem Path.inNested_eq_false (h : Path none (t :: names) ref)
    (hscope : ∀ t, scope.inNested t = Group.covers query.groups t)
    (hplace : query.ResumesAt (t :: names ++ post)) : scope.inNested t = false := by
  have ht : t.kind ≠ .lparen := by
    rcases h.kind t List.mem_cons_self with h | h | h <;> simp [h]
  rw [hscope]
  exact hplace.covers_eq_false (opensBefore_of_ne_lparen ht)

/-- A reference outside nested queries is looked up, unless it is the name of a function. -/
theorem referencesFrom_read (h : ColumnRef.read? (t :: names ++ after) = some (ref, after))
    (hvisible : scope.inNested t = false) (isReference : Bool) :
    referencesFrom scope none 0 (t :: names ++ after) =
      (if after.head?.any (·.kind == .lparen) then [] else columnsOf scope [⟨ref, isReference⟩]) ++
        referencesFrom scope (t :: names).getLast? 0 after := by
  have hlength : (names ++ after).length - after.length = names.length := by simp
  have hlast : names.getLast?.or (some t) = (t :: names).getLast? := by
    rw [List.getLast?_cons]
    cases names.getLast? <;> rfl
  rw [List.cons_append] at h ⊢
  rw [referencesFrom, hvisible, h]
  simp only [Option.any_none, Bool.or_self, Bool.false_eq_true, if_false, hlength,
    referencesFrom_skip, hlast]
  split
  · rfl
  · rw [columnsOf, List.filterMap_cons, ColumnMention.column?]
    cases (scope.resolve ref).filter (!·.isEmpty) <;> rfl

/-! ### Reading expressions -/

/-- Whether some columns are read in tokens of a query wherever they stand outside nested queries,
whatever follows that does not go on a name at their end. -/
def ReadAs (query : Query) (scope : Scope) (ts : List Token) (ms : List ColumnMention) : Prop :=
  ∀ post rest, query.ResumesAt (ts ++ post) → EndsNames rest →
    referencesFrom scope none 0 (ts ++ rest) =
      columnsOf scope ms ++ referencesFrom scope ts.getLast? 0 rest

namespace ReadAs

/-- A path is taken for a column, whatever it is a mention of. -/
theorem path (hscope : ∀ t, scope.inNested t = Group.covers query.groups t)
    (h : Path none ts ref) (hname : ∀ t ∈ ts.head?, t.isKeyword Keyword.reserved = false)
    (isReference : Bool) : ReadAs query scope ts [⟨ref, isReference⟩] := by
  intro post rest hplace hrest
  obtain ⟨t, names, rfl⟩ := List.exists_cons_of_ne_nil h.ne_nil
  have hread := h.read?_append (continues_of_head? fun t ht => (hrest t ht).1)
  rw [hname t rfl, Bool.and_false, if_neg Bool.false_ne_true] at hread
  have hfunction : rest.head?.any (·.kind == .lparen) = false := by
    cases rest with
    | nil => rfl
    | cons u rest => exact beq_eq_false_iff_ne.mpr (hrest u rfl).2
  rw [referencesFrom_read hread (h.inNested_eq_false hscope hplace) isReference, hfunction,
    if_neg Bool.false_ne_true]

theorem nil : ReadAs query scope [] [] :=
  fun _ _ _ _ => rfl

theorem symbol (ht : t.isIdentifier = false) : ReadAs query scope [t] [] :=
  fun _ rest _ _ => referencesFrom_of_not_isIdentifier scope none ht rest

/-- An operator or a comma between tokens is passed over. -/
theorem between {op : Token} (h : ReadAs query scope ts ms) (hts : nesting 0 ts = some 0)
    (hop : op.kind ∈ [TokenKind.operator, .star, .comma]) (h' : ReadAs query scope us ns) :
    ReadAs query scope (ts ++ op :: us) (ms ++ ns) := by
  intro post rest hplace hrest
  have hkind : op.isIdentifier = false ∧ op.kind ≠ .word ∧ op.kind ≠ .dot ∧ op.kind ≠ .lparen := by
    simp only [List.mem_cons, List.not_mem_nil, or_false] at hop
    rcases hop with h | h | h <;> simp [isIdentifier, h]
  obtain ⟨hsymbol, hword, hdot, hlparen⟩ := hkind
  rw [List.append_assoc, List.cons_append] at hplace ⊢
  have hright := (hplace.append hts).cons (opensBefore_of_ne_lparen hlparen)
  have hlast : referencesFrom scope (ts ++ op :: us).getLast? 0 rest =
      referencesFrom scope us.getLast? 0 rest := by
    rw [List.getLast?_append_of_ne_nil _ (List.cons_ne_nil op us)]
    cases us with
    | nil => exact referencesFrom_before (some op) (isKeyword_eq_false hword _) rest
    | cons u us => rw [List.getLast?_cons_cons]
  rw [h _ _ hplace (.cons hdot hlparen), referencesFrom_symbol _ hsymbol,
    h' _ _ hright hrest, columnsOf_append, List.append_assoc, hlast]

/-- So are the parentheses around tokens that are no query. -/
theorem parentheses (h : ReadAs query scope ts ms) (hl : l.kind = .lparen) (hr : r.kind = .rparen)
    (hopens : ∀ post, opensBefore l (ts ++ r :: post) = false) :
    ReadAs query scope (l :: (ts ++ [r])) ms := by
  intro post rest hplace _
  have hsymbols : l.isIdentifier = false ∧ r.isIdentifier = false := by simp [isIdentifier, hl, hr]
  have hlast : (l :: (ts ++ [r])).getLast? = some r := by
    rw [← List.cons_append, List.getLast?_concat]
  rw [List.cons_append, List.append_assoc, List.singleton_append] at hplace ⊢
  rw [referencesFrom_symbol none hsymbols.1, h _ _ (hplace.cons (hopens post))
    (.cons (by simp [hr]) (by simp [hr])), referencesFrom_of_not_isIdentifier _ _ hsymbols.2, hlast]

/-- So is the name of a function. -/
theorem call (hscope : ∀ t, scope.inNested t = Group.covers query.groups t)
    (h : ReadAs query scope (l :: ts) ms) (hpath : Path none names ref) (hl : l.kind = .lparen) :
    ReadAs query scope (names ++ l :: ts) ms := by
  intro post rest hplace hrest
  rw [List.append_assoc] at hplace ⊢
  obtain ⟨t, names, rfl⟩ := List.exists_cons_of_ne_nil hpath.ne_nil
  have hsymbol : l.isIdentifier = false := by simp [isIdentifier, hl]
  have hparen (before : Option Token) : referencesFrom scope before 0 (l :: (ts ++ rest)) =
      referencesFrom scope none 0 (l :: (ts ++ rest)) := by
    rw [referencesFrom_symbol before hsymbol, referencesFrom_symbol none hsymbol]
  have hvisible := hpath.inNested_eq_false hscope hplace
  have hends : ColumnRef.continues (l :: (ts ++ rest)) = false :=
    continues_of_head? (by simp [hl])
  have hread := hpath.read?_append hends
  have hpass : referencesFrom scope none 0 (t :: names ++ l :: (ts ++ rest)) =
      referencesFrom scope none 0 (l :: (ts ++ rest)) := by
    split at hread
    next hreserved =>
      -- a reserved word before a parenthesis is no reference, and a function all the same
      obtain rfl : names = [] := by simpa using (Bool.and_eq_true_iff.mp hreserved).1
      rw [List.cons_append, List.nil_append] at hread ⊢
      rw [referencesFrom, hvisible, hread]
      exact hparen (some t)
    next =>
      have hfunction : (l :: (ts ++ rest)).head?.any (·.kind == .lparen) = true := by simp [hl]
      rw [referencesFrom_read hread hvisible true, if_pos hfunction, List.nil_append]
      exact hparen _
  have hlast : (t :: names ++ l :: ts).getLast? = (l :: ts).getLast? :=
    List.getLast?_append_of_ne_nil _ (List.cons_ne_nil l ts)
  rw [hlast, show l :: ts ++ rest = l :: (ts ++ rest) from rfl, hpass]
  exact h post rest (hplace.append hpath.nesting_eq) hrest

/-- Nothing is read in a nested query. -/
theorem nested (hscope : ∀ t, scope.inNested t = Group.covers query.groups t)
    (hquery : IsNestedQuery l body r) : ReadAs query scope (l :: (body ++ [r])) [] := by
  intro post rest hplace _
  have hl : l.isIdentifier = false := by simp [isIdentifier, hquery.lparen]
  have hr : r.isIdentifier = false := by simp [isIdentifier, hquery.rparen]
  have hlast : (l :: (body ++ [r])).getLast? = some r := by
    rw [← List.cons_append, List.getLast?_concat]
  rw [List.cons_append, List.append_assoc, List.singleton_append] at hplace ⊢
  rw [referencesFrom_symbol none hl, referencesFrom_nested
    (fun t ht => (hscope t).trans (hplace.covers_of_mem hquery ht)) hr, hlast]
  rfl

end ReadAs

namespace Expresses

/-- No nested query opens before a phrase in parentheses. -/
theorem opensBefore_eq_false (h : Expresses phrase ts ms) (hr : r.kind = .rparen)
    (l : Token) (post : List Token) : opensBefore l (ts ++ r :: post) = false := by
  have hhead : (ts ++ r :: post).head?.any (·.isKeyword Keyword.nested) = false := by
    cases ts with
    | nil => exact isKeyword_eq_false (by simp [hr]) _
    | cons t ts => exact isKeyword_eq_false_of_subset (by decide) (h.isKeyword_head? t rfl)
  rw [opensBefore, hhead, Bool.and_false]

/-- **Expressions.** What is read in an expression are the columns that it mentions. -/
theorem readAs (h : Expresses phrase ts ms)
    (hscope : ∀ t, scope.inNested t = Group.covers query.groups t) :
    ReadAs query scope ts ms := by
  induction h with
  | column hpath hname =>
    exact .path hscope hpath
      (fun t ht => isKeyword_eq_false_of_subset (by decide) (hname t ht)) true
  | value ht =>
    refine .symbol ?_
    simp only [List.mem_cons, List.not_mem_nil, or_false] at ht
    rcases ht with h | h | h <;> simp [isIdentifier, h]
  | @constant t ht =>
    have hname : t.isKeyword Keyword.reserved = false :=
      isKeyword_eq_false_of_disjoint (by decide) ht
    refine .path hscope (.name ?_) (fun _ h => Option.some.inj h ▸ hname) false
    simp [isIdentifier, kind_of_isKeyword ht]
  | call hf _ hl hr hargs ih =>
    exact (ih.parentheses hl hr (hargs.opensBefore_eq_false hr _)).call hscope hf hl
  | operation hts hop _ _ ih ih' =>
    exact ih.between hts.nesting_eq (List.mem_append_left [TokenKind.comma] hop) ih'
  | signed hop _ ih => exact ReadAs.nil.between rfl (by simp [hop]) ih
  | group hl hr hts ih => exact ih.parentheses hl hr (hts.opensBefore_eq_false hr _)
  | nested hquery => exact .nested hscope hquery
  | empty => exact .nil
  | star ht => exact .symbol (by simp [isIdentifier, ht])
  | argument _ ih => exact ih
  | comma hts hc _ ih ih' => exact ih.between hts.nesting_eq (by simp [hc]) ih'

end Expresses

/-! ### Reading select lists -/

theorem EndsNames.nil : EndsNames [] :=
  fun _ h => absurd h (by simp)

/-- Nothing is read in a reserved word alone. -/
theorem referencesFrom_reserved (before : Option Token)
    (ht : t.isKeyword Keyword.reserved = true) : referencesFrom scope before 0 [t] = [] := by
  have hread : ColumnRef.read? [t] = none := by
    simp [ColumnRef.read?, ColumnRef.dottedNames, ht]
  rw [referencesFrom, hread]
  split <;> rfl

/-- What does not end with a name does not end with a keyword. -/
theorem isKeyword_getLast?_of_not_endsNamed (h : endsNamed ts = false) (keywords : List String) :
    ts.getLast?.any (·.isKeyword keywords) = false := by
  rw [endsNamed] at h
  cases hlast : ts.getLast? with
  | none => rfl
  | some t =>
    rw [hlast, Option.any_some] at h
    refine isKeyword_eq_false (fun hkind => ?_) keywords
    rw [hkind] at h
    exact absurd h (by decide)

/-- **Items.** What is read in an item are the columns that it mentions, and nothing of an alias
that is seen. -/
theorem IsItem.referencesFrom_dropAlias (h : IsItem ts ms)
    (hscope : ∀ t, scope.inNested t = Group.covers query.groups t)
    (hplace : query.ResumesAt (ts ++ post)) :
    referencesFrom scope none 0 (dropAlias ts) = columnsOf scope ms := by
  have hread {ts post : List Token} {ms : List ColumnMention} (h : ReadAs query scope ts ms)
      (hplace : query.ResumesAt (ts ++ post)) :
      referencesFrom scope none 0 ts = columnsOf scope ms := by
    simpa [referencesFrom] using h post [] hplace .nil
  cases h with
  | plain h =>
    rw [h.dropAlias_eq_self, hread (h.readAs hscope) hplace]
  | @withAs ts as short _ h has hshort =>
    have hkind := kind_of_isKeyword has
    have hword : endsNamed (ts ++ [as]) = true := by simp [endsNamed, hkind]
    have hreserved : as.isKeyword Keyword.reserved = true := by
      refine Bool.of_not_eq_false fun hreserved => ?_
      rw [isKeyword_eq_false_of_subset (by decide) hreserved] at has
      exact Bool.noConfusion has
    rw [List.append_assoc, List.append_assoc] at hplace
    rw [dropAlias_concat, hshort, Bool.true_and, ← endsNamed, hword, if_pos rfl,
      h.readAs hscope _ [as] hplace (.cons (by simp [hkind]) (by simp [hkind])),
      referencesFrom_reserved _ hreserved, List.append_nil]
  | @withoutAs ts short ms h hshort =>
    rw [List.append_assoc] at hplace
    rw [dropAlias_concat, hshort, Bool.true_and, ← endsNamed]
    -- an alias is recognised after a name only, otherwise it is read as one more column
    cases hnamed : endsNamed ts with
    | true =>
      rw [if_pos rfl, Bool.true_or, if_pos rfl, List.append_nil, hread (h.readAs hscope) hplace]
    | false =>
      rw [if_neg Bool.false_ne_true, Bool.false_or, h.readAs hscope _ [short] hplace
        (.cons (kind_ne_of_isIdentifier hshort (by decide))
          (kind_ne_of_isIdentifier hshort (by decide)))]
      cases hreserved : short.isKeyword Keyword.reserved with
      | true =>
        rw [if_pos rfl, referencesFrom_reserved _ hreserved, List.append_nil, List.append_nil]
      | false =>
        have halias : ReadAs query scope [short] [⟨⟨none, short.name⟩, false⟩] :=
          .path hscope (.name hshort) (fun _ h => Option.some.inj h ▸ hreserved) false
        rw [if_neg Bool.false_ne_true, columnsOf_append,
          referencesFrom_before _ (isKeyword_getLast?_of_not_endsNamed hnamed _),
          hread halias (hplace.append h.nesting_eq)]

/-- **Lists of items.** Commas cut a list into its items, with or without a quantifier before the
first one. -/
theorem AreItems.flatMap_cutFrom (h : AreItems ts ms)
    (hscope : ∀ t, scope.inNested t = Group.covers query.groups t) (quantifier : Option Token)
    (hquantifier : ∀ t ∈ quantifier, t.isKeyword Keyword.quantifier = true)
    (hlocated : LocatedAt 0 (ts ++ post)) (hplace : query.ResumesAt (ts ++ post)) :
    (cutFrom 0 (·.kind == .comma) false false [] (quantifier.toList ++ ts)).flatMap
      (fun item => referencesFrom scope none 0 (dropAlias (dropQuantifier item))) =
      columnsOf scope ms := by
  -- the quantifier goes with the first item and is dropped from it
  have hfirst {quantifier : Option Token} {ts : List Token} {ms : List ColumnMention}
      (hquantifier : ∀ t ∈ quantifier, t.isKeyword Keyword.quantifier = true)
      (h : IsItem ts ms) {post : List Token} (hlocated : LocatedAt 0 (ts ++ post)) :
      Solid 0 (·.kind == .comma) false (quantifier.toList ++ ts) ∧ quantifier.toList ++ ts ≠ [] ∧
        dropQuantifier (quantifier.toList ++ ts) = ts := by
    refine ⟨.append (solid_of_ne_comma fun t ht => ?_) (h.solid hlocated), ?_, ?_⟩
    · rw [kind_of_isKeyword (hquantifier t (by simpa using ht))]
      decide
    · exact List.append_ne_nil_of_right_ne_nil _ h.ne_nil
    · cases quantifier with
      | none => exact h.dropQuantifier_eq_self
      | some t =>
        have ht : t.isKeyword ["DISTINCT", "ALL"] = true := hquantifier t rfl
        rw [Option.toList_some, List.singleton_append, dropQuantifier, if_pos ht]
  induction h generalizing quantifier with
  | single h =>
    obtain ⟨hsolid, hne, hdrop⟩ := hfirst hquantifier h hlocated
    rw [hsolid.cutFrom_eq hne, List.flatMap_singleton, hdrop,
      h.referencesFrom_dropAlias hscope hplace]
  | @more ts us c ms ns h hc _ ih =>
    rw [List.append_assoc, List.cons_append] at hlocated hplace
    obtain ⟨hsolid, hne, hdrop⟩ := hfirst hquantifier h hlocated
    obtain ⟨hdepth, hrest⟩ := (hlocated.append h.nesting_eq).cons (by simp [hc]) (by simp [hc])
    have hnext := (hplace.append h.nesting_eq).cons (opensBefore_of_ne_lparen (by simp [hc]))
    have hothers := ih none (by simp) hrest hnext
    rw [Option.toList_none, List.nil_append] at hothers
    rw [← List.append_assoc, hsolid.cutFrom_append hne hdepth (isKeyword_eq_false (by simp [hc]) _)
      (by simp [hc]), List.flatMap_cons, hdrop, h.referencesFrom_dropAlias hscope hplace, hothers,
      columnsOf_append]

/-- **The columns of a select list** are those of its mentions, each one once. -/
theorem IsSelectList.selectedColumns_eq (h : IsSelectList ts ms)
    (hscope : ∀ t, scope.inNested t = Group.covers query.groups t)
    (hlocated : LocatedAt 0 (ts ++ post)) (hplace : query.ResumesAt (ts ++ post)) :
    selectedColumns scope ts = (columnsOf scope ms).eraseDups := by
  rw [selectedColumns, items, hlocated.baseDepth_eq h.nesting_eq h.ne_nil]
  congr 1
  cases h with
  | plain h => exact h.flatMap_cutFrom hscope none (by simp) hlocated hplace
  | @quantified t ts ms ht h =>
    have hkind := kind_of_isKeyword ht
    exact h.flatMap_cutFrom hscope (some t) (by simpa using ht)
      (hlocated.cons (by simp [hkind]) (by simp [hkind])).2
      (hplace.cons (opensBefore_of_ne_lparen (by simp [hkind])))

/-! ### The place of a select list -/

/-- Whether some tokens stand among others right after a word outside parentheses. -/
def Token.FollowsWord (us ts : List Token) : Prop :=
  ∃ pre t post, ts = pre ++ t :: (us ++ post) ∧ t.depth = 0 ∧ t.kind = .word

theorem Token.FollowsWord.cons (h : FollowsWord us ts) (t : Token) : FollowsWord us (t :: ts) := by
  obtain ⟨pre, w, post, rfl, hw⟩ := h
  exact ⟨t :: pre, w, post, rfl, hw⟩

/-- What follows a word outside parentheses stands where all nested queries are closed. -/
theorem Query.resumesAt_of_depth {pre : List Token}
    (hS : statementTokens query.sql = pre ++ t :: ts) (hdepth : t.depth = 0)
    (hkind : t.kind = .word) : query.ResumesAt ts := by
  have hlocated := located_statementTokens query.sql
  rw [hS] at hlocated
  have hplace : query.ResumesAt (t :: ts) := by
    refine ⟨pre, hS, fun j hj hopens => ?_⟩
    obtain ⟨l, hl, hlparen⟩ := kind_of_opensNested hopens
    rw [List.getElem?_append_left hj, List.getElem?_eq_getElem hj, Option.some.injEq] at hl
    rw [← List.take_append_drop j pre, ← List.getElem_cons_drop hj, hl, List.append_assoc,
      List.cons_append] at hlocated
    -- a parenthesis that is still open would make the word deeper
    rw [isOpenAt, List.take_left, Option.isNone_eq_false_iff, Option.isSome_iff_ne_none]
    intro hopen
    have := hlocated.right.lt_depth hlparen (closeOf_concat hopen (by simp [hkind]))
    omega
  exact hplace.cons (opensBefore_of_ne_lparen (by simp [hkind]))

/-- After a token outside of all groups depths are counted from zero again. -/
theorem Token.locatedAt_of_depth {pre : List Token} (hlocated : Located (pre ++ t :: ts))
    (hdepth : t.depth = 0) (hkind : t.kind = .word) : LocatedAt 0 ts := by
  obtain ⟨start, depth, ps, hps⟩ := hlocated.right.pieces
  obtain ⟨text, place, ps', ht, hts⟩ := exists_of_locate_cons hps
  have hzero : depth = 0 := by
    rw [ht, hkind] at hdepth
    exact hdepth
  rw [hzero, hkind] at hts
  exact ⟨t.stop, ps', hts⟩

namespace Span

theorem pair?_of_opening {before : Option Token} {keyword : String}
    (h : opening before t rest = .pair keyword) : pair? t rest = some keyword := by
  rw [opening] at h
  split at h
  · cases h
  · split at h
    · cases h
    · split at h
      · rwa [← Opening.pair.inj h]
      · split at h
        · cases h
        · split at h <;> cases h

/-- The tokens of a `SELECT` follow a word outside parentheses, unless its span is the one that is
open. -/
theorem followsWord_of_mem_divideFrom {keyword : String} {phase : Phase} {before : Option Token}
    {held : List Token} {span : Span} (h : span ∈ divideFrom keyword phase before held ts)
    (hspan : span.keyword = "SELECT") (hphase : phase = .pairTail → keyword ≠ "SELECT") :
    (keyword = "SELECT" ∧ span.tokens <+: held.reverse ++ ts) ∨ FollowsWord span.tokens ts := by
  induction ts generalizing keyword phase before held with
  | nil =>
    rw [divideFrom, List.mem_singleton] at h
    subst h
    exact .inl ⟨hspan, List.prefix_append _ _⟩
  | cons t ts ih =>
    -- the span that is being read may be the one looked for
    have hfirst (hhead : span = ⟨keyword, held.reverse⟩) :
        keyword = "SELECT" ∧ span.tokens <+: held.reverse ++ t :: ts := by
      subst hhead
      exact ⟨hspan, List.prefix_append _ _⟩
    have hgrow {phase : Phase} (hne : phase ≠ .pairTail)
        (h : span ∈ divideFrom keyword phase (some t) (t :: held) ts) :
        (keyword = "SELECT" ∧ span.tokens <+: held.reverse ++ t :: ts) ∨
          FollowsWord span.tokens (t :: ts) := by
      have := ih h fun hp => absurd hp hne
      rw [List.reverse_cons, List.append_assoc, List.singleton_append] at this
      exact this.imp_right (·.cons t)
    cases phase with
    | pairTail =>
      have hlater := (ih h fun hp => absurd hp (by decide)).resolve_left (absurd ·.1 (hphase rfl))
      exact .inr (hlater.cons t)
    | joinHead => exact hgrow (afterJoinHead_ne_pairTail t) h
    | body =>
      rw [divideFrom] at h
      split at h
      next => exact hgrow (by decide) h
      next => exact .inl (hfirst (List.mem_singleton.mp h))
      next next hopening =>
        have hnext : next ≠ "SELECT" := fun heq =>
          absurd (blank_mem_of_pair? (pair?_of_opening hopening)) (by rw [heq]; decide)
        rcases List.mem_cons.mp h with h | h
        · exact .inl (hfirst h)
        · exact .inr (((ih h fun _ => hnext).resolve_left (absurd ·.1 hnext)).cons t)
      next =>
        rcases List.mem_cons.mp h with h | h
        · exact .inl (hfirst h)
        · have hstarted := ih h fun hp => absurd hp (afterJoinHead_ne_pairTail t)
          exact .inr ((hstarted.resolve_left (absurd ·.1 (by decide))).cons t)
      next next hopening =>
        rcases List.mem_cons.mp h with h | h
        · exact .inl (hfirst h)
        · refine .inr ((ih h fun hp => absurd hp (by decide)).elim ?_ (·.cons t))
          rintro ⟨-, post, hpost⟩
          have hword : t.depth = 0 ∧ t.kind = .word := by
            by_contra hnot
            rw [opening_eq_nothing_of_ne (by tauto)] at hopening
            exact Opening.noConfusion hopening
          exact ⟨[], t, post, congrArg (t :: ·) hpost.symm, hword⟩

/-- The select list of a query follows a word outside parentheses. -/
theorem followsWord_of_firstOf {sql : String}
    (hne : firstOf (divide (statementTokens sql)) "SELECT" ≠ []) :
    FollowsWord (firstOf (divide (statementTokens sql)) "SELECT") (statementTokens sql) := by
  obtain ⟨span, hspan, hkeyword, htokens⟩ : ∃ span ∈ divide (statementTokens sql),
      span.keyword = "SELECT" ∧ firstOf (divide (statementTokens sql)) "SELECT" = span.tokens := by
    rw [firstOf, tokensOf] at hne ⊢
    cases hspans : (divide (statementTokens sql)).filter (·.keyword == "SELECT") with
    | nil => exact absurd (by rw [hspans]; rfl) hne
    | cons span spans =>
      have hmem : span ∈ (divide (statementTokens sql)).filter (·.keyword == "SELECT") :=
        hspans ▸ List.mem_cons_self
      obtain ⟨hmem, hkeyword⟩ := List.mem_filter.mp hmem
      exact ⟨span, hmem, beq_iff_eq.mp hkeyword, rfl⟩
  rw [htokens]
  have hdepth {t : Token} (ht : t ∈ (statementTokens sql).head?) : t.depth = 0 :=
    depth_of_mem_head? ht
  cases hS : statementTokens sql with
  | nil =>
    rw [hS] at hspan
    exact absurd hspan List.not_mem_nil
  | cons t rest =>
    rw [hS] at hspan hdepth
    rw [divide] at hspan
    split at hspan
    next hstatement =>
      rcases followsWord_of_mem_divideFrom hspan hkeyword (fun hp => Phase.noConfusion hp) with
        ⟨-, post, hpost⟩ | hlater
      · exact ⟨[], t, post, congrArg (t :: ·) hpost.symm, hdepth rfl, kind_of_isKeyword hstatement⟩
      · exact hlater.cons t
    next =>
      exact (followsWord_of_mem_divideFrom hspan hkeyword
        (fun hp => Phase.noConfusion hp)).resolve_left (absurd ·.1 (by decide))

end Span

/-- **The selected columns.** For a query whose select list is one of the grammar, the selected
columns are the known ones that the list mentions, each once, in order. They are those that it
refers to if no constant and no alias without `AS` after a value is spelled like a known column. -/
theorem selected_of_selectList {catalog : Catalog} {splitOr : Bool} {query : Query}
    {ms : List ColumnMention}
    (h : IsSelectList (Span.firstOf (Span.divide (statementTokens query.sql)) "SELECT") ms) :
    let scope := Scope.ofClauses query query.groups (Span.divide (statementTokens query.sql))
    (query.parse catalog splitOr).clauses.selected = (columnsOf scope ms).eraseDups ∧
      ((∀ m ∈ ms, m.isReference = false → m.column? scope = none) →
        (query.parse catalog splitOr).clauses.selected =
          (columnsOf scope (references ms)).eraseDups) := by
  intro scope
  have hscope (t : Token) : scope.inNested t = Group.covers query.groups t :=
    Scope.inNested_ofSpans query query.groups _ _ t
  obtain ⟨pre, t, post, hS, hdepth, hkind⟩ := Span.followsWord_of_firstOf h.ne_nil
  have hselected : (query.parse catalog splitOr).clauses.selected =
      (columnsOf scope ms).eraseDups := by
    rw [Query.clauses_parse, Clauses.selected_ofTokens]
    exact h.selectedColumns_eq hscope
      (locatedAt_of_depth (hS ▸ located_statementTokens query.sql) hdepth hkind)
      (Query.resumesAt_of_depth hS hdepth hkind)
  refine ⟨hselected, fun hmisread => ?_⟩
  rw [columnsOf_references hmisread]
  exact hselected

/-- Orders with aliases, two of them spelled like columns. -/
def aliasedOrders : Query where
  table := "orders"
  fields := ["id", "status", "total", "user_id"]
  sql := "SELECT o.id, count(status) total, 'new' label, (SELECT 1) AS user_id FROM orders o"

/-- What the select list of the aliased orders mentions. -/
def aliasedOrdersMentions : List ColumnMention :=
  [⟨⟨some "o", "id"⟩, true⟩, ⟨⟨none, "status"⟩, true⟩, ⟨⟨none, "label"⟩, false⟩]

/-- The tokens of this select list. -/
def aliasedOrdersItems : List Token :=
  [⟨.word, "o", 7, 8, 0⟩, ⟨.dot, ".", 8, 9, 0⟩, ⟨.word, "id", 9, 11, 0⟩, ⟨.comma, ",", 11, 12, 0⟩,
    ⟨.word, "count", 13, 18, 0⟩, ⟨.lparen, "(", 18, 19, 0⟩, ⟨.word, "status", 19, 25, 1⟩,
    ⟨.rparen, ")", 25, 26, 0⟩, ⟨.word, "total", 27, 32, 0⟩, ⟨.comma, ",", 32, 33, 0⟩,
    ⟨.string, "'new'", 34, 39, 0⟩, ⟨.word, "label", 40, 45, 0⟩, ⟨.comma, ",", 45, 46, 0⟩,
    ⟨.lparen, "(", 47, 48, 0⟩, ⟨.word, "SELECT", 48, 54, 1⟩, ⟨.number, "1", 55, 56, 1⟩,
    ⟨.rparen, ")", 56, 57, 0⟩, ⟨.word, "AS", 58, 60, 0⟩, ⟨.word, "user_id", 61, 68, 0⟩]

theorem isSelectList_aliasedOrdersItems :
    IsSelectList aliasedOrdersItems aliasedOrdersMentions := by
  have hid : IsItem [⟨.word, "o", 7, 8, 0⟩, ⟨.dot, ".", 8, 9, 0⟩, ⟨.word, "id", 9, 11, 0⟩]
      [⟨⟨some "o", "id"⟩, true⟩] :=
    .plain (.column (.dotted rfl rfl (.name rfl)) (by decide))
  have hstatus : Expresses .arguments [⟨.word, "status", 19, 25, 1⟩] [⟨⟨none, "status"⟩, true⟩] :=
    .argument (.column (.name rfl) (by decide))
  have hname : Path none [⟨.word, "count", 13, 18, 0⟩] ⟨none, "count"⟩ := .name rfl
  have hcount := Expresses.call (l := ⟨.lparen, "(", 18, 19, 0⟩) (r := ⟨.rparen, ")", 25, 26, 0⟩)
    hname (by decide) rfl rfl hstatus
  have hquery : IsNestedQuery ⟨.lparen, "(", 47, 48, 0⟩
      [⟨.word, "SELECT", 48, 54, 1⟩, ⟨.number, "1", 55, 56, 1⟩] ⟨.rparen, ")", 56, 57, 0⟩ :=
    ⟨rfl, by decide, by decide, rfl⟩
  have htotal : IsItem (_ ++ [⟨.word, "total", 27, 32, 0⟩]) _ :=
    .withoutAs hcount rfl
  have hlabel : IsItem ([⟨.string, "'new'", 34, 39, 0⟩] ++ [⟨.word, "label", 40, 45, 0⟩]) _ :=
    .withoutAs (.value (by decide)) rfl
  have huser : IsItem (_ ++ [⟨.word, "AS", 58, 60, 0⟩] ++ [⟨.word, "user_id", 61, 68, 0⟩]) [] :=
    .withAs (.nested hquery) (by decide) rfl
  exact .plain (.more (c := ⟨.comma, ",", 11, 12, 0⟩) hid rfl
    (.more (c := ⟨.comma, ",", 32, 33, 0⟩) htotal rfl
      (.more (c := ⟨.comma, ",", 45, 46, 0⟩) hlabel rfl (.single huser))))

/-- None of the aliases is selected. -/
theorem aliasedOrders_selected :
    IsSelectList (Span.firstOf (Span.divide (statementTokens aliasedOrders.sql)) "SELECT")
        aliasedOrdersMentions ∧
      (aliasedOrders.parse [] true).clauses.selected = ["id", "status"] := by
  have hitems : Span.firstOf (Span.divide (statementTokens aliasedOrders.sql)) "SELECT" =
      aliasedOrdersItems := by
    decide +kernel
  have hlist : IsSelectList
      (Span.firstOf (Span.divide (statementTokens aliasedOrders.sql)) "SELECT")
      aliasedOrdersMentions :=
    hitems ▸ isSelectList_aliasedOrdersItems
  refine ⟨hlist, ?_⟩
  rw [(selected_of_selectList hlist).2 (by decide +kernel)]
  decide +kernel

/-- Users with a constant under an alias that is spelled like a column. -/
def labelledUsers : Query where
  table := "User"
  fields := ["id", "status"]
  sql := "SELECT 'new' status FROM users"

/-- **An alias that is selected.** The select list refers to no column, and the alias after its
constant is taken for one. -/
theorem labelledUsers_alias_selected :
    let spans := Span.divide (statementTokens labelledUsers.sql)
    ∃ ms, IsSelectList (Span.firstOf spans "SELECT") ms ∧
      columnsOf (Scope.ofClauses labelledUsers labelledUsers.groups spans) (references ms) = [] ∧
      (labelledUsers.parse [] true).clauses.selected = ["status"] := by
  intro spans
  have hitems : Span.firstOf spans "SELECT" =
      [⟨.string, "'new'", 7, 12, 0⟩] ++ [⟨.word, "status", 13, 19, 0⟩] := by
    decide +kernel
  have hitem : IsItem ([⟨.string, "'new'", 7, 12, 0⟩] ++ [⟨.word, "status", 13, 19, 0⟩]) _ :=
    .withoutAs (.value (by decide)) rfl
  refine ⟨[⟨⟨none, "status"⟩, false⟩], ?_, rfl, by decide +kernel⟩
  rw [hitems]
  exact .plain (.single hitem)

end IndexAdvice
