import IndexAdvice.Proofs.CheckedSpans
import IndexAdvice.Proofs.SelectLists
import IndexAdvice.Proofs.SetOperators

/-!
# The clauses of a text

Every token before the set operator that ends a statement is in one clause: it belongs to the
keyword that opens the clause or stands in its span, and the clauses come one after the other. This
is `clauses_partition_tokens`, which also tells what the keywords are, and that no keyword is left
inside a span: `Span.OpensNone` holds of every span, for a join of what follows its own `JOIN`.

The tokens of the division are read in turn, with the clause that is open (`Span.exists_clauses`).
What a token does there is said once, in `Span.opening_means`. Modifiers before `JOIN` never stay in
the clause before it, since the first of them opens the join already.
-/

namespace IndexAdvice

open Token

namespace Span

variable {keyword : String} {before : Option Token} {t m w : Token}
  {body opener held rest ts : List Token}

/-- A clause of a text: the tokens of the keyword that opens it, as far as its span does not hold
them, and the span. -/
structure Clause where
  opener : List Token
  span : Span

/-- The tokens of a clause as they stand in the text. -/
def Clause.source (clause : Clause) : List Token :=
  clause.opener ++ clause.span.tokens

/-- Whether a token may stand before `JOIN` to modify it. -/
structure IsModifier (m : Token) : Prop where
  depth : m.depth = 0
  isKeyword : m.isKeyword Keyword.joinModifier = true

/-- How the keyword of a clause is written: before its span, or for a join at the head of it. -/
inductive Opens : (keyword : String) → (opener head : List Token) → Prop
  | word {t : Token} (hdepth : t.depth = 0) (ht : t.isKeyword Keyword.clause = true) :
      Opens t.upper [t] []
  | pair {t u : Token} (hdepth : t.depth = 0) (ht : t.kind = .word) (hu : u.kind = .word)
      (hpaired : (t.upper, u.upper) ∈ Keyword.paired) : Opens (t.upper ++ " " ++ u.upper) [t, u] []
  | join {modifiers : List Token} {w : Token} (hmodifiers : ∀ m ∈ modifiers, IsModifier m)
      (hw : w.isKeyword ["JOIN"] = true) : Opens "JOIN" [] (modifiers ++ [w])

/-- Whether a token at depth zero opens no clause, standing between `before` and `rest`: it is no
pair with the token after it, not `JOIN`, and no clause keyword but the `FROM` of
`DISTINCT FROM`. -/
structure IsInner (before : Option Token) (t : Token) (rest : List Token) : Prop where
  pair : ∀ p ∈ Keyword.paired, t.isKeyword [p.1] = true → rest.head?.any (·.isKeyword [p.2]) = false
  join : t.isKeyword ["JOIN"] = false
  clause : t.isKeyword Keyword.clause = true →
    t.isKeyword ["FROM"] = true ∧ before.any (·.isKeyword ["DISTINCT"]) = true

/-- Whether none of the tokens, which follow `before`, opens a clause at depth zero. -/
def OpensNone (before : Option Token) (body : List Token) : Prop :=
  ∀ front t rest, body = front ++ t :: rest → t.depth = 0 →
    IsInner (front.getLast?.or before) t rest

/-- Whether a clause is opened by a keyword that is not the first of the text, and holds no further
one. -/
def Clause.IsOpened (clause : Clause) : Prop :=
  ∃ head body, Opens clause.span.keyword clause.opener head ∧
    clause.span.tokens = head ++ body ∧ OpensNone none body

/-- Whether a clause is the first of a text that starts with `t`, and holds no further keyword. A
text that starts with no statement keyword is a condition. -/
structure Clause.StartsWith (t : Token) (clause : Clause) : Prop where
  keyword : if t.isKeyword ("WHERE" :: Keyword.statement) then
      clause.opener = [t] ∧ clause.span.keyword = t.upper
    else clause.opener = [] ∧ clause.span.keyword = "WHERE"
  opensNone : OpensNone none clause.span.tokens

/-- Whether the modifiers of a join are all in it, and none is left in the clause before. -/
def Clause.LeavesModifiers (clause next : Clause) : Prop :=
  next.span.keyword = "JOIN" → ∀ m ∈ clause.source.getLast?, ¬IsModifier m

/-! ### What a token does -/

/-- The head of a join is a run of modifiers with JOIN behind it. -/
theorem exists_joinHead (h : startsJoin ts = true) :
    ∃ modifiers w rest, ts = modifiers ++ w :: rest ∧ (∀ m ∈ modifiers, IsModifier m) ∧
      w.isKeyword ["JOIN"] = true := by
  induction ts with
  | nil => exact absurd h (by decide)
  | cons t ts ih =>
    rcases (startsJoin_iff _ _).mp h with hjoin | ⟨hdepth, hmodifier, hrest⟩
    · exact ⟨[], t, ts, rfl, List.forall_mem_nil _, hjoin⟩
    · obtain ⟨modifiers, w, rest, rfl, hmodifiers, hw⟩ := ih hrest
      exact ⟨t :: modifiers, w, rest, rfl,
        List.forall_mem_cons.mpr ⟨⟨hdepth, hmodifier⟩, hmodifiers⟩, hw⟩

/-- A pair that opens a clause is one of the keywords of two words. -/
theorem exists_paired {next : String} (h : pair? t rest = some next) :
    ∃ u rest', rest = u :: rest' ∧ (t.upper, u.upper) ∈ Keyword.paired ∧ u.kind = .word ∧
      next = t.upper ++ " " ++ u.upper := by
  unfold pair? at h
  split at h
  · rename_i second hlookup
    split at h
    · rename_i hsecond
      obtain ⟨u, hu, hkeyword⟩ := (Option.any_eq_true _ _).mp hsecond
      obtain ⟨rest', rfl⟩ := List.head?_eq_some_iff.mp hu
      have hkind := kind_of_isKeyword hkeyword
      have hupper : u.upper = second := by simpa [Token.isKeyword, hkind] using hkeyword
      obtain ⟨l₁, l₂, hpaired, -⟩ := List.lookup_eq_some_iff.mp hlookup
      refine ⟨u, rest', rfl, ?_, hkind, hupper ▸ (Option.some.inj h).symm⟩
      rw [hupper, hpaired]
      exact List.mem_append_right l₁ List.mem_cons_self
    · cases h
  · cases h

/-- The second word of a pair does not follow the first one where they are no pair. -/
theorem any_head?_of_pair?_eq_none (h : pair? t rest = none) {p : String × String}
    (hp : p ∈ Keyword.paired) (ht : t.isKeyword [p.1] = true) :
    rest.head?.any (·.isKeyword [p.2]) = false := by
  have hupper : t.upper = p.1 := by simpa [Token.isKeyword, kind_of_isKeyword ht] using ht
  have hlookup : ∀ p ∈ Keyword.paired, Keyword.paired.lookup p.1 = some p.2 := by decide
  rw [pair?, hupper, hlookup p hp] at h
  simpa using h

/-- What it means that a token, followed by `rest`, does the one or the other to the division. -/
def Opening.Means (before : Option Token) (t : Token) (rest : List Token) : Opening → Prop
  | .nothing => t.depth = 0 → IsInner before t rest ∧ startsJoin (t :: rest) = false
  | .stop => EndsStatement t
  | .pair next => ∃ u rest', rest = u :: rest' ∧ Opens next [t, u] []
  | .join => startsJoin (t :: rest) = true
  | .clause next => Opens next [t] []

/-- **What a token does** to the division, it does by what it says. -/
theorem opening_means (before : Option Token) (t : Token) (rest : List Token) :
    (opening before t rest).Means before t rest := by
  rw [opening]
  split
  · -- a token that is no word opens nothing
    rename_i hword
    intro hdepth
    have hkind : t.kind ≠ .word := by simpa [hdepth] using hword
    have hkeyword (keywords : List String) : t.isKeyword keywords = false :=
      Token.isKeyword_eq_false hkind keywords
    refine ⟨⟨fun p _ h => ?_, hkeyword _, fun h => ?_⟩, ?_⟩
    · rw [hkeyword] at h
      cases h
    · rw [hkeyword] at h
      cases h
    · rw [startsJoin_cons, hkeyword, hkeyword, Bool.and_false]
      rfl
  · rename_i hword
    simp only [Bool.or_eq_true, bne_iff_ne, not_or, not_not] at hword
    obtain ⟨hdepth, hkind⟩ := hword
    have hkeyword (keywords : List String) : t.isKeyword keywords = keywords.contains t.upper := by
      simp [Token.isKeyword, hkind]
    split
    · exact ⟨hdepth, by rwa [hkeyword]⟩
    · split
      · rename_i next hpair
        obtain ⟨u, rest', hrest, hpaired, hu, rfl⟩ := exists_paired hpair
        exact ⟨u, rest', hrest, .pair hdepth hkind hu hpaired⟩
      · rename_i hpair
        split
        · rename_i hjoin
          simp only [Bool.or_eq_true, beq_iff_eq, Bool.and_eq_true] at hjoin
          rcases hjoin with hjoin | ⟨-, hjoin⟩
          · exact (startsJoin_iff _ _).mpr (.inl (by simp [hkeyword, hjoin]))
          · exact hjoin
        · rename_i hjoin
          have hstarts : startsJoin (t :: rest) = false := by
            refine Bool.eq_false_iff.mpr fun h => hjoin ?_
            rcases (startsJoin_iff _ _).mp h with hword | ⟨-, hmodifier, -⟩
            · rw [hkeyword] at hword
              simp [List.mem_singleton.mp (List.contains_iff_mem.mp hword)]
            · rw [hkeyword] at hmodifier
              rw [hmodifier, h, Bool.and_self, Bool.or_true]
          split
          · rename_i hclause
            rw [Bool.and_eq_true] at hclause
            exact .word hdepth ((hkeyword _).trans hclause.1)
          · rename_i hclause
            refine fun _ => ⟨⟨fun p hp => any_head?_of_pair?_eq_none hpair hp, ?_, fun h => ?_⟩,
              hstarts⟩
            · exact Bool.eq_false_iff.mpr fun h => absurd ((startsJoin_iff _ _).mpr (.inl h))
                (Bool.eq_false_iff.mp hstarts)
            · rw [hkeyword] at h ⊢
              simpa [List.contains_iff_mem.mp h] using hclause

/-! ### Tokens that open no clause -/

theorem opensNone_nil : OpensNone before [] :=
  fun front t rest h => absurd h (by simp)

theorem OpensNone.cons (ht : t.depth = 0 → IsInner before t body) (h : OpensNone (some t) body) :
    OpensNone before (t :: body) := by
  intro front u rest hbody hdepth
  cases front with
  | nil =>
    obtain ⟨rfl, rfl⟩ := List.cons.inj hbody
    exact ht hdepth
  | cons v front =>
    obtain ⟨rfl, rfl⟩ := List.cons.inj hbody
    have hlast : (t :: front).getLast?.or before = front.getLast?.or (some t) := by
      rw [List.getLast?_cons]
      cases front.getLast? <;> rfl
    rw [hlast]
    exact h front u rest rfl hdepth

/-- What stands before the first token matters only if it is `DISTINCT`. -/
theorem OpensNone.of_not_distinct (h : OpensNone before body)
    (hbefore : before.any (·.isKeyword ["DISTINCT"]) = false) : OpensNone none body := by
  intro front t rest hbody hdepth
  obtain ⟨hpair, hjoin, hclause⟩ := h front t rest hbody hdepth
  refine ⟨hpair, hjoin, fun ht => ?_⟩
  obtain ⟨hfrom, hdistinct⟩ := hclause ht
  refine ⟨hfrom, ?_⟩
  cases hlast : front.getLast? with
  | none => rw [hlast, Option.none_or, hbefore] at hdistinct; cases hdistinct
  | some u => rwa [hlast] at hdistinct

/-- A token is no pair with the token after it in a part of what follows. -/
theorem IsInner.of_isPrefix (h : IsInner before t rest) (hbody : body <+: rest) :
    IsInner before t body := by
  refine ⟨fun p hp ht => ?_, h.join, h.clause⟩
  have hnone := h.pair p hp ht
  obtain ⟨later, rfl⟩ := hbody
  cases body with
  | nil => rfl
  | cons u body => exact hnone

/-! ### The division in turn -/

/-- The tokens of a text up to the set operator that ends the statement. -/
def statement (ts : List Token) : List Token :=
  ts.takeWhile fun t => !(t.depth == 0 && t.isKeyword Keyword.setOperator)

theorem statement_of_ends (h : EndsStatement t) (ts : List Token) : statement (t :: ts) = [] := by
  rw [statement, List.takeWhile_cons_of_neg]
  simp [h.depth, h.isKeyword]

/-- Tokens before the end of a statement belong to it. -/
theorem statement_append (h : ∀ t ∈ body, ¬EndsStatement t) (ts : List Token) :
    statement (body ++ ts) = body ++ statement ts := by
  refine List.takeWhile_append_of_pos fun t ht => ?_
  rw [Bool.not_eq_true', Bool.and_eq_false_imp]
  intro hdepth
  exact Bool.eq_false_iff.mpr fun hkeyword => h t ht ⟨eq_of_beq hdepth, hkeyword⟩

/-- No keyword of a clause is a set operator. -/
theorem not_endsStatement {keywords : List String} (h : t.isKeyword keywords = true)
    (hwords : ∀ word ∈ keywords, word ∉ Keyword.setOperator) : ¬EndsStatement t := by
  intro hends
  have hnot := isKeyword_eq_false_of_disjoint hwords h
  rw [hends.isKeyword] at hnot
  cases hnot

theorem isKeyword_by (hu : t.kind = .word) {first : String}
    (hpaired : (first, t.upper) ∈ Keyword.paired) : t.isKeyword ["BY"] = true := by
  have hby : ∀ p ∈ Keyword.paired, p.2 = "BY" := by decide
  rw [Token.isKeyword, hu, show t.upper = "BY" from hby _ hpaired]
  decide

/-- The keyword of a clause ends with a word that is neither `DISTINCT` nor a modifier of joins. -/
theorem Opens.exists_last {head : List Token} (h : Opens keyword opener head) :
    ∃ front m, opener ++ head = front ++ [m] ∧ m.isKeyword ["DISTINCT"] = false ∧
      ¬IsModifier m := by
  have hlast {keywords : List String} {m : Token} (hm : m.isKeyword keywords = true)
      (hwords : ∀ word ∈ keywords, word ∉ ["DISTINCT"] ∧ word ∉ Keyword.joinModifier) :
      m.isKeyword ["DISTINCT"] = false ∧ ¬IsModifier m := by
    refine ⟨isKeyword_eq_false_of_disjoint (fun word hword => (hwords word hword).1) hm,
      fun h => ?_⟩
    have hnot := isKeyword_eq_false_of_disjoint (fun word hword => (hwords word hword).2) hm
    rw [h.isKeyword] at hnot
    cases hnot
  cases h with
  | @word t hdepth ht => exact ⟨[], t, rfl, hlast ht (by decide)⟩
  | @pair t u hdepth ht hu hpaired =>
    exact ⟨[t], u, rfl, hlast (isKeyword_by hu hpaired) (by decide)⟩
  | @join modifiers w hmodifiers hw => exact ⟨modifiers, w, rfl, hlast hw (by decide)⟩

namespace Clause

variable {clause : Clause} {spans : List Span}

/-- The clause with more tokens in its span. -/
def extend (clause : Clause) (body : List Token) : Clause :=
  { clause with span := ⟨clause.span.keyword, clause.span.tokens ++ body⟩ }

/-- Whether the spans are those of a clause that is open and of the clauses after it, when the
tokens `ts` go on to the end of the statement. -/
def GoesOn (clause : Clause) (ts : List Token) (spans : List Span) : Prop :=
  ∃ body later, spans = (clause.extend body).span :: later.map Clause.span ∧
    body ++ later.flatMap Clause.source = statement ts ∧
    OpensNone clause.source.getLast? body ∧ (∀ next ∈ later, next.IsOpened) ∧
    List.IsChain LeavesModifiers (clause.extend body :: later)

theorem extend_nil (clause : Clause) : clause.extend [] = clause := by
  rw [extend, List.append_nil]

/-- Two runs of tokens may be added to a clause at once. -/
theorem extend_extend (clause : Clause) (body more : List Token) :
    (clause.extend body).extend more = clause.extend (body ++ more) := by
  simp only [extend, List.append_assoc]

/-- After a token has been added it is the one read last. -/
theorem getLast?_source_extend (clause : Clause) (t : Token) :
    (clause.extend [t]).source.getLast? = some t := by
  rw [source, extend, ← List.append_assoc, List.getLast?_concat]

/-- Nothing is left of the statement. -/
theorem goesOn_of_statement_eq_nil (h : statement ts = []) : clause.GoesOn ts [clause.span] :=
  ⟨[], [], by rw [extend_nil]; rfl, h.symm, opensNone_nil, List.forall_mem_nil _, .singleton _⟩

/-- A token that opens nothing goes on the clause. -/
theorem goesOn_of_inner (hends : ¬EndsStatement t)
    (hinner : t.depth = 0 → IsInner clause.source.getLast? t ts)
    (h : (clause.extend [t]).GoesOn ts spans) : clause.GoesOn (t :: ts) spans := by
  obtain ⟨body, later, hspans, hsource, hbody, hlater, hchain⟩ := h
  have hstatement : t :: body ++ later.flatMap source = statement (t :: ts) := by
    rw [List.cons_append, hsource]
    exact (statement_append (List.forall_mem_singleton.mpr hends) ts).symm
  have hpart : body <+: ts :=
    (hsource ▸ List.prefix_append _ _ : body <+: statement ts).trans <| List.takeWhile_prefix _
  rw [extend_extend] at hspans hchain
  rw [getLast?_source_extend] at hbody
  exact ⟨t :: body, later, hspans, hstatement,
    hbody.cons fun hdepth => (hinner hdepth).of_isPrefix hpart, hlater, hchain⟩

/-- A new clause opens, and the clause is left as it is. -/
theorem goesOn_of_opens {next : Clause}
    (hopens : Opens next.span.keyword next.opener next.span.tokens)
    (hends : ∀ u ∈ next.source, ¬EndsStatement u) (hleaves : clause.LeavesModifiers next)
    (h : next.GoesOn ts spans) : clause.GoesOn (next.source ++ ts) (clause.span :: spans) := by
  obtain ⟨body, later, hspans, hsource, hbody, hlater, hchain⟩ := h
  have hopened : (next.extend body).IsOpened := by
    refine ⟨next.span.tokens, body, hopens, rfl, hbody.of_not_distinct ?_⟩
    obtain ⟨front, m, hsource, hm, -⟩ := hopens.exists_last
    rwa [source, hsource, List.getLast?_concat]
  refine ⟨[], next.extend body :: later, by rw [extend_nil, hspans]; rfl, ?_, opensNone_nil,
    List.forall_mem_cons.mpr ⟨hopened, hlater⟩, ?_⟩
  · rw [statement_append hends, ← hsource]
    simp [source, extend]
  · rw [extend_nil]
    exact hchain.cons_cons hleaves

/-- **The rest of a division.** The tokens after the beginning of a clause go on its span, and then
come whole clauses, up to the end of the statement. -/
theorem goesOn_divideFrom (clause : Clause) (ts : List Token)
    (hlast : ∀ m ∈ clause.source.getLast?, IsModifier m → startsJoin ts = false) :
    clause.GoesOn ts (divideFrom clause.span.keyword .body clause.source.getLast?
      clause.span.tokens.reverse ts) := by
  induction hn : ts.length using Nat.strong_induction_on generalizing clause ts with
  | h n ih =>
  subst hn
  cases ts with
  | nil =>
    rw [divideFrom, List.reverse_reverse]
    exact goesOn_of_statement_eq_nil rfl
  | cons t ts =>
    -- whatever opens the next clause, the rest is divided from its last token on
    have hnew (next : Clause) (rest : List Token) (hts : t :: ts = next.source ++ rest)
        (hopens : Opens next.span.keyword next.opener next.span.tokens)
        (hends : ∀ u ∈ next.source, ¬EndsStatement u)
        (hjoin : next.span.keyword = "JOIN" → startsJoin (t :: ts) = true) :
        clause.GoesOn (t :: ts) (clause.span :: divideFrom next.span.keyword .body
          next.source.getLast? next.span.tokens.reverse rest) := by
      obtain ⟨front, m, hsource, -, hm⟩ := hopens.exists_last
      have hsource : next.source = front ++ [m] := hsource
      have hlength : rest.length < (t :: ts).length := by
        rw [hts, hsource, List.length_append, List.length_append, List.length_singleton]
        omega
      have hrest := ih rest.length hlength next rest (fun v hv hmodifier => ?_) rfl
      · rw [hts]
        exact goesOn_of_opens hopens hends (fun h v hv hmodifier =>
          Bool.eq_false_iff.mp (hlast v hv hmodifier) (hjoin h)) hrest
      · rw [hsource, List.getLast?_concat] at hv
        exact absurd (Option.some.inj hv ▸ hmodifier) hm
    have hmeans := opening_means clause.source.getLast? t ts
    have hfits := opening_fits clause.source.getLast? t ts
    have hends : opening clause.source.getLast? t ts ≠ .stop → ¬EndsStatement t :=
      fun hgoes h => hgoes (h.opening _ ts)
    rw [divideFrom, List.reverse_reverse]
    generalize opening clause.source.getLast? t ts = o at hmeans hfits hends
    cases o with
    | nothing =>
      have ht := hends Opening.noConfusion
      have hrest := ih ts.length (Nat.lt_succ_self _) (clause.extend [t]) ts ?_ rfl
      · rw [getLast?_source_extend, extend, List.reverse_append] at hrest
        exact goesOn_of_inner ht (fun hdepth => (hmeans hdepth).1) hrest
      · rw [getLast?_source_extend]
        rintro m hm hmodifier
        obtain rfl := Option.some.inj hm
        refine Bool.eq_false_iff.mpr fun h => Bool.eq_false_iff.mp (hmeans hmodifier.depth).2 ?_
        exact (startsJoin_iff _ _).mpr (.inr ⟨hmodifier.depth, hmodifier.isKeyword, h⟩)
    | stop => exact goesOn_of_statement_eq_nil (statement_of_ends hmeans ts)
    | pair next =>
      obtain ⟨u, rest, rfl, hopens⟩ := hmeans
      have hu : ¬EndsStatement u := by
        cases hopens with
        | pair hdepth ht hu hpaired => exact not_endsStatement (isKeyword_by hu hpaired) (by decide)
      refine hnew ⟨[t, u], ⟨next, []⟩⟩ rest rfl hopens ?_ (absurd · hfits.1)
      exact List.forall_mem_cons.mpr ⟨hends Opening.noConfusion, List.forall_mem_singleton.mpr hu⟩
    | join =>
      obtain ⟨modifiers, w, rest, hts, hmodifiers, hw⟩ := exists_joinHead hmeans
      have hhead : divideFrom "JOIN" (afterJoinHead t) (some t) [t] ts =
          divideFrom "JOIN" .body (some w) (w :: (modifiers.reverse ++ [])) rest := by
        rw [← Checked.divideFrom_joinHead
          (fun m hm => not_isKeyword_join (hmodifiers m hm).isKeyword) hw none [] rest, ← hts]
        rfl
      have hends : ∀ u ∈ modifiers ++ [w], ¬EndsStatement u := by
        refine List.forall_mem_append.mpr ⟨fun m hm => ?_, List.forall_mem_singleton.mpr ?_⟩
        · exact not_endsStatement (hmodifiers m hm).isKeyword (by decide)
        · exact not_endsStatement hw (by decide)
      have hgoes := hnew ⟨[], ⟨"JOIN", modifiers ++ [w]⟩⟩ rest
        (by rw [hts, source, List.nil_append, List.append_assoc]; rfl) (.join hmodifiers hw) hends
        (fun _ => hmeans)
      rw [source, List.nil_append, List.getLast?_concat, List.reverse_append] at hgoes
      rw [hhead, List.append_nil]
      exact hgoes
    | clause next =>
      refine hnew ⟨[t], ⟨next, []⟩⟩ ts rfl hmeans ?_ (absurd · hfits)
      exact List.forall_mem_singleton.mpr (hends Opening.noConfusion)

end Clause

end Span

open IndexAdvice.Span

/-- The division goes on from the first clause, to which the first token belongs as its keyword if
it starts a statement. -/
theorem exists_first (t : Token) (ts : List Token) :
    ∃ (first : Clause) (rest : List Token), first.span.tokens = [] ∧
      (if t.isKeyword ("WHERE" :: Keyword.statement) then
        first.opener = [t] ∧ first.span.keyword = t.upper
      else first.opener = [] ∧ first.span.keyword = "WHERE") ∧
      t :: ts = first.opener ++ rest ∧
      (∀ u ∈ first.opener, ¬EndsStatement u ∧ u.isKeyword ["DISTINCT"] = false) ∧
      first.GoesOn rest (divide (t :: ts)) := by
  rw [divide]
  by_cases ht : t.isKeyword ("WHERE" :: Keyword.statement) = true
  · have hmodifier : ¬IsModifier t := fun h => Bool.false_ne_true
      ((isKeyword_eq_false_of_disjoint (by decide) ht).symm.trans h.isKeyword)
    refine ⟨⟨[t], ⟨t.upper, []⟩⟩, ts, rfl, by simp [ht], rfl, ?_, ?_⟩
    · exact List.forall_mem_singleton.mpr
        ⟨not_endsStatement ht (by decide), isKeyword_eq_false_of_disjoint (by decide) ht⟩
    · rw [if_pos ht]
      refine Clause.goesOn_divideFrom ⟨[t], ⟨t.upper, []⟩⟩ ts fun m hm h => absurd h ?_
      rwa [← Option.some.inj hm]
  · refine ⟨⟨[], ⟨"WHERE", []⟩⟩, t :: ts, rfl, by simp [ht], rfl, List.forall_mem_nil _, ?_⟩
    rw [if_neg ht]
    exact Clause.goesOn_divideFrom ⟨[], ⟨"WHERE", []⟩⟩ (t :: ts) fun m hm =>
      absurd hm (Option.not_mem_none m)

/-- **The clauses partition the tokens.** Every token before the set operator that ends the
statement is in exactly one clause, in source order: in the keyword that opens the clause or in its
span. All clauses but the first are opened by their keyword, and a join starts with all of its
modifiers and `JOIN`. No further keyword stands at depth zero in a span. -/
theorem clauses_partition_tokens (t : Token) (ts : List Token) :
    ∃ (first : Clause) (later : List Clause),
      divide (t :: ts) = (first :: later).map (·.span) ∧
      (∀ keyword, tokensOf (divide (t :: ts)) keyword =
        ((first :: later).filter (·.span.keyword == keyword)).map (·.span.tokens)) ∧
      (first :: later).flatMap Clause.source = statement (t :: ts) ∧
      first.StartsWith t ∧ (∀ clause ∈ later, clause.IsOpened) ∧
      (first :: later).IsChain Clause.LeavesModifiers := by
  obtain ⟨first, rest, htokens, hkeyword, hts, hopener, body, later, hspans, hsource, hbody, hlater,
    hchain⟩ := exists_first t ts
  refine ⟨first.extend body, later, hspans, fun keyword => ?_, ?_, ⟨hkeyword, ?_⟩, hlater, hchain⟩
  · have hmap : (first.extend body).span :: later.map (·.span) =
        (first.extend body :: later).map (·.span) := rfl
    rw [hspans, hmap, tokensOf, List.filter_map, List.map_map]
    rfl
  · rw [hts, statement_append fun u hu => (hopener u hu).1, ← hsource, List.flatMap_cons,
      ← List.append_assoc]
    simp [Clause.source, Clause.extend, htokens]
  · have hnone : OpensNone none body := by
      refine hbody.of_not_distinct ((Option.any_eq_false _ _).mpr fun u hu => ?_)
      rw [Clause.source, htokens, List.append_nil] at hu
      exact (hopener u (List.mem_of_getLast? hu)).2
    rwa [Clause.extend, htokens]

end IndexAdvice
