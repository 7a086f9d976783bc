import IndexAdvice.Proofs.GroupText
import IndexAdvice.Proofs.Records
import Mathlib.Data.List.Infix

/-!
# All nested queries are found

The records of a query are found by cutting the texts of its outermost groups out and reading each
as a query of its own, which may have groups again. `nested_queries_found` says that nothing gets
lost or is found twice on the way: seen from the tokens of the outermost text there is exactly one
record for each place where a nested query opens, however deep and whether or not the parentheses
match, and a record whose parentheses match was read in exactly the tokens between them.

The step is from the tokens inside a group to the tokens around it (`Finding.Right.lift`); the rest
is an induction along the tokens of one text (`foundAmong`) inside one along the nesting.
-/

namespace IndexAdvice

open Text Token

/-- A nested query and what was read in it, with the index of the token that opens it. -/
structure Finding where
  index : Nat
  query : Query
  clauses : Clauses

namespace Finding

/-- The record of a finding. -/
def record (f : Finding) : Query × Clauses :=
  (f.query, f.clauses)

/-- The finding for the same query when `n` tokens stand before. -/
def shift (n : Nat) (f : Finding) : Finding :=
  { f with index := n + f.index }

/-- What a token is, `k` parentheses deeper. -/
def seen (k : Nat) (t : Token) : TokenKind × String × Nat :=
  (t.kind, t.text, t.depth + k)

/-- Tokens are seen the same after a shift, up to the depth they are seen from. -/
theorem map_seen_shift (a k l : Nat) (ts : List Token) :
    (ts.map (Token.shift a k)).map (seen l) = ts.map (seen (l + k)) := by
  rw [List.map_map]
  refine List.map_congr_left fun t _ => ?_
  simp only [Function.comp_apply, seen, Token.shift, Nat.add_assoc, Nat.add_comm k l]

/-- Tokens that are the same at one depth are the same at every other. -/
theorem map_seen_add {us vs : List Token} {k l : Nat} (h : us.map (seen k) = vs.map (seen l))
    (n : Nat) : us.map (seen (k + n)) = vs.map (seen (l + n)) := by
  have hadd (ts : List Token) (k : Nat) : ts.map (seen (k + n)) =
      (ts.map (seen k)).map fun s => (s.1, s.2.1, s.2.2 + n) := by
    rw [List.map_map]
    refine List.map_congr_left fun t _ => ?_
    simp only [Function.comp_apply, seen, Nat.add_assoc]
  rw [hadd, hadd, h]

variable (catalog : Catalog) (splitOr : Bool)

/-- **A right finding** in the text of `outer`, where `found` are all findings. -/
structure Right (outer : Query) (found : List Finding) (f : Finding) : Prop where
  /-- The clauses are those of the query by itself. -/
  clauses : f.clauses = (f.query.parse catalog splitOr).clauses
  /-- The parent is the query that opens innermost around the finding, or `outer` itself. -/
  parent : match (around (tokenize outer.sql) f.index).getLast? with
    | none => f.query.parent? = some outer
    | some j => ∃ p ∈ found, p.index = j ∧ f.query.parent? = some p.query
  /-- The text is shorter than that of the parent. -/
  shorter : ∃ p, f.query.parent? = some p ∧ f.query.sql.length < p.sql.length
  /-- The text begins after the parenthesis. If that and those of all nested queries around it are
  closed, the tokens of the text are those in between. -/
  text : ∃ t, (tokenize outer.sql)[f.index]? = some t ∧
    f.query.sql.toList <+: trimStart (outer.sql.toList.drop (t.start + 1)) ∧
    ∀ stop, closedAt? (tokenize outer.sql) f.index = some stop →
      (∀ j ∈ around (tokenize outer.sql) f.index, (closedAt? (tokenize outer.sql) j).isSome) →
        (tokenize f.query.sql).map (seen (t.depth + 1)) =
          (between (tokenize outer.sql) f.index stop).map (seen 0)

end Finding

variable {catalog : Catalog} {splitOr : Bool}

/-- A statement is the text without the semicolons at its end. -/
theorem statementTokens_append (sql : String) :
    ∃ semis, (∀ s ∈ semis, s.kind = .semicolon) ∧
      tokenize sql = statementTokens sql ++ semis := by
  refine ⟨((tokenize sql).reverse.takeWhile (·.kind == .semicolon)).reverse, fun s hs => ?_, ?_⟩
  · have := List.all_eq_true.mp List.all_takeWhile s (List.mem_reverse.mp hs)
    simpa using this
  · rw [statementTokens, ← List.reverse_append, List.takeWhile_append_dropWhile,
      List.reverse_reverse]

/-- Of tokens with one that is no semicolon, only those after it can be dropped. -/
theorem dropSemicolons_append {r : Token} (hr : r.kind ≠ .semicolon) (front rest : List Token) :
    ((front ++ r :: rest).reverse.dropWhile (·.kind == .semicolon)).reverse =
      front ++ r :: (rest.reverse.dropWhile (·.kind == .semicolon)).reverse := by
  have hr' : (r.kind == .semicolon) = false := beq_eq_false_iff_ne.mpr hr
  rw [List.reverse_append, List.reverse_cons, List.append_assoc, List.dropWhile_append]
  split
  next h => simp [List.isEmpty_iff.mp h, hr']
  next => simp

/-- Skipped tokens are tokens before. -/
theorem collect_skip (sql : List Char) (before : List Token) (k : Nat) (rest : List Token) :
    Group.collect sql before k rest =
      Group.collect sql ((rest.take k).reverse ++ before) 0 (rest.drop k) := by
  induction k generalizing before rest with
  | zero => simp
  | succ k ih =>
    cases rest with
    | nil => simp [Group.collect]
    | cons t rest =>
      rw [Group.collect, ih, List.take_succ_cons, List.drop_succ_cons, List.reverse_cons,
        List.append_assoc]
      rfl

/-- Either a token opens a nested query, which is collected and passed over, or it is passed by
itself. -/
theorem collect_cons (sql : List Char) (before : List Token) (t : Token) (rest : List Token) :
    Group.collect sql before 0 (t :: rest) =
      if opensBefore t rest then
        Group.openedBy sql before t rest ::
          Group.collect sql ((rest.take (Group.size t rest)).reverse ++ t :: before) 0
            (rest.drop (Group.size t rest))
      else Group.collect sql (t :: before) 0 rest := by
  rw [← collect_skip]
  rfl

/-- A group that is collected is opened by one of the tokens. -/
theorem Group.exists_of_mem_collect {g : Group} {cs : List Char} {before tokens : List Token}
    {skip : Nat} (h : g ∈ collect cs before skip tokens) :
    ∃ front t rest before, tokens = front ++ t :: rest ∧ opensBefore t rest = true ∧
      g = openedBy cs before t rest := by
  induction tokens generalizing before skip with
  | nil => cases skip <;> simp [collect] at h
  | cons t rest ih =>
    have later (h : ∃ front u us before, rest = front ++ u :: us ∧ opensBefore u us = true ∧
        g = openedBy cs before u us) :
        ∃ front u us before, t :: rest = front ++ u :: us ∧ opensBefore u us = true ∧
          g = openedBy cs before u us := by
      obtain ⟨front, u, us, before, rfl, hopens, hg⟩ := h
      exact ⟨t :: front, u, us, before, rfl, hopens, hg⟩
    cases skip with
    | succ k => exact later (ih h)
    | zero =>
      rw [collect] at h
      split at h
      · next hopens =>
        rcases List.mem_cons.mp h with rfl | h
        · exact ⟨[], t, rest, before, rfl, hopens, rfl⟩
        · exact later (ih h)
      · exact later (ih h)

/-- Parentheses and semicolons at the end of a text open nothing. -/
theorem openings_append_end {us vs : List Token}
    (h : ∀ v ∈ vs, v.kind = .rparen ∨ v.kind = .semicolon) :
    openings (us ++ vs) = openings us := by
  have hnil : openings vs = [] := openings_eq_nil fun v hv => by
    rcases h v hv with h | h <;> simp [h]
  rw [openings_append us fun v hv => ?_, hnil, List.map_nil, List.append_nil]
  refine isKeyword_eq_false ?_ _
  rcases h v (List.mem_of_mem_head? hv) with h | h <;> simp [h]

/-! ### A nested query seen from outside -/

section Lift

variable {outer : Query} {g : Group} {pre rest semis body tail : List Token} {t : Token}
  {offset : Nat} {found all : List Finding}

/-- The role of a token is part of its outline, since keywords are neither strings nor quoted names.
-/
theorem role_of_outline {t t' : Token} (h : t.outline = t'.outline) : t.role = t'.role :=
  Prod.ext (kind_of_outline h) (isKeyword_of_outline h _)

theorem roles_of_outlines {us vs : List Token} (h : us.map outline = vs.map outline) :
    us.map role = vs.map role := by
  induction us generalizing vs with
  | nil => rw [List.map_eq_nil_iff.mp h.symm]
  | cons u us ih =>
    obtain ⟨v, vs, rfl, hvu, h⟩ := List.map_eq_cons_iff.mp h.symm
    rw [List.map_cons, List.map_cons, role_of_outline hvu, ih h.symm]

/-- The text of a group, tokenized again, gives tokens of the same roles. -/
theorem Token.Reread.roles {cs inner : List Char} (h : Reread cs t body tail inner offset) :
    (tokenize (String.ofList inner)).map role = body.map role := by
  have := roles_of_outlines h.outline
  rwa [List.map_map, show role ∘ Token.shift offset (t.depth + 1) = role from rfl] at this

/-- Where a parenthesis closes is a matter of roles. -/
theorem closedAt?_congr {us vs : List Token} (h : us.map role = vs.map role) (i : Nat) :
    closedAt? us i = closedAt? vs i := by
  rw [closedAt?, closedAt?, closeOf_congr]
  rw [List.map_drop, List.map_drop, kinds_of_roles h]

/-- What opens after `t` opens in its group or after it. -/
theorem openings_of_groupEnd (hsemis : ∀ s ∈ semis, s.kind = .semicolon)
    (hsplit : rest ++ semis = body ++ tail) (hend : GroupEnd t rest semis body tail) :
    openings rest =
      openings body ++ (openings (rest.drop (Group.size t rest))).map (Group.size t rest + ·) := by
  cases hend with
  | closed u more hrest hu hbalanced hsize =>
    subst hrest
    have hfirst : opensBefore u more = false := by simp [opensBefore, hu]
    rw [openings_append body (by simpa using isKeyword_eq_false (by simp [hu]) _), openings_cons,
      hfirst, hsize, List.drop_length_add_append]
    simp only [Bool.false_eq_true, if_false, List.nil_append, List.map_map, List.drop_one,
      List.tail_cons, Function.comp_def, Nat.add_assoc]
  | unclosed _ hopen hsize hkinds =>
    rw [hsize, List.drop_length, ← openings_append_end fun s hs => .inr (hsemis s hs), hsplit,
      openings_append_end hkinds]
    simp [openings]

/-- A token of the inner text stands at its place in the group. -/
theorem Token.Reread.exists_getElem? {cs inner : List Char} {i : Nat} {t' : Token}
    (h : Reread cs t body tail inner offset)
    (ht' : (tokenize (String.ofList inner))[i]? = some t') :
    ∃ t'', body[i]? = some t'' ∧
      t''.outline = (t'.shift offset (t.depth + 1)).outline := by
  have hidx := congrArg (·[i]?) h.outline
  simp only [List.getElem?_map, ht', Option.map_some] at hidx
  rcases hb : body[i]? with _ | t''
  · simp [hb] at hidx
  · exact ⟨t'', rfl, by simpa [hb, eq_comm] using hidx⟩

/-- What is open around a place in a group is the group, and what is open around it inside. -/
theorem around_group {i : Nat} {inner : List Char}
    (hT : tokenize outer.sql = pre ++ t :: (body ++ tail))
    (hpre : ClosedBefore (tokenize outer.sql) pre.length)
    (ht : opensBefore t (body ++ tail) = true) (hbody : closeOf 0 body = none)
    (hread : Reread outer.sql.toList t body tail inner offset) (hi : i < body.length) :
    around (tokenize outer.sql) (pre.length + 1 + i) =
      pre.length :: (around (tokenize (String.ofList inner)) i).map (pre.length + 1 + ·) := by
  rw [hT] at hpre ⊢
  rw [around_append hpre ht hbody hi, around_congr hread.roles]

/-- Between the parentheses of a query in a closed group there is the same as between its
parentheses in the inner text. -/
theorem between_group {i stop : Nat} {inner : List Char}
    (hT : tokenize outer.sql = pre ++ t :: (body ++ tail)) (htail : tail ≠ [])
    (hbalanced : nesting 0 body = some 0)
    (hread : Reread outer.sql.toList t body tail inner offset)
    (hopens : opensNested (tokenize (String.ofList inner)) i = true)
    (hstop : closedAt? (tokenize outer.sql) (pre.length + 1 + i) = some stop) :
    ∃ innerStop, closedAt? (tokenize (String.ofList inner)) i = some innerStop ∧
      between (tokenize outer.sql) (pre.length + 1 + i) stop =
        (between (tokenize (String.ofList inner)) i innerStop).map
          (Token.shift offset (t.depth + 1)) := by
  have hplace : tokenize outer.sql = (pre ++ [t]) ++ (body ++ tail) := by simp [hT]
  have hlen : pre.length + 1 = (pre ++ [t]).length := by simp
  rw [opensNested_congr hread.roles] at hopens
  rw [hplace, hlen, closedAt?_append _ _ hbalanced hopens, Option.map_eq_some_iff] at hstop
  obtain ⟨innerStop, hinner, rfl⟩ := hstop
  refine ⟨innerStop, by rw [closedAt?_congr hread.roles, hinner], ?_⟩
  rw [hplace, hlen, between_append _ _ _ _ (Nat.le_of_lt (lt_of_closedAt? hinner)),
    ← hread.same htail, between_map]

namespace Finding

/-- A right finding inside a group is right outside. -/
theorem Right.lift {f : Finding} {clauses : Clauses}
    (hT : tokenize outer.sql = pre ++ t :: (body ++ tail))
    (hpre : ClosedBefore (tokenize outer.sql) pre.length)
    (ht : opensBefore t (body ++ tail) = true) (hbody : closeOf 0 body = none)
    (hread : Reread outer.sql.toList t body tail g.sql offset)
    (hend : GroupEnd t rest semis body tail)
    (hopens : f.index ∈ openings (tokenize (String.ofList g.sql)))
    (hself : ⟨pre.length, g.query catalog outer, clauses⟩ ∈ all)
    (hfound : ∀ p ∈ found, p.shift (pre.length + 1) ∈ all)
    (hf : Right catalog splitOr (g.query catalog outer) found f) :
    Right catalog splitOr outer all (f.shift (pre.length + 1)) := by
  obtain ⟨hclauses, hparent, hshorter, t', ht', hstarts, htext⟩ := hf
  have hsql : (g.query catalog outer).sql = String.ofList g.sql := rfl
  rw [hsql] at hparent ht' hstarts htext
  -- the token that opens the finding, inside and outside
  obtain ⟨t'', ht'', hsame⟩ := hread.exists_getElem? ht'
  have hlt : f.index < body.length := (List.getElem?_eq_some_iff.mp ht'').1
  have haround := around_group hT hpre ht hbody hread hlt
  refine ⟨hclauses, ?_, hshorter, t'', ?_, ?_, fun stop hstop hclosed => ?_⟩
  · rw [shift, haround]
    rcases hlast : (around (tokenize (String.ofList g.sql)) f.index).getLast? with _ | j
    · rw [hlast] at hparent
      rw [List.getLast?_eq_none_iff.mp hlast]
      exact ⟨_, hself, rfl, hparent⟩
    · rw [hlast] at hparent
      obtain ⟨p, hp, hj, hparent⟩ := hparent
      rw [List.getLast?_cons, List.getLast?_map, hlast]
      exact ⟨p.shift (pre.length + 1), hfound p hp, by rw [← hj]; rfl, hparent⟩
  · show (tokenize outer.sql)[pre.length + 1 + f.index]? = some t''
    have hplace : pre ++ t :: (body ++ tail) = (pre ++ [t]) ++ (body ++ tail) := by simp
    have hlen : pre.length + 1 = (pre ++ [t]).length := by simp
    rw [hT, hplace, hlen, List.getElem?_append_right (Nat.le_add_right _ _),
      Nat.add_sub_cancel_left, List.getElem?_append_left hlt, ht'']
  · -- what begins after the parenthesis in the inner text does so in the outer text
    have hstart : t''.start = t'.start + offset := start_of_outline hsame
    rw [String.toList_ofList] at hstarts
    refine hstarts.trans (trimStart_mono ?_)
    have := hread.begins.drop (t'.start + 1)
    rwa [List.drop_drop, ← Nat.add_assoc, Nat.add_comm offset, ← hstart] at this
  · cases hend with
    | closed u more _ hu hbalanced =>
      obtain ⟨innerStop, hinnerStop, hbetween⟩ := between_group hT (List.cons_ne_nil _ _) hbalanced
        hread (List.mem_filter.mp hopens).2 hstop
      have hinner := htext innerStop hinnerStop fun j hj => by
        rw [closedAt?_congr hread.roles]
        refine isSome_closedAt? hbalanced ?_
        rw [← opensNested_congr hread.roles]
        exact (Bool.and_eq_true_iff.mp (List.mem_filter.mp hj).2).1
      have hdepth : t''.depth = t'.depth + (t.depth + 1) := congrArg (·.2.2.1) hsame
      show _ = (between (tokenize outer.sql) (pre.length + 1 + f.index) _).map (seen 0)
      rw [hbetween, map_seen_shift, hdepth, Nat.add_right_comm]
      exact map_seen_add hinner (t.depth + 1)
    | unclosed _ hopen =>
      -- the group itself is around the finding, and it is not closed
      have := hclosed pre.length (by rw [shift, haround]; exact List.mem_cons_self)
      rw [hT, closedAt?, List.drop_length_add_append] at this
      simp [hopen] at this

/-- The query of a group is right itself, and nothing is around it. -/
theorem Right.ofGroup (hT : tokenize outer.sql = pre ++ t :: (body ++ tail))
    (hpre : ClosedBefore (tokenize outer.sql) pre.length) (hg : g ∈ outer.groups)
    (hread : Reread outer.sql.toList t body tail g.sql offset)
    (hend : GroupEnd t rest semis body tail) :
    Right catalog splitOr outer all ⟨pre.length, g.query catalog outer,
      ((g.query catalog outer).parse catalog splitOr).clauses⟩ := by
  have haround : around (tokenize outer.sql) pre.length = [] := hpre.filter_range (Nat.le_refl _)
  refine ⟨rfl, ?_, ⟨outer, rfl, Query.length_sql_lt_of_mem_groups catalog hg⟩, t, ?_, ?_,
    fun stop hstop _ => ?_⟩
  · rw [haround]
    rfl
  · rw [hT, List.getElem?_append_right (Nat.le_refl _), Nat.sub_self, List.getElem?_cons_zero]
  · show (String.ofList g.sql).toList <+: _
    rw [String.toList_ofList]
    exact hread.follows
  · cases hend with
    | closed u more _ hu hbalanced =>
      rw [hT, closedAt?_self hbalanced hu, Option.some.injEq] at hstop
      show (tokenize (String.ofList g.sql)).map (seen (t.depth + 1)) = _
      rw [hT, ← hstop, between_self, ← hread.same (List.cons_ne_nil _ _), map_seen_shift,
        Nat.zero_add]
    | unclosed _ hopen =>
      rw [hT, closedAt?, List.drop_length_add_append] at hstop
      simp [hopen] at hstop

/-- More queries around do no harm to one that was found right. -/
theorem Right.mono {f : Finding} (h : Right catalog splitOr outer found f)
    (hsub : found ⊆ all) : Right catalog splitOr outer all f := by
  obtain ⟨hclauses, hparent, hshorter, htext⟩ := h
  refine ⟨hclauses, ?_, hshorter, htext⟩
  split
  · next hlast => rwa [hlast] at hparent
  · next j hlast =>
    rw [hlast] at hparent
    obtain ⟨p, hp, hparent⟩ := hparent
    exact ⟨p, hsub hp, hparent⟩

end Finding

end Lift

/-! ### The queries of all groups -/

/-- All that opens in the text of a query is found, and every finding is right. -/
def Query.AllFound (catalog : Catalog) (splitOr : Bool) (query : Query) : Prop :=
  ∃ found : List Finding,
    query.records catalog splitOr =
      (query, (query.parse catalog splitOr).clauses) :: found.map Finding.record ∧
    found.map Finding.index = openings (tokenize query.sql) ∧
    ∀ f ∈ found, f.Right catalog splitOr query found

/-- The records of the query of a group. -/
theorem exists_findings_of_group {outer : Query} {g : Group}
    {pre rest semis body tail : List Token} {t : Token} {offset : Nat}
    (hT : tokenize outer.sql = pre ++ t :: (body ++ tail))
    (hpre : ClosedBefore (tokenize outer.sql) pre.length) (hg : g ∈ outer.groups)
    (ht : opensBefore t (body ++ tail) = true) (hbody : closeOf 0 body = none)
    (hread : Reread outer.sql.toList t body tail g.sql offset)
    (hend : GroupEnd t rest semis body tail)
    (hinner : (g.query catalog outer).AllFound catalog splitOr) :
    ∃ found : List Finding,
      (g.query catalog outer).records catalog splitOr = found.map Finding.record ∧
      found.map Finding.index =
        pre.length :: (openings body).map (pre.length + 1 + ·) ∧
      ∀ f ∈ found, f.Right catalog splitOr outer found := by
  obtain ⟨inner, hrecords, hindex, hright⟩ := hinner
  refine ⟨⟨pre.length, g.query catalog outer,
    ((g.query catalog outer).parse catalog splitOr).clauses⟩ ::
      inner.map (Finding.shift (pre.length + 1)), ?_, ?_, fun f hf => ?_⟩
  · rw [hrecords, List.map_cons, List.map_map]
    rfl
  · have hsame : openings (tokenize (g.query catalog outer).sql) = openings body :=
      openings_congr hread.roles
    rw [← hsame, ← hindex, List.map_cons, List.map_map, List.map_map]
    rfl
  · rcases List.mem_cons.mp hf with rfl | hf
    · exact .ofGroup hT hpre hg hread hend
    · obtain ⟨f, hf', rfl⟩ := List.mem_map.mp hf
      refine .lift hT hpre ht hbody hread hend ?_ List.mem_cons_self (fun p hp => ?_) (hright f hf')
      · exact hindex ▸ List.mem_map_of_mem hf'
      · exact List.mem_cons_of_mem _ (List.mem_map_of_mem hp)

section Among

variable {outer : Query} {pre suf rest semis body tail : List Token} {t : Token}

variable (catalog splitOr) in
/-- All that opens among the tokens `suf`, which stand after `pre`, is found. -/
def FoundAmong (outer : Query) (pre suf : List Token) : Prop :=
  ∃ found : List Finding,
    ((Group.collect outer.sql.toList pre.reverse 0 suf).flatMap fun g =>
      (g.query catalog outer).records catalog splitOr) = found.map Finding.record ∧
    found.map Finding.index = (openings suf).map (pre.length + ·) ∧
    ∀ f ∈ found, f.Right catalog splitOr outer found

namespace FoundAmong

theorem nil (outer : Query) (pre : List Token) : FoundAmong catalog splitOr outer pre [] :=
  ⟨[], rfl, rfl, by simp⟩

/-- A token that opens nothing. -/
theorem skip (ht : opensBefore t rest = false)
    (h : FoundAmong catalog splitOr outer (pre ++ [t]) rest) :
    FoundAmong catalog splitOr outer pre (t :: rest) := by
  obtain ⟨found, hrecords, hindex, hright⟩ := h
  have hreverse : (pre ++ [t]).reverse = t :: pre.reverse := by simp
  have hno : ¬ opensBefore t rest = true := Bool.eq_false_iff.mp ht
  rw [hreverse] at hrecords
  refine ⟨found, ?_, ?_, hright⟩
  · rw [collect_cons, if_neg hno, hrecords]
  · rw [hindex, openings_cons, if_neg hno, List.nil_append, List.map_map]
    simp only [List.length_append, List.length_singleton, Function.comp_def, Nat.add_assoc]

/-- A token that opens a group, of which everything inside is found already. -/
theorem group {inner : List Finding} (ht : opensBefore t rest = true)
    (hinside : openings rest =
      openings body ++ (openings (rest.drop (Group.size t rest))).map (Group.size t rest + ·))
    (hsize : Group.size t rest ≤ rest.length)
    (hrecords : ((Group.openedBy outer.sql.toList pre.reverse t rest).query catalog outer).records
      catalog splitOr = inner.map Finding.record)
    (hindex : inner.map Finding.index = pre.length :: (openings body).map (pre.length + 1 + ·))
    (hright : ∀ f ∈ inner, f.Right catalog splitOr outer inner)
    (h : FoundAmong catalog splitOr outer (pre ++ t :: rest.take (Group.size t rest))
      (rest.drop (Group.size t rest))) :
    FoundAmong catalog splitOr outer pre (t :: rest) := by
  obtain ⟨after, hafter, hafterIndex, hafterRight⟩ := h
  have hreverse : (pre ++ t :: rest.take (Group.size t rest)).reverse =
      (rest.take (Group.size t rest)).reverse ++ t :: pre.reverse := by simp
  have hlength : (pre ++ t :: rest.take (Group.size t rest)).length =
      pre.length + 1 + Group.size t rest := by
    rw [List.length_append, List.length_cons, List.length_take_of_le hsize]
    omega
  rw [hreverse] at hafter
  rw [hlength] at hafterIndex
  refine ⟨inner ++ after, ?_, ?_, fun f hf => ?_⟩
  · rw [collect_cons, if_pos ht, List.flatMap_cons, hrecords, hafter, List.map_append]
  · rw [openings_cons, if_pos ht, hinside, List.map_append, hindex, hafterIndex]
    simp only [List.nil_append, List.map_cons, List.map_append, List.map_map, Nat.add_zero,
      List.cons_append, Function.comp_def, Nat.add_assoc]
  · rcases List.mem_append.mp hf with hf | hf
    · exact (hright f hf).mono (List.subset_append_left _ _)
    · exact (hafterRight f hf).mono (List.subset_append_right _ _)

end FoundAmong

/-- What is closed before a group is closed after it as well, unless the group is not closed and
nothing comes after it. -/
theorem closedBefore_of_groupEnd (hT : tokenize outer.sql = pre ++ t :: (body ++ tail))
    (hpre : ClosedBefore (tokenize outer.sql) pre.length)
    (hend : GroupEnd t rest semis body tail) (hmore : rest.drop (Group.size t rest) ≠ []) :
    ClosedBefore (tokenize outer.sql) (pre ++ t :: rest.take (Group.size t rest)).length := by
  cases hend with
  | closed u more hrest hu hbalanced hsize =>
    have htake : rest.take (body.length + 1) = body ++ [u] := by
      rw [hrest, List.take_length_add_append, List.take_succ_cons, List.take_zero]
    have hlength : (pre ++ t :: (body ++ [u])).length = pre.length + 1 + (body.length + 1) := by
      simp [Nat.add_assoc, Nat.add_comm 1]
    rw [hsize, htake, hlength]
    rw [hT] at hpre ⊢
    exact hpre.group hbalanced hu
  | unclosed _ _ hsize => exact absurd (by rw [hsize, List.drop_length]) hmore

theorem size_le_of_groupEnd (hend : GroupEnd t rest semis body tail) :
    Group.size t rest ≤ rest.length := by
  cases hend with
  | closed u more hrest hu hbalanced hsize =>
    rw [hsize, hrest, List.length_append, List.length_cons]
    omega
  | unclosed _ _ hsize => exact Nat.le_of_eq hsize

/-- **Along the tokens** of a text everything is found, when everything is found in its groups. -/
theorem foundAmong (hsemis : ∀ s ∈ semis, s.kind = .semicolon)
    (hT : tokenize outer.sql = statementTokens outer.sql ++ semis)
    (ih : ∀ g ∈ outer.groups, (g.query catalog outer).AllFound catalog splitOr)
    (pre suf : List Token) (hS : statementTokens outer.sql = pre ++ suf)
    (hpre : suf ≠ [] → ClosedBefore (tokenize outer.sql) pre.length)
    (hgroups : ∀ g ∈ Group.collect outer.sql.toList pre.reverse 0 suf, g ∈ outer.groups) :
    FoundAmong catalog splitOr outer pre suf := by
  induction hlength : suf.length using Nat.strongRecOn generalizing pre suf with
  | ind n next =>
  rcases suf with _ | ⟨t, rest⟩
  · exact .nil outer pre
  have hpre := hpre (List.cons_ne_nil t rest)
  have hT' : tokenize outer.sql = pre ++ t :: (rest ++ semis) := by rw [hT, hS]; simp
  have hbefore : opensBefore t (rest ++ semis) = opensBefore t rest :=
    opensBefore_append _ _ fun v hv =>
      isKeyword_eq_false (by simp [hsemis v (List.mem_of_mem_head? hv)]) _
  rw [collect_cons] at hgroups
  by_cases ht : opensBefore t rest = true
  · rw [if_pos ht] at hgroups
    obtain ⟨hg, hgroups⟩ := List.forall_mem_cons.mp hgroups
    obtain ⟨body, tail, offset, hsplit, hbody, hread, hend⟩ :=
      exists_inside hT' hsemis ht pre.reverse
    have hinside := openings_of_groupEnd hsemis hsplit hend
    have hsize := size_le_of_groupEnd hend
    rw [hsplit] at hT' hbefore
    obtain ⟨inner, hrecords, hindex, hright⟩ :=
      exists_findings_of_group hT' hpre hg (hbefore.trans ht) hbody hread hend (ih _ hg)
    refine .group ht hinside hsize hrecords hindex hright ?_
    -- the tokens after the group are fewer, and everything before them is closed
    refine next _ ?_ _ _ ?_ (closedBefore_of_groupEnd hT' hpre hend) ?_ rfl
    · rw [← hlength, List.length_drop, List.length_cons]
      omega
    · rw [hS, List.append_assoc, List.cons_append, List.take_append_drop]
    · rwa [List.reverse_append, List.reverse_cons, List.append_assoc, List.singleton_append]
  · rw [if_neg ht] at hgroups
    refine .skip (Bool.eq_false_iff.mpr ht) ?_
    have hshorter : rest.length < n := by rw [← hlength]; exact Nat.lt_succ_self _
    refine next rest.length hshorter _ _ ?_ (fun _ => ?_) ?_ rfl
    · rw [hS, List.append_assoc, List.singleton_append]
    · rw [List.length_append]
      refine hpre.succ ?_
      rw [hT', ← Nat.add_zero pre.length, opensNested_append_left, opensNested_zero, hbefore]
      exact Bool.eq_false_iff.mpr ht
    · rwa [List.reverse_append, List.reverse_singleton, List.singleton_append]

end Among

/-- **All nested queries are found.** For every query text, balanced or not, the records of a query
are the query itself and then exactly one for each place where a nested query opens, in the order
of these places. Each has the nested query that opens innermost around it as its parent, or the
query itself, and a shorter text than that. If its parenthesis and all those around it are closed,
its text has the tokens in between, with all depths lowered by the same number. -/
theorem nested_queries_found (catalog : Catalog) (splitOr : Bool) (query : Query) :
    ∃ found : List Finding,
      query.records catalog splitOr =
        (query, (query.parse catalog splitOr).clauses) :: found.map Finding.record ∧
      found.map Finding.index = openings (tokenize query.sql) ∧
      ∀ f ∈ found, f.Right catalog splitOr query found := by
  induction query using Query.nestedInduction catalog with
  | step query ih =>
    obtain ⟨semis, hsemis, hT⟩ := statementTokens_append query.sql
    obtain ⟨found, hrecords, hindex, hright⟩ :=
      foundAmong hsemis hT ih [] (statementTokens query.sql) rfl (fun _ j hj => by simp at hj)
        fun g hg => hg
    refine ⟨found, ?_, ?_, hright⟩
    · rw [Query.records_eq]
      exact congrArg _ hrecords
    · rw [hindex, hT, openings_append_end fun s hs => .inr (hsemis s hs)]
      simp

end IndexAdvice
