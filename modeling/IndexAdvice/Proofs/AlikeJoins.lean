import IndexAdvice.Proofs.AlikeSpans

/-!
# Alike joins

What a join says is read around its condition, and the condition is what follows the first `ON` or
`USING` after the joined table, at any depth. So alike joins say the same only if the tokens that
tell where their conditions stand, their `marks`, lie outside the nested queries that differ
(`JoinTarget.matches_ofSpan`). Conditions then bring in the same columns
(`JoinTarget.matches_resolve`).
-/

namespace IndexAdvice

open Token

variable {R : Nat → Nat → Prop} {H H' : Token → Prop} {s : Likeness}
  {ts ts' part part' : List Token} {scope scope' : Scope}

namespace JoinTarget

/-! ### What a join is read from -/

/-- The tokens after the joined table of a join. -/
def afterTable (tokens : List Token) : List Token :=
  (readTable (skipKeyword "LATERAL"
    (tokens.drop ((tokens.takeWhile fun t => !t.isKeyword ["JOIN"]).length + 1)))).2.2

/-- The tokens that tell where the condition stands among the tokens after a table: `ON`, or `USING`
and the first name after it. -/
def conditionMarks (tokens : List Token) : List Token :=
  match tokens.dropWhile fun t => !t.isKeyword ["ON", "USING"] with
  | [] => []
  | t :: rest => t :: if t.isKeyword ["ON"] then [] else (rest.find? Token.isIdentifier).toList

/-- The tokens that tell where the condition of a join stands. -/
def marks (tokens : List Token) : List Token :=
  conditionMarks (afterTable tokens)

/-- Joins of two texts that say the same, except for the texts of their conditions. -/
structure Matches (R : Nat → Nat → Prop) (H H' : Token → Prop) (target target' : JoinTarget) :
    Prop where
  kind : target.kind = target'.kind
  table : target.table = target'.table
  aliasName : target.aliasName = target'.aliasName
  condition : Alike R H H' .mixed target.condition target'.condition
  column : target.columns.head? = target'.columns.head?
  position : R target.position target'.position

/-- Before its table a join has the same words in alike tokens. -/
theorem exists_modifiers (h : Alike R H H' s ts ts') (hjoin : Span.startsJoin ts = true) :
    ∃ front front' j j' rest rest', ts = front ++ j :: rest ∧ ts' = front' ++ j' :: rest' ∧
      List.Forall₂ (Twin R) front front' ∧ Twin R j j' ∧ j.isKeyword ["JOIN"] = true ∧
      (∀ t ∈ front, t.isKeyword ["JOIN"] = false) ∧
      (∀ t ∈ front', t.isKeyword ["JOIN"] = false) ∧ Alike R H H' s rest rest' := by
  induction ts generalizing ts' with
  | nil => exact absurd hjoin (by decide)
  | cons t ts ih =>
    obtain ⟨t', ts', rfl, htwin, hrest⟩ := h.exists_cons
    rcases (Span.startsJoin_iff _ _).mp hjoin with hword | ⟨-, hmodifier, hjoin⟩
    · exact ⟨[], [], t, t', ts, ts', rfl, rfl, .nil, htwin, hword, by simp, by simp,
        hrest (kind_ne_lparen_of_isKeyword hword)⟩
    · obtain ⟨front, front', j, j', rest, rest', rfl, rfl, hfront, hj, hword, hnone, hnone',
        hrest⟩ := ih (hrest (kind_ne_lparen_of_isKeyword hmodifier)) hjoin
      have ht := Span.not_isKeyword_join hmodifier
      exact ⟨t :: front, t' :: front', j, j', rest, rest', rfl, rfl, .cons htwin hfront, hj, hword,
        List.forall_mem_cons.mpr ⟨ht, hnone⟩,
        List.forall_mem_cons.mpr ⟨htwin.isKeyword _ ▸ ht, hnone'⟩, hrest⟩

/-- Alike tokens give the same table and alias, and what is left over is alike again. -/
theorem readTable_of_alike (h : Alike R H H' s ts ts') :
    (readTable ts).1 = (readTable ts').1 ∧ (readTable ts).2.1 = (readTable ts').2.1 ∧
      Alike R H H' .mixed (readTable ts).2.2 (readTable ts').2.2 := by
  rcases h.nil_or_cons with ⟨rfl, rfl⟩ | ⟨t, us, t', us', rfl, rfl, htwin, -⟩
  · exact ⟨rfl, rfl, .nil⟩
  · simp only [readTable, ← htwin.kind]
    by_cases hlparen : t.kind = .lparen
    · have hafter := h.afterGroup hlparen
      simp only [hlparen, beq_self_eq_true, if_true, aliasAt?_of_alike hafter]
      exact ⟨trivial, trivial, hafter⟩
    · have hif : (t.kind == .lparen) = false := by simpa using hlparen
      rcases ColumnRef.read?_of_alike h with ⟨hread, hread'⟩ |
        ⟨ref, after, after', hread, hread', hafter⟩
      · simp only [hif, Bool.false_eq_true, if_false, hread, hread']
        exact ⟨trivial, trivial, h.mixed⟩
      · simp only [hif, Bool.false_eq_true, if_false, hread, hread', aliasAt?_of_alike hafter]
        exact ⟨trivial, trivial, hafter.mixed⟩

theorem head?_dropWhile_not (p : Token → Bool) (ts : List Token) :
    (ts.dropWhile fun t => !p t).head? = ts.find? p := by
  induction ts with
  | nil => rfl
  | cons t ts ih =>
    rw [List.dropWhile_cons, List.find?_cons]
    cases p t <;> simp [ih]

/-- The first name is the same if it lies outside the nested queries that differ. -/
theorem find?_isIdentifier_of_alike (h : Alike R H H' s ts ts')
    (hfound : ∀ t ∈ ts.find? Token.isIdentifier, ¬ H t)
    (hfound' : ∀ t ∈ ts'.find? Token.isIdentifier, ¬ H' t) :
    (ts.find? Token.isIdentifier).map Token.name =
      (ts'.find? Token.isIdentifier).map Token.name := by
  simp only [← head?_dropWhile_not] at hfound hfound' ⊢
  have hhead := (h.dropWhile (fun _ _ htwin => by rw [htwin.isIdentifier]) hfound hfound').head?
  revert hhead
  generalize (ts.dropWhile _).head? = o, (ts'.dropWhile _).head? = o'
  rintro (htwin | _)
  · exact congrArg some htwin.name
  · rfl

/-- A condition is found at the same place if its marks lie outside the nested queries that
differ. -/
theorem readCondition_of_alike (h : Alike R H H' s ts ts') (hmarks : ∀ t ∈ conditionMarks ts, ¬ H t)
    (hmarks' : ∀ t ∈ conditionMarks ts', ¬ H' t) :
    Alike R H H' .mixed (readCondition ts).1 (readCondition ts').1 ∧
      (readCondition ts).2.head? = (readCondition ts').2.head? := by
  -- the search for ON or USING stops at a mark, which no hidden body holds
  have hhead (us : List Token) (t : Token)
      (ht : t ∈ (us.dropWhile fun t => !t.isKeyword ["ON", "USING"]).head?) :
      t ∈ conditionMarks us := by
    rw [conditionMarks]
    cases hus : us.dropWhile fun t => !t.isKeyword ["ON", "USING"] with
    | nil => simp [hus] at ht
    | cons u us' =>
      obtain rfl : u = t := by simpa [hus] using ht
      exact List.mem_cons_self
  have hdrop := h.dropWhile (fun _ _ htwin => by rw [htwin.isKeyword])
    (fun t ht => hmarks t (hhead ts t ht)) (fun t ht => hmarks' t (hhead ts' t ht))
  have hmark (t : Token)
      (ht : (ts.dropWhile fun t => !t.isKeyword ["ON", "USING"]).head? = some t) :
      t.isKeyword ["ON", "USING"] = true := by
    rw [head?_dropWhile_not] at ht
    simpa using List.find?_some ht
  rw [conditionMarks] at hmarks hmarks'
  rw [readCondition, readCondition]
  generalize (ts.dropWhile fun t => !t.isKeyword ["ON", "USING"]) = us,
    (ts'.dropWhile fun t => !t.isKeyword ["ON", "USING"]) = us' at *
  rcases hdrop.nil_or_cons with ⟨rfl, rfl⟩ | ⟨u, us, u', us', rfl, rfl, htwin, hrest⟩
  · exact ⟨.nil, rfl⟩
  · have hrest := hrest (kind_ne_lparen_of_isKeyword (hmark u rfl))
    simp only [← htwin.isKeyword] at hmarks hmarks' ⊢
    by_cases hon : u.isKeyword ["ON"] = true
    · rw [if_pos hon, if_pos hon]
      exact ⟨hrest.mixed, rfl⟩
    · simp only [if_neg hon] at hmarks hmarks'
      rw [if_neg hon, if_neg hon]
      refine ⟨.nil, ?_⟩
      rw [List.head?_map, List.head?_map, List.head?_filter, List.head?_filter]
      refine find?_isIdentifier_of_alike hrest (fun t ht => hmarks t ?_) fun t ht => hmarks' t ?_
      · exact List.mem_cons_of_mem _ (Option.mem_toList.mpr ht)
      · exact List.mem_cons_of_mem _ (Option.mem_toList.mpr ht)

/-- What stands before the first `JOIN`. -/
theorem takeWhile_join {front : List Token} {j : Token}
    (hfront : ∀ t ∈ front, t.isKeyword ["JOIN"] = false) (hj : j.isKeyword ["JOIN"] = true)
    (rest : List Token) :
    (front ++ j :: rest).takeWhile (fun t => !t.isKeyword ["JOIN"]) = front := by
  rw [List.takeWhile_append_of_pos (by simpa using hfront),
    List.takeWhile_cons_of_neg (by simp [hj]), List.append_nil]

theorem drop_join (front : List Token) (j : Token) (rest : List Token) :
    (front ++ j :: rest).drop (front.length + 1) = rest := by
  simp [List.drop_append]

/-- **Joins.** Alike joins say the same if the marks of both lie outside the nested queries that
differ. -/
theorem matches_ofSpan (h : Alike R H H' s ts ts') (hjoin : Span.startsJoin ts = true)
    (hmarks : ∀ t ∈ marks ts, ¬ H t) (hmarks' : ∀ t ∈ marks ts', ¬ H' t) :
    Matches R H H' (ofSpan ts) (ofSpan ts') := by
  have hposition : R ((ts.head?.map Token.start).getD 0) ((ts'.head?.map Token.start).getD 0) := by
    cases ts with
    | nil => exact absurd hjoin (by decide)
    | cons t ts =>
      obtain ⟨t', ts', rfl, htwin, -⟩ := h.exists_cons
      exact htwin.start
  obtain ⟨front, front', j, j', rest, rest', rfl, rfl, hfront, hj, hword, hnone, hnone', hrest⟩ :=
    exists_modifiers h hjoin
  have hmods := takeWhile_join hnone hword rest
  have hmods' := takeWhile_join hnone' (hj.isKeyword _ ▸ hword) rest'
  have hupper : front.map Token.upper = front'.map Token.upper :=
    map_eq_of_forall₂ hfront fun _ _ htwin => htwin.upper
  obtain ⟨htable, halias, hafter⟩ :=
    readTable_of_alike (skipKeyword_of_alike "LATERAL" hrest)
  simp only [marks, afterTable, hmods, hmods', drop_join] at hmarks hmarks'
  obtain ⟨hcondition, hcolumn⟩ := readCondition_of_alike hafter hmarks hmarks'
  constructor <;> simp only [ofSpan, hmods, hmods', drop_join, hupper, htable, halias]
  · exact hcondition
  · exact hcolumn
  · exact hposition

/-! ### Join conditions -/

theorem equality?_of_alike (h : Alike R H H' s part part') : equality? part = equality? part' := by
  rw [equality?, equality?]
  rcases ColumnRef.read?_of_alike h with ⟨hread, hread'⟩ |
    ⟨left, after, after', hread, hread', hafter⟩
  · rw [hread, hread']
  · rw [hread, hread']
    rcases hafter.nil_or_cons with ⟨rfl, rfl⟩ | ⟨op, rest, op', rest', rfl, rfl, hop, hrest⟩
    · rfl
    · simp only [← hop.text]
      by_cases hequals : ["=", "=="].contains op.text = true
      · rw [if_pos hequals, if_pos hequals]
        -- no group starts with an equals sign
        have hrest : ∃ s, Alike R H H' s rest rest' := by
          by_cases hlparen : op.kind = .lparen
          · rcases hafter.of_lparen hlparen with hplain | hopened
            · exact ⟨.plain, .of_forall₂ (List.forall₂_cons.mp hplain.forall₂).2⟩
            · cases hopened with
              | intro hs around => simp [around.text] at hequals
          · exact ⟨s, hrest hlparen⟩
        obtain ⟨s, hrest⟩ := hrest
        rw [ColumnRef.whole?_of_alike hrest]
      · rw [if_neg hequals, if_neg hequals]

/-- Whether an equality gives a key depends on what the scope resolves its two sides to. -/
theorem key?_of_matches (hscope : Scope.Matches R H H' scope scope') (joined : String)
    (own other : ColumnRef) : key? scope joined own other = key? scope' joined own other := by
  simp only [key?, hscope.ownNames, hscope.aliases, hscope.resolve]

end JoinTarget

/-- Joins of two texts that bring in the same columns, at places that `R` relates. -/
structure Join.Matches (R : Nat → Nat → Prop) (j j' : Join) : Prop where
  localColumn : j.localColumn = j'.localColumn
  remoteTable : j.remoteTable = j'.remoteTable
  remoteColumn : j.remoteColumn = j'.remoteColumn
  kind : j.kind = j'.kind
  position : ∃ a a' : Nat, R a a' ∧ j.position = a ∧ j'.position = a'

namespace JoinTarget

variable {target target' : JoinTarget}

/-- Conjuncts of a join condition give matching joins. -/
theorem matches_ofConjunct? (hscope : Scope.Matches R H H' scope scope')
    (htarget : Matches R H H' target target') (h : Alike R H H' s part part') (hne : part ≠ []) :
    Option.Rel (Join.Matches R) (ofConjunct? scope target part)
      (ofConjunct? scope' target' part') := by
  rw [ofConjunct?, ofConjunct?, ← equality?_of_alike h]
  cases equality? part with
  | none => exact .none
  | some sides =>
    simp only [key?_of_matches hscope, htarget.table]
    cases (key? scope' target'.table sides.1 sides.2).or
        (key? scope' target'.table sides.2 sides.1) with
    | none => exact .none
    | some key =>
      obtain ⟨t, ts, rfl⟩ := List.exists_cons_of_ne_nil hne
      obtain ⟨t', ts', rfl, htwin, -⟩ := h.exists_cons
      exact .some ⟨rfl, rfl, rfl, htarget.kind, _, _, htwin.start, rfl, rfl⟩

/-- **Joins** that say the same are resolved in the same way. -/
theorem matches_resolve (hscope : Scope.Matches R H H' scope scope')
    (htarget : Matches R H H' target target') :
    Join.Matches R (resolve scope target) (resolve scope' target') := by
  have hcolumn := htarget.column
  rw [resolve, resolve]
  -- USING gives the column itself, ON the first conjunct that has a key
  cases hcolumns : target.columns with
  | cons column columns =>
    rw [hcolumns, List.head?_cons] at hcolumn
    cases hcolumns' : target'.columns with
    | nil => simp [hcolumns'] at hcolumn
    | cons column' columns' =>
      obtain rfl : column = column' := by simpa [hcolumns'] using hcolumn
      exact ⟨(hscope.resolve ⟨none, column⟩ :), htarget.table, rfl, htarget.kind, _, _,
        htarget.position, rfl, rfl⟩
  | nil =>
    rw [hcolumns, List.head?_nil, eq_comm, List.head?_eq_none_iff] at hcolumn
    have hfound : Option.Rel (Join.Matches R)
        ((conjuncts target.condition).findSome? (ofConjunct? scope target))
        ((conjuncts target'.condition).findSome? (ofConjunct? scope' target')) :=
      findSome?_rel htarget.condition.conjuncts fun part hpart part' halike =>
        matches_ofConjunct? hscope htarget halike (ne_nil_of_mem_conjuncts hpart)
    rw [hcolumn]
    revert hfound
    generalize (conjuncts target.condition).findSome? (ofConjunct? scope target) = o,
      (conjuncts target'.condition).findSome? (ofConjunct? scope' target') = o'
    rintro (hjoin | _)
    · exact hjoin
    · exact ⟨rfl, htarget.table, rfl, htarget.kind, _, _, htarget.position, rfl, rfl⟩

end JoinTarget

end IndexAdvice
