import IndexAdvice.Index.Advice

/-!
# Where advice comes from

The analysis folds over tables, queries and candidates. `exists_of_mem_foldl` is the one argument
about such folds that is needed: whatever is in the outcome was there at the start or was added by
one of the steps. Applied three times it gives `madeFor_of_mem_recommendations`: a recommendation is
made for one candidate of one of the records, whose key is not empty and whose query has known
columns.
-/

namespace IndexAdvice

/-- What a fold puts out was there before or comes from one of its steps. -/
theorem exists_of_mem_foldl {σ α β : Type} {f : σ → α → σ} {o : σ → List β} {P : α → β → Prop}
    (step : ∀ s a x, x ∈ o (f s a) → x ∈ o s ∨ P a x) {as : List α} {s : σ} {x : β}
    (h : x ∈ o (as.foldl f s)) : x ∈ o s ∨ ∃ a ∈ as, P a x := by
  induction as generalizing s with
  | nil => exact .inl h
  | cons a as ih =>
    rcases ih h with h | ⟨b, hb, hx⟩
    · rcases step s a x h with h | hx
      · exact .inl h
      · exact .inr ⟨a, List.mem_cons_self, hx⟩
    · exact .inr ⟨b, List.mem_cons_of_mem a hb, hx⟩

/-! ### Groups -/

section Grouping

variable {α : Type}

/-- The items of groups, each with the key it is filed under. -/
def filed (groups : List (String × List α)) : List (String × α) :=
  groups.flatMap fun g => g.2.map (g.1, ·)

theorem mem_filed {groups : List (String × List α)} {x : String × α} :
    x ∈ filed groups ↔ ∃ g ∈ groups, g.1 = x.1 ∧ x.2 ∈ g.2 := by
  obtain ⟨key, item⟩ := x
  simp only [filed, List.mem_flatMap, List.mem_map, Prod.mk.injEq]
  constructor
  · rintro ⟨g, hg, y, hy, rfl, rfl⟩
    exact ⟨g, hg, rfl, hy⟩
  · rintro ⟨g, hg, rfl, hy⟩
    exact ⟨g, hg, item, hy, rfl, rfl⟩

private theorem mem_filed_addToGroup {groups : List (String × List α)} {key : String} {item : α}
    {x : String × α} (h : x ∈ filed (addToGroup groups key item)) :
    x ∈ filed groups ∨ x = (key, item) := by
  obtain ⟨g, hg, hkey, hx⟩ := mem_filed.mp h
  simp only [addToGroup] at hg
  split at hg
  · obtain ⟨g', hg', rfl⟩ := List.mem_map.mp hg
    split at hkey
    · rename_i heq
      rw [if_pos heq, List.mem_append, List.mem_singleton] at hx
      rcases hx with hx | hx
      · exact .inl (mem_filed.mpr ⟨g', hg', hkey, hx⟩)
      · exact .inr (Prod.ext (hkey ▸ eq_of_beq heq) hx)
    · rename_i heq
      rw [if_neg heq] at hx
      exact .inl (mem_filed.mpr ⟨g', hg', hkey, hx⟩)
  · rcases List.mem_append.mp hg with hg | hg
    · exact .inl (mem_filed.mpr ⟨g, hg, hkey, hx⟩)
    · obtain rfl := List.mem_singleton.mp hg
      exact .inr (Prod.ext hkey.symm (List.mem_singleton.mp hx))

/-- An item of a group was filed under the key of the group. -/
theorem mem_of_mem_groupByFirst {items : List (String × α)} {g : String × List α}
    (hg : g ∈ groupByFirst items) {x : α} (hx : x ∈ g.2) : (g.1, x) ∈ items := by
  have step : ∀ (groups : List (String × List α)) (item y : String × α),
      y ∈ filed (addToGroup groups item.1 item.2) → y ∈ filed groups ∨ y = item :=
    fun _ _ _ h => mem_filed_addToGroup h
  have hmem : (g.1, x) ∈ filed (groupByFirst items) := mem_filed.mpr ⟨g, hg, rfl, hx⟩
  rcases exists_of_mem_foldl step hmem with h | ⟨item, hitem, heq⟩
  · simp [filed] at h
  · exact heq ▸ hitem

end Grouping

/-! ### Recommendations -/

namespace Advice

variable {target : Target} {table : String}

@[simp]
theorem recommendations_noteAll (advice : Advice) (messages : List String) :
    (advice.noteAll messages).recommendations = advice.recommendations := by
  induction messages generalizing advice with
  | nil => rfl
  | cons m ms ih => exact ih (advice.note m)

/-- What a candidate adds to the advice is its own recommendation, and only if it has a key. -/
theorem exists_of_mem_addCandidate {query : Query} {advice : Advice} {c : Candidate}
    {r : Recommendation} (h : r ∈ (addCandidate target table query advice c).recommendations) :
    r ∈ advice.recommendations ∨ c.key ≠ [] ∧ r = recommend target table query c := by
  simp only [addCandidate] at h
  split at h
  · exact .inl h
  · rename_i hkey
    split at h
    · exact .inl h
    · rw [recommendations_noteAll, List.mem_append, List.mem_singleton] at h
      exact h.imp_right fun h => ⟨by simpa using hkey, h⟩

/-- A recommendation made for a candidate of a record, whose key is not empty and whose query has
known columns. -/
def MadeFor (target : Target) (table : String) (record : Query × Clauses) (r : Recommendation) :
    Prop :=
  record.1.fields ≠ [] ∧ ∃ c ∈ Candidate.ofClauses target.capabilities record.2,
    c.key ≠ [] ∧ r = recommend target table record.1 c

/-- Every recommendation a query adds is made for that query. -/
theorem madeFor_of_mem_addQuery {advice : Advice} {record : Query × Clauses} {r : Recommendation}
    (h : r ∈ (addQuery target table advice record).recommendations) :
    r ∈ advice.recommendations ∨ MadeFor target table record r := by
  simp only [addQuery] at h
  split at h
  · exact .inl h
  · rename_i hfields
    have step : ∀ (a : Advice) (c : Candidate) (r : Recommendation),
        r ∈ (addCandidate target table record.1 a c).recommendations →
          r ∈ a.recommendations ∨ c.key ≠ [] ∧ r = recommend target table record.1 c :=
      fun _ _ _ h => exists_of_mem_addCandidate h
    rcases exists_of_mem_foldl step h with h | h
    · exact .inl (recommendations_noteAll _ _ ▸ h)
    · exact .inr ⟨by simpa using hfields, h⟩

/-- The queries of a table add recommendations made for one of them each. -/
theorem madeFor_of_mem_addGroup {advice : Advice} {records : List (Query × Clauses)}
    {r : Recommendation} (h : r ∈ (records.foldl (addQuery target table) advice).recommendations) :
    r ∈ advice.recommendations ∨ ∃ record ∈ records, MadeFor target table record r := by
  have step : ∀ (a : Advice) (record : Query × Clauses) (r : Recommendation),
      r ∈ (addQuery target table a record).recommendations →
        r ∈ a.recommendations ∨ MadeFor target table record r :=
    fun _ _ _ h => madeFor_of_mem_addQuery h
  exact exists_of_mem_foldl step h

/-- **Every recommendation is made for a candidate of one of the records.** -/
theorem madeFor_of_mem_recommendations {records : List (Query × Clauses)} {r : Recommendation}
    (h : r ∈ (ofRecords target records).recommendations) :
    ∃ table, ∃ record ∈ records, MadeFor target table record r := by
  have step : ∀ (a : Advice) (group : String × List (Query × Clauses)) (r : Recommendation),
      r ∈ (group.2.foldl (addQuery target group.1) a).recommendations →
        r ∈ a.recommendations ∨ ∃ record ∈ group.2, MadeFor target group.1 record r :=
    fun _ _ _ h => madeFor_of_mem_addGroup h
  rcases exists_of_mem_foldl step h with h | ⟨group, hgroup, record, hrecord, hr⟩
  · simp at h
  · obtain ⟨record', hrecord', heq⟩ := List.mem_map.mp (mem_of_mem_groupByFirst hgroup hrecord)
    obtain rfl : record' = record := congrArg Prod.snd heq
    exact ⟨group.1, record', hrecord', hr⟩

end Advice

end IndexAdvice
