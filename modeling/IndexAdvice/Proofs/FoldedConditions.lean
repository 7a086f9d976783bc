import IndexAdvice.Parse
import IndexAdvice.Proofs.Deduplication

/-!
# Folded offers and partial indexes

A recommendation may be for a partial index, whose condition is the conjunction of the equalities
with constants in the branch it was made for. A later offer of the same table and key is folded into
it. What the two branches share is the **key**: `folded_offer_shares_key` says that every conjunct
of the condition is about a key column of the folded offer. They need not share the **constants**:
`Offer.RepeatsConstants` says that they do, and `openTickets` is a search of two branches that are
folded without it.
-/

namespace IndexAdvice

open Advice

/-- The constants of a candidate are compared for equality with columns of its key. -/
theorem column_mem_of_mem_literals {caps : Capabilities} {clauses : Clauses} {c : Candidate}
    (hc : c ∈ Candidate.ofClauses caps clauses) {p : Predicate} (hp : p ∈ c.literals) :
    p.kind = .equality ∧ p.isLiteral = true ∧ ∃ column ∈ c.columns, p.column = some column := by
  obtain ⟨branch, -, rfl⟩ := List.mem_map.mp hc
  obtain ⟨hbranch, hliteral⟩ := List.mem_filter.mp hp
  rw [Bool.and_eq_true, Option.isSome_iff_exists] at hliteral
  obtain ⟨hconstant, column, hcolumn⟩ := hliteral
  obtain ⟨hkind, hsome, hne⟩ := equalityColumn?_eq_some.mp hcolumn
  refine ⟨hkind, hconstant, column, ?_, hsome⟩
  exact mem_columns_ofBranch.mpr ⟨.equality, .equality hbranch hkind hsome hne⟩

/-- The condition of a recommendation is the conjunction of the constants of its candidate, of which
there is one at least. -/
theorem condition_eq_of_recommend {target : Target} {table condition : String} {query : Query}
    {c : Candidate} (h : (recommend target table query c).condition = some condition) :
    c.literals ≠ [] ∧ condition = " AND ".intercalate (c.literals.map (·.render)) := by
  simp only [recommend] at h
  split at h
  · next hcond =>
    refine ⟨fun hnil => ?_, (Option.some.inj h).symm⟩
    rw [hnil] at hcond
    exact absurd hcond Bool.false_ne_true
  · simp at h

/-- **Folded offers share table and key.** The duplicates are the offers that repeat the table and
key of an earlier one, and each names the recommendation of that one. If this is for a partial
index, the condition is the conjunction of the constants of the earlier offer, and each of its
conjuncts is about a key column of the folded offer. -/
theorem folded_offer_shares_key (target : Target) (records : List (Query × Clauses)) :
    let advice := ofRecords target records
    advice.duplicates = (repeats Offer.key (offers target records)).map Offer.duplicate ∧
    ∀ o ∈ repeats Offer.key (offers target records),
      ∃ past rest, offers target records = past ++ o :: rest ∧ ∃ first ∈ past,
        first.recommendation target ∈ advice.recommendations ∧
        (first.recommendation target).key = o.duplicate.key ∧
        o.duplicate.duplicateOf = (first.recommendation target).name ∧
        ∀ condition, (first.recommendation target).condition = some condition →
          condition = " AND ".intercalate (first.candidate.literals.map (·.render)) ∧
          ∀ p ∈ first.candidate.literals, p.kind = .equality ∧ p.isLiteral = true ∧
            ∃ column ∈ o.candidate.columns, p.column = some column := by
  intro advice
  have haccount := accounts_ofRecords target records
  refine ⟨haccount.duplicates_eq, fun o ho => ?_⟩
  obtain ⟨past, rest, hsplit, first, hpast, hfirst, hkey⟩ := exists_first_of_mem_repeats ho
  obtain ⟨htable, hcolumns⟩ := Prod.mk.inj hkey
  refine ⟨past, rest, hsplit, first, hpast, ?_, hkey, ?_, fun condition h => ⟨?_, fun p hp => ?_⟩⟩
  · rw [haccount.recommendations_eq]
    exact List.mem_map_of_mem hfirst
  · rw [Offer.duplicate, ← htable, ← hcolumns]
    rfl
  · exact (condition_eq_of_recommend h).2
  · obtain ⟨record, -, -, -, -, hcandidate, -⟩ := mem_offers.mp (mem_of_mem_firsts hfirst)
    rw [← hcolumns]
    exact column_mem_of_mem_literals hcandidate hp

/-! ### Constants are not compared -/

/-- The equalities with constants of `first` are all repeated by `o`, so that a partial index for
them holds every row that `o` asks for. -/
def Offer.RepeatsConstants (o first : Offer) : Prop :=
  ∀ p ∈ first.candidate.literals, ∃ q ∈ o.candidate.literals,
    q.column = p.column ∧ q.operator = p.operator ∧ q.value = p.value

/-- A search for the open tickets and those of another status. -/
def openTickets : Query where
  table := "Ticket"
  fields := ["id", "status"]
  sql := "status = 'open' OR status = $1"

/-- An offer of the search for one of its two branches, which differ in their constants. -/
def openTicketOffer (constants : List Predicate) : Offer :=
  ⟨"Ticket", openTickets, ⟨[⟨"status", ["WHERE ="]⟩], constants, []⟩⟩

/-- The condition of the first branch. -/
def isOpen : Predicate where
  column := some "status"
  kind := .equality
  isLiteral := true
  operator := "="
  value := "'open'"
  text := "status = 'open'"

private theorem offers_openTickets :
    offers (.of (.of .postgres none) {}) (openTickets.records [] true) =
      [openTicketOffer [isOpen], openTicketOffer []] := by
  decide +kernel

/-- The second branch is folded into the recommendation of the first, on their common key. -/
theorem openTickets_folded_on_key :
    let target : Target := .of (.of .postgres none) {}
    let records := openTickets.records [] true
    openTicketOffer [] ∈ repeats Offer.key (offers target records) ∧
      ∃ r ∈ (ofRecords target records).recommendations,
        r.key = ("Ticket", ["status"]) ∧ (openTicketOffer []).duplicate.duplicateOf = r.name := by
  intro target records
  have hfolded : openTicketOffer [] ∈ repeats Offer.key (offers target records) := by
    rw [offers_openTickets]
    decide
  obtain ⟨-, -, -, first, -, hr, hkey, hname, -⟩ :=
    (folded_offer_shares_key target records).2 _ hfolded
  exact ⟨hfolded, first.recommendation target, hr, hkey, hname⟩

/-- **Constants are not compared.** The search for open tickets and those of another status gets
one recommendation, a partial index on the open tickets, and its second branch, which asks for
other tickets, is reported as a duplicate of it. -/
theorem folded_branch_lacks_constant :
    let target : Target := .of (.of .postgres none) {}
    let records := openTickets.records [] true
    let advice := ofRecords target records
    advice.recommendations.map (fun r => (r.name, r.condition)) =
        [("idx_Ticket_status", some "status = 'open'")] ∧
      advice.duplicates.map (·.duplicateOf) = ["idx_Ticket_status"] ∧
      ¬∀ o ∈ repeats Offer.key (offers target records),
        ∀ first ∈ firsts Offer.key (offers target records), first.key = o.key →
          (first.recommendation target).condition ≠ none → o.RepeatsConstants first := by
  intro target records advice
  have haccount := accounts_ofRecords target records
  refine ⟨?_, ?_, fun hserved => ?_⟩
  · rw [haccount.recommendations_eq, offers_openTickets]
    decide +kernel
  · rw [haccount.duplicates_eq, offers_openTickets]
    decide +kernel
  · rw [offers_openTickets] at hserved
    have hrepeats := hserved (openTicketOffer []) (by decide) (openTicketOffer [isOpen])
      (by decide) rfl (by decide)
    obtain ⟨q, hq, -⟩ := hrepeats isOpen (List.mem_singleton.mpr rfl)
    exact absurd hq List.not_mem_nil

end IndexAdvice
