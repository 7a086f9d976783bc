import IndexAdvice.Proofs.CheckedAdvice
import IndexAdvice.Proofs.CheckedNesting

/-!
# The analysis is total

Query text may be anything, and whatever it is, it is read and advised on. The programs that read
it by position, as `Checked` spells them out, stop at the first position beyond the end of a text or
a list, at the least of no numbers, at a key without an entry, and where a loop or a recursion goes
on with no less than it had. `analysis_total` says that none of this ever happens, and that what
they give is what the functions on lists give which the analysis runs.

Each part of the argument stands with the program it is about: parts of a list are never empty, a
join starts only where its modifiers lead to `JOIN` (`Checked.seek_join`), a reference ends after
its start, the inside of a conjunct and the text of a group are shorter than what is around them,
and a draft has motives for each of its key columns (`Checked.Draft.candidate_ofBranch`).
-/

namespace IndexAdvice

/-- **The analysis is total.** Every text has tokens; every query, of whatever table, fields,
catalog and setting, is read together with all queries nested in it; and every list of records gets
advice and a join graph. No partial operation fails on the way. In particular the search for the
`JOIN` of a join finds one, every key column has its motives, and both recursions, into nested
queries and into parenthesised conditions, are on something shorter. -/
theorem analysis_total (catalog : Catalog) (splitOr : Bool) (target : Target)
    (snakeCaseTables : Bool) :
    (∀ sql, Checked.tokenize sql = .ok (tokenize sql)) ∧
    (∀ query, Checked.parse catalog splitOr query = .ok (query.parse catalog splitOr)) ∧
    (∀ query, Checked.records catalog splitOr query = .ok (query.records catalog splitOr)) ∧
    (∀ records, Checked.advice target records = .ok (Advice.ofRecords target records)) ∧
    (∀ records, Checked.joinGraph snakeCaseTables records =
      .ok (JoinGraph.ofRecords snakeCaseTables records)) ∧
    (∀ tokens i, Span.startsJoin (tokens.drop i) = true →
      ∃ j, Checked.seek (·.isKeyword ["JOIN"]) tokens i = .ok j ∧ i ≤ j) ∧
    (∀ clauses branch, (Checked.Draft.ofBranch target.capabilities clauses branch).candidate =
      .ok (Candidate.ofBranch target.capabilities clauses branch)) ∧
    (∀ query : Query, ∀ g ∈ query.groups,
      (g.query catalog query).sql.length < query.sql.length) ∧
    (∀ tokens, ∀ part ∈ Token.conjuncts tokens, part.tail.dropLast.length < tokens.length) := by
  refine ⟨Checked.tokenize_eq, Checked.parse_eq catalog splitOr, Checked.records_eq catalog splitOr,
    Checked.advice_eq target, Checked.joinGraph_eq snakeCaseTables, fun tokens i h => ?_,
    Checked.Draft.candidate_ofBranch target.capabilities,
    fun query g hg => Query.length_sql_lt_of_mem_groups catalog hg,
    fun tokens part hpart => Predicate.length_inside_lt hpart⟩
  obtain ⟨j, front, w, rest, hseek, hle, -⟩ := Checked.seek_join h
  exact ⟨j, hseek, hle⟩

end IndexAdvice
