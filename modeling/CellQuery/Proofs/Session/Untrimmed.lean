import CellQuery.Proofs.Lexer.Concatenation
import CellQuery.Proofs.Session.Afresh

/-!
# Queries with separators around them

A session trims a query before it takes it apart. The tokens are those of the query as it was typed
(`tokenize_trim`), so the session answers with the rows that the query has without trimming.
-/

namespace CellQuery

namespace Session

/-- What a session answers with, given the rows of a query as it was typed. -/
def outcome (s : Session) (query : String) (live : Bool) (indexes : List Nat) : Outcome :=
  let operands := operands (tokenize query)
  ⟨if live then some (indexes.filterMap (s.result? operands)) else none, operands⟩

theorem answer_eq_evaluateQuery (s : Session) (query : String) :
    s.answer query =
      (evaluateQuery s.grid query s.options s.selection).map (s.outcome query true) := by
  rw [answer, tokenize_trim]
  rfl

theorem searchWith_eq_evaluateQuery (s : Session) (query : String) (ticket : Ticket) :
    s.searchWith query ticket =
      (evaluateQuery s.grid query s.options s.selection).map
        (s.outcome query !ticket.isStale s.generation) := by
  cases hstale : ticket.isStale s.generation with
  | false => rw [searchWith_of_live hstale, answer_eq_evaluateQuery, Bool.not_false]
  | true =>
    rw [searchWith_of_stale hstale, answer_eq_evaluateQuery, Bool.not_true]
    cases evaluateQuery s.grid query s.options s.selection <;> rfl

end Session

/-- **Separators.** Two texts with a separator between them have the tokens of the one and then
those of the other, if one of them is free of quotes. Separators around a query add nothing to it,
trimming takes nothing from it, and a session answers with the rows of the query as it was typed. -/
theorem tokenize_distributes :
    (∀ (a b : String) (s : Char), isSeparator s = true → '"' ∉ a.toList ∨ '"' ∉ b.toList →
      tokenize (a ++ String.singleton s ++ b) = tokenize a ++ tokenize b) ∧
    (∀ front query back : String, (∀ c ∈ front.toList ++ back.toList, isSeparator c = true) →
      tokenize (front ++ query ++ back) = tokenize query) ∧
    ∀ (s : Session) (query : String),
      tokenize (Text.trim query) = tokenize query ∧
      (s.search query).1 =
        (evaluateQuery s.grid query s.options s.selection).map (s.outcome query true) ∧
      ∀ ticket : Ticket, s.searchWith query ticket =
        (evaluateQuery s.grid query s.options s.selection).map
          (s.outcome query !ticket.isStale s.generation) := by
  refine ⟨fun a b s => tokenize_append_separator, fun front query back h => ?_,
    fun s query => ⟨tokenize_trim query, ?_, s.searchWith_eq_evaluateQuery query⟩⟩
  · exact tokenize_surrounded h query
  · rw [s.search_eq_answer, s.answer_eq_evaluateQuery]

/-- With quotes on both sides the separator may become part of a phrase. -/
example :
    tokenize ("\"a" ++ String.singleton ',' ++ "b\"") ≠ tokenize "\"a" ++ tokenize "b\"" := by
  decide +kernel

end CellQuery
