import CellQuery.Proofs.Grammar.Placement
import CellQuery.Proofs.Search.Meaning

/-!
# Connectives and sets of rows

Joining two queries joins the sets of rows that they find: `AND` is the intersection, `OR` the
union, and `NOT` the complement among the rows of the table. Between parentheses this is so of any
two queries with an answer, also of those that are accepted with their tokens out of place. An `OR`
needs no parentheses, if what stands behind it is the spelling of a tree (`evaluate_connectives`).
-/

namespace CellQuery

/-! ### Rows -/

/-- The answer is the rows with a property, in order. -/
def Answers (answer : Except QueryError (List Nat)) (P : Nat → Prop) : Prop :=
  ∃ rows, answer = .ok rows ∧ rows.Pairwise (· < ·) ∧ ∀ i, i ∈ rows ↔ P i

section Rows

variable {t : Table} {o : Options} {s : Selection} {e l r : Expr} {i : Nat}

theorem mem_trueRows_not {g : Grid} : i ∈ trueRows g o s (.not e) ↔
    i < g.size ∧ i ∉ trueRows g o s e := by
  simp only [mem_trueRows, Expr.eval, Bool.not_eq_true']
  grind

theorem mem_trueRows_and {g : Grid} : i ∈ trueRows g o s (.and l r) ↔
    i ∈ trueRows g o s l ∧ i ∈ trueRows g o s r := by
  simp only [mem_trueRows, Expr.eval, Bool.and_eq_true]
  tauto

/-- The rows of any tree that is true where one of two others is. -/
theorem mem_trueRows_of_eval_or {g : Grid}
    (h : ∀ value, e.eval value = (l.eval value || r.eval value)) :
    i ∈ trueRows g o s e ↔ i ∈ trueRows g o s l ∨ i ∈ trueRows g o s r := by
  simp only [mem_trueRows, h, Bool.or_eq_true]
  tauto

theorem answers_of_compile {ts : List Token} {P : Nat → Prop} (h : compile ts = .ok e.postorder)
    (hP : ∀ i, i ∈ trueRows (.ofTable t) o s e ↔ P i) : Answers (evaluate (.ofTable t) ts o s) P :=
  ⟨_, evaluate_of_compile h t o s, pairwise_trueRows _ o s e, hP⟩

end Rows

/-! ### Queries -/

/-- **Connectives are set operations.** The rows of two queries joined by `AND` are those of both,
by `OR` those of either, and behind a `NOT` are the rows that a query does not have. -/
theorem evaluate_connectives {t : Table} {o : Options} {s : Selection} {ts us : List Token}
    {rows rows' : List Nat} (hts : ts ≠ []) (hus : us ≠ [])
    (h : evaluate (.ofTable t) ts o s = .ok rows) (h' : evaluate (.ofTable t) us o s = .ok rows') :
    Answers (evaluate (.ofTable t) (grouped ts ++ .operator .and :: grouped us) o s)
        (fun i => i ∈ rows ∧ i ∈ rows') ∧
      Answers (evaluate (.ofTable t) (grouped ts ++ .operator .or :: grouped us) o s)
        (fun i => i ∈ rows ∨ i ∈ rows') ∧
      Answers (evaluate (.ofTable t) (.operator .not :: grouped ts) o s)
        (fun i => i < (Grid.ofTable t).size ∧ i ∉ rows) ∧
      (Derivable us → Answers (evaluate (.ofTable t) (ts ++ .operator .or :: us) o s)
        (fun i => i ∈ rows ∨ i ∈ rows')) := by
  obtain ⟨l, hl, rfl⟩ := exists_tree_of_evaluate hts h
  obtain ⟨r, hr, rfl⟩ := exists_tree_of_evaluate hus h'
  refine ⟨?_, ?_, ?_, ?_⟩
  · have hand := compile_join_grouped (ℓ := .conjunction) hl (by decide) hr
      (show (Expr.and l r).postorder = _ from rfl)
    exact answers_of_compile hand fun i => mem_trueRows_and
  · have hor := compile_join_grouped (ℓ := .disjunction) hl (by decide) hr
      (show (Expr.or l r).postorder = _ from rfl)
    exact answers_of_compile hor fun i => mem_trueRows_of_eval_or fun _ => rfl
  · exact answers_of_compile (compile_not_grouped hl) fun i => mem_trueRows_not
  · rintro ⟨r', hr'⟩
    -- the tree that `us` spells is the one that it compiles to
    obtain rfl : r' = r :=
      postorder_injective (Except.ok.inj ((compile_of_derives hr').symm.trans hr))
    obtain ⟨e, he, heval⟩ := compile_or_append hl hr'
    exact answers_of_compile he fun i => mem_trueRows_of_eval_or heval

/-- `a b AND` is accepted although its `AND` stands behind its operands, and it can be joined. -/
theorem evaluate_connectives_out_of_place :
    let t := Table.ofRows [.single "A"] [["ab"], ["ac"], ["c"], ["d"]]
    let ts : List Token := [.operand "a", .operand "b", .operator .and]
    let us : List Token := [.operand "d", .operator .or, .operator .not, .operand "a"]
    evaluate (.ofTable t) ts {} .all = .ok [0] ∧ evaluate (.ofTable t) us {} .all = .ok [2, 3] ∧
      Derivable us ∧
      Answers (evaluate (.ofTable t) (ts ++ .operator .or :: us) {} .all)
        (fun i => i ∈ [0] ∨ i ∈ [2, 3]) ∧
      Answers (evaluate (.ofTable t) (.operator .not :: grouped ts) {} .all)
        (fun i => i < 4 ∧ i ∉ [0]) := by
  intro t ts us
  have hts : evaluate (.ofTable t) ts {} .all = .ok [0] := by rfl
  have hus : evaluate (.ofTable t) us {} .all = .ok [2, 3] := by rfl
  have hd : Derivable us := ⟨_, .or (.ofConjunction (.ofFactor (.operand "d")))
    (.ofFactor (.not (.operand "a")))⟩
  obtain ⟨-, -, hnot, hor⟩ := evaluate_connectives (by decide) (by decide) hts hus
  exact ⟨hts, hus, hd, hor hd, hnot⟩

end CellQuery
