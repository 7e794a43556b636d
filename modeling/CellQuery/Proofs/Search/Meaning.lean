import CellQuery.Proofs.Lexer.Spelling
import CellQuery.Proofs.Postfix.Precedence
import CellQuery.Search.Evaluate

/-!
# What a query means

A query that has an answer stands for a tree (`treeOf`), and its answer is the rows for which the
tree is true, where an operand is true of a row if it matches the row (`trueRows`). `evaluate_eq`
puts `evaluate` in this form: the tree, or the reason why there is none, is found without the table,
and the rows are found without the tokens.
-/

namespace CellQuery

/-! ### The tree of a query -/

/-- The tree that a list of tokens stands for. -/
def treeOf (tokens : List Token) : Except QueryError Expr :=
  (compile tokens).bind fun program =>
    match build [] program with
    | some [e] => .ok e
    | _ => .error .invalidExpression

theorem treeOf_of_compile {tokens program : List Token} (h : compile tokens = .ok program) :
    (∃ e : Expr, program = e.postorder ∧ treeOf tokens = .ok e ∧ checkArity program = .ok ()) ∨
      treeOf tokens = .error .invalidExpression ∧
        checkArity program = .error .invalidExpression := by
  by_cases he : ∃ e : Expr, program = e.postorder
  · obtain ⟨e, rfl⟩ := he
    exact .inl ⟨e, rfl, by simp [treeOf, h, Except.bind, build_postorder_self],
      checkArity_postorder e⟩
  -- without a tree both fail: building leaves no single tree, and the heights no single value
  · refine .inr ⟨?_, ?_⟩
    · simp only [treeOf, h, Except.bind]
      split
      · next e hbuild =>
        have hlist := listing_build hbuild
        simp only [listing_cons, listing_nil, List.nil_append] at hlist
        exact absurd ⟨e, hlist.symm⟩ he
      · rfl
    · have hcheck := mt checkArity_eq_ok_iff.mp he
      unfold checkArity at hcheck ⊢
      split at hcheck
      · exact absurd rfl hcheck
      · next hne => rw [if_neg hne]

theorem treeOf_eq_ok_iff {tokens : List Token} {e : Expr} :
    treeOf tokens = .ok e ↔ compile tokens = .ok e.postorder := by
  constructor
  · intro h
    cases hc : compile tokens with
    | error err => simp [treeOf, hc, Except.bind] at h
    | ok program =>
      rcases treeOf_of_compile hc with ⟨e', rfl, he', -⟩ | ⟨herr, -⟩
      · rw [he', Except.ok.injEq] at h
        rw [h]
      · rw [herr] at h
        cases h
  · intro h
    simp [treeOf, h, Except.bind, build_postorder_self]

/-! ### The rows of a tree -/

/-- The rows for which a tree is true, in order. -/
def trueRows (g : Grid) (o : Options) (s : Selection) (e : Expr) : List Nat :=
  (List.range g.size).filter fun i =>
    e.eval fun keyword => matchRow g i keyword o (s.indexes g.columnCount)

theorem mem_trueRows {g : Grid} {o : Options} {s : Selection} {e : Expr} {i : Nat} :
    i ∈ trueRows g o s e ↔
      i < g.size ∧
        e.eval (fun keyword => matchRow g i keyword o (s.indexes g.columnCount)) = true := by
  simp [trueRows]

theorem pairwise_trueRows (g : Grid) (o : Options) (s : Selection) (e : Expr) :
    (trueRows g o s e).Pairwise (· < ·) :=
  List.pairwise_lt_range.filter _

/-- The rows that are kept, if the truth of each of them is known. -/
theorem keepRows_eq {keep : List String → Except QueryError Bool} (truth : Nat → Bool) (index : Nat)
    (rows : List (List String))
    (h : ∀ i cells, rows[i]? = some cells → keep cells = .ok (truth (index + i))) :
    keepRows keep index rows = .ok ((List.range' index rows.length).filter truth) := by
  induction rows generalizing index with
  | nil => rfl
  | cons cells rest ih =>
    have hrest := ih (index + 1) fun i row hrow => by
      have hnext := h (i + 1) row (by simpa using hrow)
      rwa [show index + (i + 1) = index + 1 + i by omega] at hnext
    have hfirst : keep cells = .ok (truth index) := h 0 cells rfl
    rw [keepRows, hfirst, hrest, List.length_cons, List.range'_succ, List.filter_cons]
    rfl

@[simp] theorem size_ofTable (t : Table) : (Grid.ofTable t).size = t.size := rfl

@[simp] theorem length_compared_ofTable (t : Table) (caseSensitive : Bool) :
    ((Grid.ofTable t).compared caseSensitive).length = t.size := by
  cases caseSensitive <;> simp [Grid.compared, Grid.ofTable, Table.size]

/-- A program with normalized operands runs as the program itself does on normalized operands. -/
theorem exec_normalizeProgram (value : String → Bool) (o : Options) (stack : List Bool)
    (program : List Token) :
    exec value stack (normalizeProgram o program) =
      exec (fun s => value (o.normalize s)) stack program := by
  induction program generalizing stack with
  | nil => rfl
  | cons t rest ih =>
    simp only [normalizeProgram, List.map_cons, exec] at ih ⊢
    cases t with
    | operand s => exact ih (value (o.normalize s) :: stack)
    | operator op =>
      have hsame : execToken value stack (.operator op) =
          execToken (fun s => value (o.normalize s)) stack (.operator op) := by
        cases op <;> rfl
      simp only [hsame]
      cases execToken (fun s => value (o.normalize s)) stack (.operator op) with
      | none => rfl
      | some next => exact ih next

theorem run_normalizeProgram (value : String → Bool) (o : Options) (e : Expr) :
    run value (normalizeProgram o e.postorder) =
      .ok (e.eval fun s => value (o.normalize s)) := by
  rw [← run_postorder, run, run, exec_normalizeProgram]

/-! ### The answer -/

/-- **The answer to a query** is the rows of its tree. -/
theorem evaluate_eq (t : Table) (tokens : List Token) (o : Options) (s : Selection) :
    evaluate (.ofTable t) tokens o s =
      if tokens.isEmpty then .ok (List.range t.size)
      else (treeOf tokens).map (trueRows (.ofTable t) o s) := by
  unfold evaluate
  split
  · rfl
  · cases hc : compile tokens with
    | error err => simp [treeOf, hc, Except.bind, Except.map, bind]
    | ok program =>
      rcases treeOf_of_compile hc with ⟨e, rfl, htree, hcheck⟩ | ⟨htree, hcheck⟩
      · simp only [bind, Except.bind, htree, hcheck, Except.map]
        rw [keepRows_eq fun i => e.eval fun keyword =>
          matchRow (.ofTable t) i keyword o (s.indexes (Grid.ofTable t).columnCount)]
        · rw [length_compared_ofTable, trueRows, List.range_eq_range', size_ofTable]
        · intro i cells hrow
          rw [run_normalizeProgram, Nat.zero_add]
          simp only [matchRow, Grid.row?, hrow]
      · simp [bind, Except.bind, htree, hcheck, Except.map]

theorem evaluate_of_compile {tokens : List Token} {e : Expr}
    (h : compile tokens = .ok e.postorder) (t : Table) (o : Options) (s : Selection) :
    evaluate (.ofTable t) tokens o s = .ok (trueRows (.ofTable t) o s e) := by
  have hne : tokens.isEmpty = false := by
    cases tokens with
    | nil => exact absurd (Except.ok.inj h).symm e.postorder_ne_nil
    | cons _ _ => rfl
  rw [evaluate_eq, hne, treeOf_eq_ok_iff.mpr h]
  rfl

/-- A query with an answer, other than the empty one, has a tree. -/
theorem exists_tree_of_evaluate {t : Table} {tokens : List Token} {o : Options} {s : Selection}
    {rows : List Nat} (hne : tokens ≠ []) (h : evaluate (.ofTable t) tokens o s = .ok rows) :
    ∃ e : Expr, compile tokens = .ok e.postorder ∧ rows = trueRows (.ofTable t) o s e := by
  have hempty : tokens.isEmpty = false := by simpa using hne
  rw [evaluate_eq, hempty] at h
  cases htree : treeOf tokens with
  | error err => simp [htree, Except.map] at h
  | ok e =>
    simp only [htree, Bool.false_eq_true, if_false, Except.map, Except.ok.injEq] at h
    exact ⟨e, treeOf_eq_ok_iff.mp htree, h.symm⟩

/-! ### From the text to the rows -/

/-- **What a written query answers.** The text of a tree, whatever its gaps and the case of its
operators, is answered with the rows for which the tree is true. -/
theorem evaluateQuery_of_written {e : Expr} {ts : List Token} {query : String}
    (hd : Derives .disjunction e ts) (hq : ∀ keyword ∈ operands ts, Quotable keyword)
    (hw : Written ts query.toList) (t : Table) (o : Options) (s : Selection) :
    ∃ rows, evaluateQuery (.ofTable t) query o s = .ok rows ∧ rows.Pairwise (· < ·) ∧
      ∀ i, i ∈ rows ↔ i < (Grid.ofTable t).size ∧
        e.eval (fun keyword => matchRow (.ofTable t) i keyword o
          (s.indexes (Grid.ofTable t).columnCount)) = true := by
  refine ⟨trueRows (.ofTable t) o s e, ?_, pairwise_trueRows _ o s e, fun i => mem_trueRows⟩
  rw [evaluateQuery, tokenize_of_written hw hq]
  exact evaluate_of_compile (compile_of_derives hd) t o s

/-- A keyword between quotes is an operand, and a blank inside them counts. -/
theorem evaluateQuery_of_written_mixed :
    let e := Expr.and (.not (.operand "or")) (.operand " b")
    let ts : List Token := [.operator .not, .operator .lparen, .operand "or", .operator .rparen,
      .operator .and, .operand " b"]
    let t := Table.ofRows [.single "A", .single "B"] [["For", "a b"], ["x", "a B"], ["x", "b"]]
    let query := "nOt ( \"or\" ),and,\" b\" "
    Derives .disjunction e ts ∧ (∀ keyword ∈ operands ts, Quotable keyword) ∧
      Written ts query.toList ∧
      ∃ rows, evaluateQuery (.ofTable t) query {} .all = .ok rows ∧
        0 ∉ rows ∧ 1 ∈ rows ∧ 2 ∉ rows := by
  intro e ts t query
  have hd : Derives .disjunction e ts := .ofConjunction (.and (.ofFactor (.not (.group
    (.ofConjunction (.ofFactor (.operand "or")))))) (.operand " b"))
  have hq : ∀ keyword ∈ operands ts, Quotable keyword := by decide
  have hb : Written [.operand " b"] ",\" b\" ".toList :=
    @Written.cons [','] ['"', ' ', 'b', '"'] [' '] (.operand " b") [] rfl rfl (.nil rfl) nofun
  have hand : Written (.operator .and :: _) ",and,\" b\" ".toList :=
    @Written.cons [','] ['a', 'n', 'd'] _ (.operator .and) _ rfl rfl hb fun _ => rfl
  have hclose : Written (.operator .rparen :: _) " ),and,\" b\" ".toList :=
    @Written.cons [' '] [')'] _ (.operator .rparen) _ rfl rfl hand fun _ => rfl
  have hor : Written (.operand "or" :: _) " \"or\" ),and,\" b\" ".toList :=
    @Written.cons [' '] ['"', 'o', 'r', '"'] _ (.operand "or") _ rfl rfl hclose fun _ => rfl
  have hopen : Written (.operator .lparen :: _) " ( \"or\" ),and,\" b\" ".toList :=
    @Written.cons [' '] ['('] _ (.operator .lparen) _ rfl rfl hor fun _ => rfl
  have hw : Written ts "nOt ( \"or\" ),and,\" b\" ".toList :=
    @Written.cons [] ['n', 'O', 't'] _ (.operator .not) _ rfl rfl hopen fun _ => rfl
  obtain ⟨rows, hrows, -, hmem⟩ := evaluateQuery_of_written hd hq hw t {} .all
  refine ⟨hd, hq, hw, rows, hrows, ?_, ?_, ?_⟩
  · rw [hmem]
    decide
  · rw [hmem]
    decide
  · rw [hmem]
    decide

end CellQuery
