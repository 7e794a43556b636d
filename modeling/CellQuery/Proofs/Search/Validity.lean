import CellQuery.Proofs.Search.Meaning

/-!
# Whether a query has an answer

Compiling a query and checking its program say whether it has an answer (`verdict`), and no table is
looked at for that. Evaluating says the same on every grid (`evaluate_verdict`): a program that has
passed the check leaves a value on every row (`run_of_checked`), so the pass over the rows cannot
fail on the way (`keepRows_isOk`).
-/

namespace CellQuery

/-- What is said of a query without looking at a table. The empty query is not compiled. -/
def verdict (ts : List Token) : Except QueryError Unit :=
  if ts.isEmpty then .ok () else (compile ts).bind checkArity

theorem checkArity_eq_error {program : List Token} {err : QueryError}
    (h : checkArity program = .error err) : err = .invalidExpression := by
  unfold checkArity at h
  split at h
  · cases h
  · cases h
    rfl

/-- The verdict is an error where compiling is one, or else the check. -/
theorem verdict_eq_error_iff {ts : List Token} {err : QueryError} :
    verdict ts = .error err ↔ ts ≠ [] ∧ (compile ts = .error err ∨
      ∃ program, compile ts = .ok program ∧ checkArity program = .error err) := by
  unfold verdict
  by_cases hts : ts = []
  · simp [hts]
  · rw [if_neg (by simpa using hts), and_iff_right hts]
    cases hc : compile ts with
    | error e => simp [Except.bind]
    | ok program => simp [Except.bind]

theorem verdict_eq_error {ts : List Token} {err : QueryError} (h : verdict ts = .error err) :
    compile ts = .error err ∨ (∃ program, compile ts = .ok program) ∧ err = .invalidExpression := by
  refine (verdict_eq_error_iff.mp h).2.imp_right ?_
  rintro ⟨program, hc, hcheck⟩
  exact ⟨⟨program, hc⟩, checkArity_eq_error hcheck⟩

/-! ### The pass over the rows -/

/-- A program that passes the check has a value on every row, with its operands normalized. -/
theorem run_of_checked {program : List Token} (h : checkArity program = .ok ()) (o : Options)
    (value : String → Bool) : ∃ kept, run value (normalizeProgram o program) = .ok kept := by
  obtain ⟨e, rfl⟩ := checkArity_eq_ok_iff.mp h
  exact ⟨_, run_normalizeProgram value o e⟩

theorem keepRows_isOk {keep : List String → Except QueryError Bool}
    (h : ∀ cells, ∃ kept, keep cells = .ok kept) (index : Nat) (rows : List (List String)) :
    ∃ found, keepRows keep index rows = .ok found := by
  induction rows generalizing index with
  | nil => exact ⟨[], rfl⟩
  | cons cells rest ih =>
    obtain ⟨kept, hkept⟩ := h cells
    obtain ⟨found, hfound⟩ := ih (index + 1)
    rw [keepRows, hkept, hfound]
    exact ⟨_, rfl⟩

/-- Evaluating adds the rows to the verdict, and nothing else. -/
theorem evaluate_verdict (g : Grid) (ts : List Token) (o : Options) (s : Selection) :
    (evaluate g ts o s).map (fun _ => ()) = verdict ts := by
  unfold evaluate verdict
  split
  · rfl
  · cases hc : compile ts with
    | error err => rfl
    | ok program =>
      simp only [bind, Except.bind]
      cases hcheck : checkArity program with
      | error err => rfl
      | ok u =>
        -- a checked program fails on no row, so the pass has an answer
        have hrun := fun cells : List String =>
          run_of_checked hcheck o (cellsMatch o cells (s.indexes g.columnCount))
        obtain ⟨found, hfound⟩ := keepRows_isOk hrun 0 (g.compared o.caseSensitive)
        rw [hfound]
        rfl

theorem evaluate_eq_error_iff {g : Grid} {ts : List Token} {o : Options} {s : Selection}
    {err : QueryError} : evaluate g ts o s = .error err ↔ verdict ts = .error err := by
  rw [← evaluate_verdict g ts o s]
  cases evaluate g ts o s <;> simp [Except.map]

/-- A program that passes the check is run on the rows, and what that gives is the answer. -/
theorem evaluate_of_checked {ts program : List Token} (hc : compile ts = .ok program)
    (hcheck : checkArity program = .ok ()) (g : Grid) (o : Options) (s : Selection) :
    evaluate g ts o s =
      keepRows (fun cells =>
        run (cellsMatch o cells (s.indexes g.columnCount)) (normalizeProgram o program)) 0
        (g.compared o.caseSensitive) := by
  have hts : ts.isEmpty = false := by
    cases ts with
    | nil =>
      -- the program of the empty query is empty, and fails the check
      obtain rfl := Except.ok.inj hc
      cases hcheck
    | cons t ts => rfl
  rw [evaluate, hts, if_neg Bool.false_ne_true, hc]
  simp only [bind, Except.bind, hcheck]

theorem exists_evaluate_eq_ok_iff {g : Grid} {ts : List Token} {o : Options} {s : Selection} :
    (∃ rows, evaluate g ts o s = .ok rows) ↔ verdict ts = .ok () := by
  rw [← evaluate_verdict g ts o s]
  cases evaluate g ts o s <;> simp [Except.map]

/-! ### Any two tables -/

/-- **Validity does not depend on the data.** A query has the same error on every grid, whatever the
options and the selection, or an answer on all of them. It has the error of compiling, if it is not
empty and that fails, and else the one of the check if that fails. Where neither does, the answer is
what the pass over the rows gives, and there is no row on which the program fails. -/
theorem evaluate_validity (ts : List Token) :
    ((∃ err, (∀ g o s, evaluate g ts o s = .error err) ∧
        (compile ts = .error err ∨
          (∃ program, compile ts = .ok program) ∧ err = .invalidExpression)) ∨
      ∀ g o s, ∃ rows, evaluate g ts o s = .ok rows) ∧
    (∀ g o s err, evaluate g ts o s = .error err ↔ ts ≠ [] ∧ (compile ts = .error err ∨
      ∃ program, compile ts = .ok program ∧ checkArity program = .error err)) ∧
    ∀ program, compile ts = .ok program → checkArity program = .ok () → ∀ o,
      (∀ cells columns, ∃ kept,
        run (cellsMatch o cells columns) (normalizeProgram o program) = .ok kept) ∧
      ∀ g s, evaluate g ts o s =
        keepRows (fun cells =>
          run (cellsMatch o cells (s.indexes g.columnCount)) (normalizeProgram o program)) 0
          (g.compared o.caseSensitive) := by
  refine ⟨?_, fun g o s err => evaluate_eq_error_iff.trans verdict_eq_error_iff,
    fun program hc hcheck o => ⟨fun cells columns => ?_, fun g s => ?_⟩⟩
  · cases hv : verdict ts with
    | error err =>
      exact .inl ⟨err, fun g o s => evaluate_eq_error_iff.mpr hv, verdict_eq_error hv⟩
    | ok u => exact .inr fun g o s => exists_evaluate_eq_ok_iff.mpr hv
  · exact run_of_checked hcheck o _
  · exact evaluate_of_checked hc hcheck g o s

example : evaluate (.ofTable .empty) [.operand "a", .operand "b"] {} .all =
    .error .invalidExpression := by
  rfl

end CellQuery
