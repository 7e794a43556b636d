import CellQuery.Proofs.Machine.Tree

/-!
# Runs that share a stack

A stack that serves many runs is worth no more than an empty one. Work on it does to it what `exec`
does, and fails where `exec` has no stack to give (`outcome_forM_of_exec`,
`exists_outcome_forM_of_exec`). As a run clears the stack first, it gives what a run by itself
gives, whatever earlier runs have left (`outcome_run_fst`).

The check tells the two cases apart beforehand, without a stack and without values
(`checkArity_decides_runs`).
-/

namespace CellQuery

namespace OnStack

/-! ### Work one part after the other -/

section Bind

variable {α β : Type} {work : OnStack α} {stack stack' : List Bool}

theorem outcome_bind_of_ok {a : α} (h : outcome work stack = (.ok a, stack'))
    (next : α → OnStack β) : outcome (work >>= next) stack = outcome (next a) stack' := by
  show StateT.bind (m := Id) (ExceptT.run work) (ExceptT.bindCont next) stack = _
  have hwork : ExceptT.run work stack = (.ok a, stack') := h
  simp only [StateT.bind, hwork]
  rfl

theorem outcome_bind_of_error {err : QueryError} (h : outcome work stack = (.error err, stack'))
    (next : α → OnStack β) : outcome (work >>= next) stack = (.error err, stack') := by
  show StateT.bind (m := Id) (ExceptT.run work) (ExceptT.bindCont next) stack = _
  have hwork : ExceptT.run work stack = (.error err, stack') := h
  simp only [StateT.bind, hwork]
  rfl

end Bind

/-! ### Steps and runs -/

section Run

variable {value : String → Bool} {program : List Token} {stack stack' : List Bool}

theorem outcome_step_of_exec {t : Token} (h : execToken value stack t = some stack') :
    outcome (step value t) stack = (.ok (), stack') := by
  cases t with
  | operand s =>
    cases h
    rfl
  | operator op =>
    cases op with
    | not =>
      obtain _ | ⟨a, rest⟩ := stack
      · cases h
      · cases h
        rfl
    | and =>
      obtain _ | ⟨b, _ | ⟨a, rest⟩⟩ := stack
      · cases h
      · cases h
      · cases h
        rfl
    | or =>
      obtain _ | ⟨b, _ | ⟨a, rest⟩⟩ := stack
      · cases h
      · cases h
      · cases h
        rfl
    | lparen => cases h
    | rparen => cases h

/-- A step that finds too little takes what there is. -/
theorem exists_outcome_step_of_exec {t : Token} (h : execToken value stack t = none) :
    ∃ left, outcome (step value t) stack = (.error .invalidExpression, left) := by
  cases t with
  | operand s => cases h
  | operator op =>
    cases op with
    | not =>
      obtain _ | ⟨a, rest⟩ := stack
      · exact ⟨[], rfl⟩
      · cases h
    | and =>
      obtain _ | ⟨b, _ | ⟨a, rest⟩⟩ := stack
      · exact ⟨[], rfl⟩
      · exact ⟨[], rfl⟩
      · cases h
    | or =>
      obtain _ | ⟨b, _ | ⟨a, rest⟩⟩ := stack
      · exact ⟨[], rfl⟩
      · exact ⟨[], rfl⟩
      · cases h
    | lparen => exact ⟨stack, rfl⟩
    | rparen => exact ⟨stack, rfl⟩

theorem outcome_forM_of_exec (h : exec value stack program = some stack') :
    outcome (program.forM (step value)) stack = (.ok (), stack') := by
  induction program generalizing stack with
  | nil =>
    cases h
    rfl
  | cons t rest ih =>
    obtain ⟨between, ht, hrest⟩ := Option.bind_eq_some_iff.mp h
    exact (outcome_bind_of_ok (outcome_step_of_exec ht) _).trans (ih hrest)

theorem exists_outcome_forM_of_exec (h : exec value stack program = none) :
    ∃ left, outcome (program.forM (step value)) stack = (.error .invalidExpression, left) := by
  induction program generalizing stack with
  | nil => cases h
  | cons t rest ih =>
    cases ht : execToken value stack t with
    | none =>
      obtain ⟨left, hleft⟩ := exists_outcome_step_of_exec ht
      exact ⟨left, outcome_bind_of_error hleft _⟩
    | some between =>
      rw [exec, ht] at h
      obtain ⟨left, hleft⟩ := ih h
      exact ⟨left, (outcome_bind_of_ok (outcome_step_of_exec ht) _).trans hleft⟩

theorem outcome_run_of_exec {values : List Bool} (h : exec value [] program = some values)
    (stack : List Bool) : outcome (run value program) stack = outcome popLast values :=
  outcome_bind_of_ok (outcome_forM_of_exec h) fun _ => popLast

/-- A run gives what it gives by itself, wherever it runs. -/
theorem outcome_run_fst (value : String → Bool) (program : List Token) (stack : List Bool) :
    (outcome (run value program) stack).1 = CellQuery.run value program := by
  unfold CellQuery.run
  cases hexec : exec value [] program with
  | none =>
    obtain ⟨left, hleft⟩ := exists_outcome_forM_of_exec hexec
    exact congrArg Prod.fst (outcome_bind_of_error hleft fun _ => popLast)
  | some values =>
    rw [outcome_run_of_exec hexec]
    obtain _ | ⟨b, _ | ⟨a, rest⟩⟩ := values
    · rfl
    · rfl
    · rfl

theorem outcome_run_postorder (value : String → Bool) (e : Expr) (stack : List Bool) :
    outcome (run value e.postorder) stack = (.ok (e.eval value), []) :=
  outcome_run_of_exec (exec_postorder value e) stack

end Run

end OnStack

/-! ### The check -/

section Check

variable {value : String → Bool} {program : List Token}

/-- What has a value lists a tree. -/
theorem exists_tree_of_run {b : Bool} (h : run value program = .ok b) :
    ∃ e : Expr, program = e.postorder := by
  unfold run at h
  split at h
  · next c hexec =>
    rw [exec_eq_build, Option.map_eq_some_iff] at hexec
    obtain ⟨built, hbuild, hvalues⟩ := hexec
    obtain ⟨e, rfl, -⟩ := List.map_eq_singleton_iff.mp hvalues
    exact ⟨e, eq_postorder_of_build hbuild⟩
  · cases h

theorem run_eq_error {err : QueryError} (h : run value program = .error err) :
    err = .invalidExpression := by
  unfold run at h
  split at h
  · cases h
  · exact (Except.error.inj h).symm

theorem run_of_checkArity_eq_error {err : QueryError} (h : checkArity program = .error err)
    (value : String → Bool) : run value program = .error .invalidExpression := by
  cases hrun : run value program with
  | ok b =>
    rw [checkArity_eq_ok_iff.mpr (exists_tree_of_run hrun)] at h
    cases h
  | error e => rw [run_eq_error hrun]

end Check

/-- **The check decides which programs run.** It accepts the listings of trees, each that of one
tree only, and on any stack such a program gives the value of its tree and leaves nothing behind.
Every other program fails on any stack. What earlier runs have left does not matter: a run gives
what it gives on a stack of its own. -/
theorem checkArity_decides_runs (program : List Token) :
    (checkArity program = .ok () ↔ ∃ e : Expr, program = e.postorder) ∧
    (∀ e e' : Expr, program = e.postorder → program = e'.postorder → e = e') ∧
    (∀ e : Expr, program = e.postorder → ∀ value stack,
      OnStack.outcome (OnStack.run value program) stack = (.ok (e.eval value), [])) ∧
    (∀ err, checkArity program = .error err → ∀ value stack,
      (OnStack.outcome (OnStack.run value program) stack).1 = .error .invalidExpression) ∧
    ∀ value stack, (OnStack.outcome (OnStack.run value program) stack).1 = run value program := by
  refine ⟨checkArity_eq_ok_iff, ?_, ?_, ?_, ?_⟩
  · rintro e e' rfl h
    exact postorder_injective h
  · rintro e rfl value stack
    exact OnStack.outcome_run_postorder value e stack
  · intro err h value stack
    rw [OnStack.outcome_run_fst]
    exact run_of_checkArity_eq_error h value
  · intro value stack
    exact OnStack.outcome_run_fst value program stack

/-- The next run does not see what a run that failed has left. -/
example : OnStack.outcome (OnStack.run (· == "b") [.operand "a", .operand "b", .operator .or])
    (OnStack.outcome (OnStack.run (fun _ => true) [.operand "a", .operand "b"]) [true]).2 =
      (.ok true, []) := by
  rfl

end CellQuery
