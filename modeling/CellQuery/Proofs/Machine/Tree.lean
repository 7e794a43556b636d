import CellQuery.Query.Expr
import CellQuery.Query.Machine

/-!
# Programs and trees

`build` runs a program on trees instead of values: an operand pushes a leaf, an operator joins the
trees it takes. The two machines of the library are shadows of this one. `heightAfter` keeps no more
of the stack than its length (`heightAfter_length`), `exec` no more of a tree than its value
(`exec_map_eval`).

No token is lost on the way: the trees on the stack, listed from the bottom, spell what has been run
(`listing_build`). So the programs that `checkArity` accepts are the postorder listings of trees
(`checkArity_eq_ok_iff`), and each is the listing of one tree only (`postorder_injective`).
-/

namespace CellQuery

/-! ### The machine on trees -/

/-- The stack of trees after one token, its top first. -/
def buildToken (stack : List Expr) : Token → Option (List Expr)
  | .operand s => some (.operand s :: stack)
  | .operator .not =>
    match stack with
    | a :: rest => some (.not a :: rest)
    | _ => none
  | .operator .and =>
    match stack with
    | b :: a :: rest => some (.and a b :: rest)
    | _ => none
  | .operator .or =>
    match stack with
    | b :: a :: rest => some (.or a b :: rest)
    | _ => none
  | .operator .lparen => none
  | .operator .rparen => none

/-- The trees on the stack after a program, the top first. -/
def build (stack : List Expr) : List Token → Option (List Expr)
  | [] => some stack
  | t :: rest => (buildToken stack t).bind fun built => build built rest

/-- A listed tree ends up on top of the stack, whatever follows it. -/
theorem build_postorder (e : Expr) (stack : List Expr) (rest : List Token) :
    build stack (e.postorder ++ rest) = build (e :: stack) rest := by
  induction e generalizing stack rest with
  | operand s => rfl
  | not e ih =>
    simp only [Expr.postorder, List.append_assoc, List.singleton_append]
    rw [ih]
    rfl
  | and l r ihl ihr =>
    simp only [Expr.postorder, List.append_assoc, List.singleton_append]
    rw [ihl, ihr]
    rfl
  | or l r ihl ihr =>
    simp only [Expr.postorder, List.append_assoc, List.singleton_append]
    rw [ihl, ihr]
    rfl

theorem build_postorder_self (e : Expr) : build [] e.postorder = some [e] := by
  have h := build_postorder e [] []
  rwa [List.append_nil] at h

theorem postorder_injective {e e' : Expr} (h : e.postorder = e'.postorder) : e = e' := by
  have hbuild := build_postorder_self e
  rw [h, build_postorder_self, Option.some.injEq, List.cons.injEq] at hbuild
  exact hbuild.1.symm

/-! ### Nothing is lost -/

/-- The trees on a stack as a program, from the bottom to the top. -/
def listing (stack : List Expr) : List Token :=
  stack.reverse.flatMap Expr.postorder

@[simp] theorem listing_nil : listing [] = [] := rfl

@[simp] theorem listing_cons (e : Expr) (stack : List Expr) :
    listing (e :: stack) = listing stack ++ e.postorder := by
  simp [listing]

theorem listing_buildToken {stack built : List Expr} {t : Token}
    (h : buildToken stack t = some built) : listing built = listing stack ++ [t] := by
  cases t with
  | operand s =>
    cases h
    simp [Expr.postorder]
  | operator op =>
    cases op with
    | not =>
      obtain _ | ⟨a, rest⟩ := stack
      · simp [buildToken] at h
      · cases h
        simp [Expr.postorder]
    | and =>
      obtain _ | ⟨b, _ | ⟨a, rest⟩⟩ := stack
      · simp [buildToken] at h
      · simp [buildToken] at h
      · cases h
        simp [Expr.postorder]
    | or =>
      obtain _ | ⟨b, _ | ⟨a, rest⟩⟩ := stack
      · simp [buildToken] at h
      · simp [buildToken] at h
      · cases h
        simp [Expr.postorder]
    | lparen => simp [buildToken] at h
    | rparen => simp [buildToken] at h

theorem listing_build {stack built : List Expr} {program : List Token}
    (h : build stack program = some built) : listing built = listing stack ++ program := by
  induction program generalizing stack with
  | nil =>
    cases h
    simp
  | cons t rest ih =>
    obtain ⟨next, ht, hrest⟩ := Option.bind_eq_some_iff.mp h
    rw [ih hrest, listing_buildToken ht, List.append_assoc, List.singleton_append]

theorem eq_postorder_of_build {program : List Token} {e : Expr}
    (h : build [] program = some [e]) : program = e.postorder := by
  have hlist := listing_build h
  simp only [listing_cons, listing_nil, List.nil_append] at hlist
  exact hlist.symm

/-! ### The height of the stack -/

theorem heightAfter_operator {op : Operator} (hop : op.arity ≠ 0) {height : Nat}
    (h : op.arity ≤ height) (rest : List Token) :
    heightAfter height (.operator op :: rest) = heightAfter (height - op.arity + 1) rest := by
  rw [heightAfter, if_neg (by omega)]

theorem heightAfter_length (stack : List Expr) (program : List Token) :
    heightAfter stack.length program = (build stack program).map List.length := by
  induction program generalizing stack with
  | nil => rfl
  | cons t rest ih =>
    cases t with
    | operand s =>
      show heightAfter (stack.length + 1) rest = (build (.operand s :: stack) rest).map List.length
      exact ih (.operand s :: stack)
    | operator op =>
      cases op with
      | not =>
        obtain _ | ⟨a, below⟩ := stack
        · rfl
        · rw [heightAfter_operator (by decide) (by simp [Operator.arity])]
          exact ih (.not a :: below)
      | and =>
        obtain _ | ⟨b, _ | ⟨a, below⟩⟩ := stack
        · rfl
        · rfl
        · rw [heightAfter_operator (by decide) (by simp [Operator.arity])]
          exact ih (.and a b :: below)
      | or =>
        obtain _ | ⟨b, _ | ⟨a, below⟩⟩ := stack
        · rfl
        · rfl
        · rw [heightAfter_operator (by decide) (by simp [Operator.arity])]
          exact ih (.or a b :: below)
      | lparen => rfl
      | rparen => rfl

/-- The programs that pass the check are the listings of trees. -/
theorem checkArity_eq_ok_iff {program : List Token} :
    checkArity program = .ok () ↔ ∃ e : Expr, program = e.postorder := by
  -- the heights are those of the stack of trees, so one tree is left
  have hcheck : checkArity program = .ok () ↔ heightAfter 0 program = some 1 := by
    unfold checkArity
    split <;> simp_all
  rw [hcheck, show (0 : Nat) = ([] : List Expr).length from rfl, heightAfter_length,
    Option.map_eq_some_iff]
  constructor
  · rintro ⟨built, hbuild, hlength⟩
    obtain ⟨e, rfl⟩ := List.length_eq_one_iff.mp hlength
    exact ⟨e, eq_postorder_of_build hbuild⟩
  · rintro ⟨e, rfl⟩
    exact ⟨[e], build_postorder_self e, rfl⟩

theorem checkArity_postorder (e : Expr) : checkArity e.postorder = .ok () :=
  checkArity_eq_ok_iff.mpr ⟨e, rfl⟩

/-! ### The values on the stack -/

section Values

variable (value : String → Bool)

theorem execToken_map_eval (stack : List Expr) (t : Token) :
    execToken value (stack.map (Expr.eval value)) t =
      (buildToken stack t).map (List.map (Expr.eval value)) := by
  cases t with
  | operand s => rfl
  | operator op =>
    cases op with
    | not => obtain _ | ⟨a, rest⟩ := stack <;> rfl
    | and => obtain _ | ⟨b, _ | ⟨a, rest⟩⟩ := stack <;> rfl
    | or => obtain _ | ⟨b, _ | ⟨a, rest⟩⟩ := stack <;> rfl
    | lparen => rfl
    | rparen => rfl

/-- A run on values is the run on trees, seen through their values. -/
theorem exec_map_eval (stack : List Expr) (program : List Token) :
    exec value (stack.map (Expr.eval value)) program =
      (build stack program).map (List.map (Expr.eval value)) := by
  induction program generalizing stack with
  | nil => rfl
  | cons t rest ih =>
    rw [exec, execToken_map_eval, build]
    cases buildToken stack t with
    | none => rfl
    | some built => exact ih built

theorem exec_eq_build (program : List Token) :
    exec value [] program = (build [] program).map (List.map (Expr.eval value)) :=
  exec_map_eval value [] program

theorem exec_postorder (e : Expr) : exec value [] e.postorder = some [e.eval value] := by
  rw [exec_eq_build, build_postorder_self]
  rfl

theorem run_postorder (e : Expr) : run value e.postorder = .ok (e.eval value) := by
  rw [run, exec_postorder]

end Values

end CellQuery
