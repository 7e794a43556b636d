import CellQuery.Proofs.Grammar.Placement
import CellQuery.Query.Postfix
import Mathlib.Data.List.TakeWhile

/-!
# Feeding tokens to the compiler

`compileFrom` emits its program and throws its stack away at the end. Here the same pass is a
machine that can be stopped anywhere: `shift` is what one token emits and leaves on the stack,
`feed` what a list of tokens does. `compileFrom_eq_feed` says that compiling is feeding and then
draining, and `feed_append` that a list is fed piece by piece.

The number of floors on the stack (`floors`) is the number of parentheses that stand open, whatever
the other tokens are (`depthAfter_feed`). So a list of tokens compiles exactly if its parentheses
are balanced (`compile_isOk_iff`).
-/

namespace CellQuery

/-! ### The machine -/

/-- What a token emits above the operators in `stack`, and the stack that it leaves. -/
def shift (position : Nat) (stack : List Pending) :
    Token → Except QueryError (List Token × List Pending)
  | .operand s => .ok ([.operand s], stack)
  | .operator .lparen => .ok ([], ⟨position, .lparen⟩ :: stack)
  | .operator .rparen =>
    match closeGroup stack with
    | none => .error (.unbalancedParentheses position)
    | some closed => .ok closed
  | .operator op =>
    .ok ((stack.takeWhile (·.bindsBefore op)).map Pending.token,
      ⟨position, op⟩ :: stack.dropWhile (·.bindsBefore op))

/-- The same for a list of tokens, the first of which is the one at index `position`. -/
def feed (position : Nat) (stack : List Pending) :
    List Token → Except QueryError (List Token × List Pending)
  | [] => .ok ([], stack)
  | t :: rest =>
    (shift position stack t).bind fun shifted =>
      (feed (position + 1) shifted.2 rest).map fun fed => (shifted.1 ++ fed.1, fed.2)

@[simp] theorem feed_nil (position : Nat) (stack : List Pending) :
    feed position stack [] = .ok ([], stack) := rfl

theorem feed_cons (position : Nat) (stack : List Pending) (t : Token) (rest : List Token) :
    feed position stack (t :: rest) = (shift position stack t).bind fun shifted =>
      (feed (position + 1) shifted.2 rest).map fun fed => (shifted.1 ++ fed.1, fed.2) := rfl

theorem feed_cons_eq_ok_iff {position : Nat} {stack stack' : List Pending} {t : Token}
    {ts out : List Token} : feed position stack (t :: ts) = .ok (out, stack') ↔
      ∃ first between last, shift position stack t = .ok (first, between) ∧
        feed (position + 1) between ts = .ok (last, stack') ∧ first ++ last = out := by
  rw [feed_cons]
  constructor
  · intro h
    cases hshift : shift position stack t with
    | error e => simp [hshift, Except.bind] at h
    | ok shifted =>
      cases hfeed : feed (position + 1) shifted.2 ts with
      | error e => simp [hshift, hfeed, Except.bind, Except.map] at h
      | ok fed =>
        simp only [hshift, hfeed, Except.bind, Except.map] at h
        cases h
        exact ⟨shifted.1, shifted.2, fed.1, rfl, hfeed, rfl⟩
  · rintro ⟨first, between, last, hshift, hfeed, rfl⟩
    simp only [hshift, hfeed, Except.bind, Except.map]

theorem feed_append (position : Nat) (stack : List Pending) (ts us : List Token) :
    feed position stack (ts ++ us) = (feed position stack ts).bind fun first =>
      (feed (position + ts.length) first.2 us).map fun second =>
        (first.1 ++ second.1, second.2) := by
  induction ts generalizing position stack with
  | nil =>
    simp only [List.nil_append, feed_nil, List.length_nil, Nat.add_zero, Except.bind]
    cases feed position stack us <;> rfl
  | cons t ts ih =>
    simp only [List.cons_append, feed_cons]
    cases shift position stack t with
    | error e => rfl
    | ok shifted =>
      simp only [Except.bind, ih, List.length_cons]
      rw [show position + 1 + ts.length = position + (ts.length + 1) by omega]
      cases feed (position + 1) shifted.2 ts with
      | error e => rfl
      | ok first =>
        simp only [Except.map]
        cases feed (position + (ts.length + 1)) first.2 us with
        | error e => rfl
        | ok second => simp

/-- A list goes on from where the one before it stopped. -/
theorem feed_append_of_eq_ok {position : Nat} {stack stack' : List Pending} {ts out : List Token}
    (h : feed position stack ts = .ok (out, stack')) (us : List Token) :
    feed position stack (ts ++ us) = (feed (position + ts.length) stack' us).map fun second =>
      (out ++ second.1, second.2) := by
  rw [feed_append, h]
  rfl

/-- What is no parenthesis pops what binds before it, and waits. -/
theorem shift_operator {op : Operator} (hl : op ≠ .lparen) (hr : op ≠ .rparen) (position : Nat)
    (stack : List Pending) : shift position stack (.operator op) =
      .ok ((stack.takeWhile (·.bindsBefore op)).map Pending.token,
        ⟨position, op⟩ :: stack.dropWhile (·.bindsBefore op)) := by
  cases op with
  | lparen => exact absurd rfl hl
  | rparen => exact absurd rfl hr
  | and => rfl
  | or => rfl
  | not => rfl

/-- One step of compiling, whatever the token. -/
theorem compileFrom_cons (position : Nat) (stack : List Pending) (t : Token) (rest : List Token) :
    compileFrom position stack (t :: rest) = (shift position stack t).bind fun shifted =>
      (compileFrom (position + 1) shifted.2 rest).map (shifted.1 ++ ·) := by
  cases t with
  | operand s => rfl
  | operator op =>
    cases op with
    | lparen =>
      simp only [compileFrom, shift, Except.bind, List.nil_append]
      cases compileFrom (position + 1) (⟨position, .lparen⟩ :: stack) rest <;> rfl
    | rparen =>
      simp only [compileFrom, shift]
      cases closeGroup stack <;> rfl
    | and => rfl
    | or => rfl
    | not => rfl

theorem compileFrom_eq_feed (position : Nat) (stack : List Pending) (ts : List Token) :
    compileFrom position stack ts = (feed position stack ts).bind fun fed =>
      (drain fed.2).map (fed.1 ++ ·) := by
  induction ts generalizing position stack with
  | nil =>
    simp only [compileFrom, feed_nil, Except.bind, List.nil_append]
    cases drain stack <;> rfl
  | cons t ts ih =>
    rw [compileFrom_cons, feed_cons]
    cases shift position stack t with
    | error e => rfl
    | ok shifted =>
      simp only [Except.bind, ih]
      cases feed (position + 1) shifted.2 ts with
      | error e => rfl
      | ok fed =>
        simp only [Except.map]
        cases drain fed.2 with
        | error e => rfl
        | ok left => simp

theorem compileFrom_append {position : Nat} {stack stack' : List Pending} {ts out : List Token}
    (h : feed position stack ts = .ok (out, stack')) (us : List Token) :
    compileFrom position stack (ts ++ us) =
      (compileFrom (position + ts.length) stack' us).map (out ++ ·) := by
  rw [compileFrom_eq_feed, compileFrom_eq_feed, feed_append_of_eq_ok h]
  cases feed (position + ts.length) stack' us with
  | error e => rfl
  | ok fed =>
    simp only [Except.map, Except.bind]
    cases drain fed.2 with
    | error e => rfl
    | ok left => simp

theorem compile_append_of_error {ts : List Token} {err : QueryError}
    (h : feed 0 [] ts = .error err) (us : List Token) : compile (ts ++ us) = .error err := by
  rw [compile, compileFrom_eq_feed, feed_append, h]
  rfl

/-! ### Draining and closing -/

theorem drain_of_noFloor {stack : List Pending} (h : ∀ p ∈ stack, p.isFloor = false) :
    drain stack = .ok (stack.map Pending.token) := by
  have hfind : stack.find? Pending.isFloor = none := by
    rw [List.find?_eq_none]
    intro p hp
    simp [h p hp]
  unfold drain
  rw [hfind]

/-- A closing parenthesis emits what waits above the innermost floor. -/
theorem closeGroup_append {pending : List Pending} (h : ∀ p ∈ pending, p.isFloor = false)
    {floor : Pending} (hf : floor.isFloor = true) (stack : List Pending) :
    closeGroup (pending ++ floor :: stack) = some (pending.map Pending.token, stack) := by
  have hdrop : (pending ++ floor :: stack).dropWhile (!·.isFloor) = floor :: stack := by
    rw [List.dropWhile_append_of_pos (by simpa using h)]
    simp [hf]
  have htake : (pending ++ floor :: stack).takeWhile (!·.isFloor) = pending := by
    rw [List.takeWhile_append_of_pos (by simpa using h)]
    simp [hf]
  simp only [closeGroup, hdrop, htake]

/-- A stack is without floors, or splits at its innermost one. -/
theorem noFloor_or_split (stack : List Pending) :
    (∀ p ∈ stack, p.isFloor = false) ∨
      ∃ pending floor below, stack = pending ++ floor :: below ∧
        (∀ p ∈ pending, p.isFloor = false) ∧ floor.isFloor = true := by
  induction stack with
  | nil => exact .inl (by simp)
  | cons q stack ih =>
    cases hq : q.isFloor with
    | true => exact .inr ⟨[], q, stack, rfl, by simp, hq⟩
    | false =>
      rcases ih with h | ⟨pending, floor, below, rfl, h, hf⟩
      · exact .inl (by simpa [hq] using h)
      · exact .inr ⟨q :: pending, floor, below, rfl, by simpa [hq] using h, hf⟩

theorem closeGroup_of_noFloor {stack : List Pending} (h : ∀ p ∈ stack, p.isFloor = false) :
    closeGroup stack = none := by
  have hdrop : stack.dropWhile (!·.isFloor) = [] := by
    rw [← List.append_nil stack, List.dropWhile_append_of_pos (by simpa using h),
      List.dropWhile_nil]
  simp only [closeGroup, hdrop]

/-! ### Open parentheses -/

/-- The number of parentheses that stand open on a stack. -/
def floors (stack : List Pending) : Nat :=
  stack.countP Pending.isFloor

@[simp] theorem floors_cons (p : Pending) (stack : List Pending) :
    floors (p :: stack) = floors stack + if p.isFloor then 1 else 0 :=
  List.countP_cons

theorem floors_append (a b : List Pending) : floors (a ++ b) = floors a + floors b :=
  List.countP_append

theorem floors_eq_zero {stack : List Pending} :
    floors stack = 0 ↔ ∀ p ∈ stack, p.isFloor = false := by
  simp [floors]

theorem isFloor_of_bindsBefore {p : Pending} {op : Operator} (h : p.bindsBefore op = true) :
    p.isFloor = false := by
  simp only [Pending.bindsBefore, Bool.and_eq_true, Bool.not_eq_true'] at h
  exact h.1

/-- No operator reaches below a floor. -/
theorem floors_dropWhile (op : Operator) (stack : List Pending) :
    floors (stack.dropWhile (·.bindsBefore op)) = floors stack := by
  have hpopped : floors (stack.takeWhile (·.bindsBefore op)) = 0 :=
    floors_eq_zero.mpr fun p hp => isFloor_of_bindsBefore (List.mem_takeWhile_imp hp)
  have hsplit := floors_append (stack.takeWhile (·.bindsBefore op))
    (stack.dropWhile (·.bindsBefore op))
  rw [List.takeWhile_append_dropWhile, hpopped] at hsplit
  omega

theorem depthStep_shift (position : Nat) (stack : List Pending) (t : Token) :
    depthStep (floors stack) t = (shift position stack t).toOption.map (floors ·.2) := by
  cases t with
  | operand s => rfl
  | operator op =>
    cases op with
    | lparen => simp [depthStep, shift, Except.toOption, Pending.isFloor]
    | rparen =>
      rcases noFloor_or_split stack with h | ⟨pending, floor, below, rfl, h, hf⟩
      · simp [depthStep, shift, Except.toOption, closeGroup_of_noFloor h, floors_eq_zero.mpr h]
      · simp [depthStep, shift, Except.toOption, closeGroup_append h hf, floors_append,
          floors_eq_zero.mpr h, hf]
    | and => simp [depthStep, shift, Except.toOption, floors_dropWhile, Pending.isFloor]
    | or => simp [depthStep, shift, Except.toOption, floors_dropWhile, Pending.isFloor]
    | not => simp [depthStep, shift, Except.toOption, floors_dropWhile, Pending.isFloor]

/-- The floors on the stack are the open parentheses of what was fed. -/
theorem depthAfter_feed (position : Nat) (stack : List Pending) (ts : List Token) :
    depthAfter (floors stack) ts = (feed position stack ts).toOption.map (floors ·.2) := by
  induction ts generalizing position stack with
  | nil => rfl
  | cons t ts ih =>
    rw [depthAfter, depthStep_shift position, feed_cons]
    cases shift position stack t with
    | error e => rfl
    | ok shifted =>
      simp only [Except.toOption, Option.map_some, Option.bind_some, Except.bind]
      rw [ih (position + 1)]
      cases feed (position + 1) shifted.2 ts <;> rfl

theorem drain_isOk_iff {stack : List Pending} :
    (∃ left, drain stack = .ok left) ↔ floors stack = 0 := by
  constructor
  · rintro ⟨left, h⟩
    rw [floors_eq_zero]
    intro p hp
    unfold drain at h
    split at h
    · simp at h
    · next hnone =>
      rw [List.find?_eq_none] at hnone
      simpa using hnone p hp
  · intro h
    exact ⟨_, drain_of_noFloor (floors_eq_zero.mp h)⟩

/-- Compiling succeeds if no floor is left when the tokens end; what waits then is emitted last. -/
theorem compileFrom_eq_ok_iff {position : Nat} {stack : List Pending} {ts program : List Token} :
    compileFrom position stack ts = .ok program ↔
      ∃ out waiting, feed position stack ts = .ok (out, waiting) ∧
        (∀ p ∈ waiting, p.isFloor = false) ∧ out ++ waiting.map Pending.token = program := by
  rw [compileFrom_eq_feed]
  constructor
  · intro h
    cases hfeed : feed position stack ts with
    | error e => simp [hfeed, Except.bind] at h
    | ok fed =>
      obtain ⟨out, waiting⟩ := fed
      cases hdrain : drain waiting with
      | error e => simp [hfeed, hdrain, Except.bind, Except.map] at h
      | ok left =>
        have hfloor := floors_eq_zero.mp (drain_isOk_iff.mp ⟨left, hdrain⟩)
        simp only [hfeed, Except.bind, drain_of_noFloor hfloor, Except.map, Except.ok.injEq] at h
        exact ⟨out, waiting, rfl, hfloor, h⟩
  · rintro ⟨out, waiting, hfeed, hfloor, rfl⟩
    simp [hfeed, Except.bind, drain_of_noFloor hfloor, Except.map]

theorem compileFrom_isOk_iff {position : Nat} {stack : List Pending} {ts : List Token} :
    (∃ program, compileFrom position stack ts = .ok program) ↔
      depthAfter (floors stack) ts = some 0 := by
  rw [compileFrom_eq_feed, depthAfter_feed position]
  cases feed position stack ts with
  | error e => simp [Except.bind, Except.toOption]
  | ok fed =>
    simp only [Except.bind, Except.toOption, Option.map_some, Option.some.injEq]
    rw [← drain_isOk_iff]
    cases drain fed.2 <;> simp [Except.map]

/-- A list of tokens compiles exactly if its parentheses are balanced. -/
theorem compile_isOk_iff {ts : List Token} :
    (∃ program, compile ts = .ok program) ↔ depthAfter 0 ts = some 0 :=
  compileFrom_isOk_iff

end CellQuery
