import CellQuery.Proofs.Postfix.Feed

/-!
# Groups

Between parentheses a list of tokens compiles as it does by itself. What is fed above a floor does
not reach below it, and does not depend on the index at which it begins (`Sealed.feed`): the stack
above the floor is the stack that feeding the list by itself would leave, only later. So a group
emits the program of what stands inside and leaves the stack as it was (`feed_grouped`).
-/

namespace CellQuery

/-- The tokens between parentheses. -/
def grouped (ts : List Token) : List Token :=
  .operator .lparen :: (ts ++ [.operator .rparen])

/-! ### Later on the stack -/

/-- The same operator, `k` tokens later. -/
def Pending.later (k : Nat) (p : Pending) : Pending :=
  ⟨p.position + k, p.op⟩

@[simp] theorem Pending.token_later (k : Nat) (p : Pending) : (p.later k).token = p.token := rfl

@[simp] theorem Pending.isFloor_later (p : Pending) (k : Nat) :
    (p.later k).isFloor = p.isFloor := rfl

@[simp] theorem Pending.bindsBefore_later (k : Nat) (p : Pending) (op : Operator) :
    (p.later k).bindsBefore op = p.bindsBefore op := rfl

theorem map_token_map_later (k : Nat) (stack : List Pending) :
    (stack.map (·.later k)).map Pending.token = stack.map Pending.token := by
  simp

/-! ### Above a floor -/

/-- Nothing reaches into a stack that is empty or has a floor on top. -/
def Sealed (stack : List Pending) : Prop :=
  ∀ p ∈ stack.head?, p.isFloor = true

theorem sealed_cons {floor : Pending} (hf : floor.isFloor = true) (stack : List Pending) :
    Sealed (floor :: stack) := by
  rintro p ⟨⟩
  exact hf

namespace Sealed

variable {below : List Pending} (hb : Sealed below)
include hb

theorem takeWhile_append (k : Nat) (stack : List Pending) (op : Operator) :
    (stack.map (·.later k) ++ below).takeWhile (·.bindsBefore op) =
      (stack.takeWhile (·.bindsBefore op)).map (·.later k) := by
  induction stack with
  | nil =>
    cases below with
    | nil => rfl
    | cons p below => simp [Pending.bindsBefore, hb p rfl]
  | cons p stack ih =>
    by_cases h : p.bindsBefore op = true
    · simpa [h] using ih
    · simp [h]

theorem dropWhile_append (k : Nat) (stack : List Pending) (op : Operator) :
    (stack.map (·.later k) ++ below).dropWhile (·.bindsBefore op) =
      (stack.dropWhile (·.bindsBefore op)).map (·.later k) ++ below := by
  induction stack with
  | nil =>
    cases below with
    | nil => rfl
    | cons p below => simp [Pending.bindsBefore, hb p rfl]
  | cons p stack ih =>
    by_cases h : p.bindsBefore op = true
    · simpa [h] using ih
    · simp [h]

/-- A token does above a sealed stack, and `k` tokens later, what it does by itself. -/
theorem shift {position : Nat} {stack stack' : List Pending} {t : Token} {out : List Token}
    (h : CellQuery.shift position stack t = .ok (out, stack')) (k : Nat) :
    CellQuery.shift (position + k) (stack.map (·.later k) ++ below) t =
      .ok (out, stack'.map (·.later k) ++ below) := by
  cases t with
  | operand s =>
    cases h
    rfl
  | operator op =>
    -- what is below is out of reach: only a closing parenthesis pops a floor, and it pops the first
    -- one
    by_cases hl : op = .lparen
    · subst hl
      cases h
      rfl
    by_cases hr : op = .rparen
    · subst hr
      rcases noFloor_or_split stack with hs | ⟨pending, floor, rest, rfl, hs, hf⟩
      · simp [CellQuery.shift, closeGroup_of_noFloor hs] at h
      · simp only [CellQuery.shift, closeGroup_append hs hf] at h
        cases h
        have hlater : ∀ p ∈ pending.map (·.later k), p.isFloor = false := by simpa using hs
        rw [List.map_append, List.map_cons, List.append_assoc, List.cons_append]
        simp only [CellQuery.shift]
        rw [closeGroup_append hlater ((floor.isFloor_later k).trans hf), map_token_map_later]
    · rw [shift_operator hl hr] at h ⊢
      cases h
      rw [hb.takeWhile_append, hb.dropWhile_append, map_token_map_later]
      rfl

/-- The same for a list of tokens. -/
theorem feed {position : Nat} {stack stack' : List Pending} {ts out : List Token}
    (h : CellQuery.feed position stack ts = .ok (out, stack')) (k : Nat) :
    CellQuery.feed (position + k) (stack.map (·.later k) ++ below) ts =
      .ok (out, stack'.map (·.later k) ++ below) := by
  induction ts generalizing position stack out with
  | nil =>
    cases h
    rfl
  | cons t ts ih =>
    obtain ⟨first, between, last, hshift, hfeed, rfl⟩ := feed_cons_eq_ok_iff.mp h
    have hrest := ih hfeed
    rw [show position + 1 + k = position + k + 1 by omega] at hrest
    exact feed_cons_eq_ok_iff.mpr ⟨first, _, last, hb.shift hshift k, hrest, rfl⟩

end Sealed

/-! ### A group -/

/-- A group emits the program of what stands inside it, and nothing is left waiting. -/
theorem feed_grouped {ts program : List Token} (h : compile ts = .ok program) (position : Nat)
    (stack : List Pending) : feed position stack (grouped ts) = .ok (program, stack) := by
  obtain ⟨out, waiting, hfeed, hfloor, rfl⟩ := compileFrom_eq_ok_iff.mp h
  have hseal : Sealed (⟨position, .lparen⟩ :: stack) := sealed_cons rfl stack
  have hinside := hseal.feed hfeed (position + 1)
  rw [Nat.zero_add, List.map_nil, List.nil_append] at hinside
  have hlater : ∀ p ∈ waiting.map (·.later (position + 1)), p.isFloor = false := by
    simpa using hfloor
  have hclose : closeGroup (waiting.map (·.later (position + 1)) ++ ⟨position, .lparen⟩ :: stack) =
      some (waiting.map Pending.token, stack) := by
    rw [closeGroup_append hlater rfl, map_token_map_later]
  rw [grouped, feed_cons]
  simp only [CellQuery.shift, Except.bind, List.nil_append]
  rw [feed_append_of_eq_ok hinside, feed_cons]
  simp [CellQuery.shift, hclose, Except.bind, Except.map]

theorem compile_grouped {ts program : List Token} (h : compile ts = .ok program) :
    compile (grouped ts) = .ok program := by
  rw [compile, compileFrom_eq_feed, feed_grouped h]
  simp [drain, Except.bind, Except.map]

end CellQuery
