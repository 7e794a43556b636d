import CellQuery.Proofs.Grammar.Parenthesis
import CellQuery.Proofs.Postfix.Group

/-!
# Unbalanced parentheses

Compiling fails exactly where the parentheses do, whatever the other tokens are, and its error names
the parenthesis at fault (`compile_error_at_fault`). A closing parenthesis without a partner finds
no floor on the stack (`compile_of_close`). Of the opening ones without a partner the last is the
floor that is left on top when the tokens end (`compile_of_open`): what is fed above a floor by
itself leaves no floor there.
-/

namespace CellQuery

theorem compile_isOk_iff_balanced {ts : List Token} :
    (∃ program, compile ts = .ok program) ↔ Balanced ts :=
  compile_isOk_iff.trans balanced_iff.symm

/-- A front that closes no parenthesis too many is fed, and leaves as many floors as it leaves
open. -/
theorem exists_feed_of_depthAfter {ts : List Token} {d : Nat} (h : depthAfter 0 ts = some d) :
    ∃ out stack, feed 0 [] ts = .ok (out, stack) ∧ floors stack = d := by
  have hfed := depthAfter_feed 0 [] ts
  rw [show floors [] = 0 from rfl, h] at hfed
  cases hfeed : feed 0 [] ts with
  | error e =>
    rw [hfeed] at hfed
    cases hfed
  | ok fed =>
    rw [hfeed] at hfed
    exact ⟨fed.1, fed.2, rfl, (Option.some.inj hfed).symm⟩

theorem compile_of_close {before : List Token} (h : Balanced before) (after : List Token) :
    compile (before ++ .operator .rparen :: after) =
      .error (.unbalancedParentheses before.length) := by
  obtain ⟨out, stack, hfeed, hfloors⟩ := exists_feed_of_depthAfter (balanced_iff.mp h)
  have hshift : shift before.length stack (.operator .rparen) =
      .error (.unbalancedParentheses before.length) := by
    simp only [shift, closeGroup_of_noFloor (floors_eq_zero.mp hfloors)]
  rw [compile, compileFrom_eq_feed, feed_append_of_eq_ok hfeed, feed_cons, Nat.zero_add, hshift]
  rfl

/-- What is left when the tokens end is blamed on its topmost floor. -/
theorem drain_of_floor {pending : List Pending} (h : ∀ p ∈ pending, p.isFloor = false)
    {floor : Pending} (hf : floor.isFloor = true) (stack : List Pending) :
    drain (pending ++ floor :: stack) = .error (.unbalancedParentheses floor.position) := by
  have hpending : pending.find? Pending.isFloor = none :=
    List.find?_eq_none.mpr fun p hp => Bool.not_eq_true _ ▸ h p hp
  have hfind : (pending ++ floor :: stack).find? Pending.isFloor = some floor := by
    rw [List.find?_append, hpending, Option.none_or, List.find?_cons_of_pos hf]
  unfold drain
  rw [hfind]

theorem compile_of_open {before after : List Token} {d : Nat}
    (hbefore : depthAfter 0 before = some d) (hafter : Balanced after) :
    compile (before ++ .operator .lparen :: after) =
      .error (.unbalancedParentheses before.length) := by
  obtain ⟨out, stack, hfeed, -⟩ := exists_feed_of_depthAfter hbefore
  obtain ⟨out', waiting, hfeed', hfloors⟩ := exists_feed_of_depthAfter (balanced_iff.mp hafter)
  have hseal : Sealed (⟨before.length, .lparen⟩ :: stack) := sealed_cons rfl stack
  have habove := hseal.feed hfeed' (before.length + 1)
  rw [Nat.zero_add, List.map_nil, List.nil_append] at habove
  have hlater : ∀ p ∈ waiting.map (·.later (before.length + 1)), p.isFloor = false := by
    simpa using floors_eq_zero.mp hfloors
  have hdrain : drain (waiting.map (·.later (before.length + 1)) ++ ⟨before.length, .lparen⟩ :: stack) =
      .error (.unbalancedParentheses before.length) := drain_of_floor hlater rfl stack
  rw [compile, compileFrom_eq_feed, feed_append_of_eq_ok hfeed, feed_cons, Nat.zero_add]
  simp only [shift, Except.bind, Except.map, habove, hdrain]

/-- Compiling fails in one way only, at one of the tokens. -/
theorem exists_position_of_compile {ts : List Token} {err : QueryError}
    (h : compile ts = .error err) : ∃ i < ts.length, err = .unbalancedParentheses i := by
  rcases balanced_or_split ts with hb | ⟨before, after, rfl, hb⟩ | ⟨before, after, d, rfl, hd, hb⟩
  · obtain ⟨program, hok⟩ := compile_isOk_iff_balanced.mpr hb
    cases hok.symm.trans h
  · rw [compile_of_close hb] at h
    exact ⟨before.length, by simp, (Except.error.inj h).symm⟩
  · rw [compile_of_open hd hb] at h
    exact ⟨before.length, by simp, (Except.error.inj h).symm⟩

/-- There is only one position to blame. -/
theorem error_iff_of_fault {ts : List Token} {q : Nat}
    (h : compile ts = .error (.unbalancedParentheses q)) (hq : Fault ts q) {e : QueryError} :
    compile ts = .error e ↔ ∃ p, e = .unbalancedParentheses p ∧ Fault ts p := by
  constructor
  · intro herror
    exact ⟨q, Except.error.inj (herror.symm.trans h), hq⟩
  · rintro ⟨p, rfl, hp⟩
    rw [h, hq.unique hp]

/-- **Errors of compiling.** A list of tokens compiles exactly if its parentheses are balanced. If
they are not, the error has the position of the first closing parenthesis without a partner, or
where all have one, that of the last opening parenthesis without a partner. -/
theorem compile_error_at_fault (ts : List Token) :
    ((∃ program, compile ts = .ok program) ↔ Balanced ts) ∧
    ∀ e, compile ts = .error e ↔ ∃ p, e = .unbalancedParentheses p ∧
      (IsLeast {j | StrayClose ts j} p ∨
        (∀ j, ¬ StrayClose ts j) ∧ IsGreatest {i | StrayOpen ts i} p) := by
  refine ⟨compile_isOk_iff_balanced, fun e => ?_⟩
  show _ ↔ ∃ p, e = .unbalancedParentheses p ∧ Fault ts p
  rcases balanced_or_split ts with h | ⟨before, after, rfl, h⟩ | ⟨before, after, d, rfl, hd, h⟩
  · obtain ⟨program, hok⟩ := compile_isOk_iff_balanced.mpr h
    constructor
    · intro herror
      cases hok.symm.trans herror
    · rintro ⟨p, -, hfault⟩
      exact absurd hfault (h.not_fault p)
  · exact error_iff_of_fault (compile_of_close h after) (fault_of_close h after)
  · exact error_iff_of_fault (compile_of_open hd h) (fault_of_open hd h)

example : compile [.operator .lparen, .operand "a", .operator .lparen, .operand "b",
    .operator .rparen, .operator .lparen, .operand "c"] = .error (.unbalancedParentheses 5) := rfl

end CellQuery
