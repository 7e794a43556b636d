import CellQuery.Proofs.Postfix.Rearrangement
import CellQuery.Proofs.Postfix.Unbalanced

/-!
# Groups in context

A group may stand wherever an operand may, whatever stands around it and within. Either leaves the
stack of the compiler as it was, so the tokens that follow meet the same stack, only at other
indexes. Indexes show in nothing but the position of an error: moving them by a map that keeps
neighbours together moves that position and changes no program (`compileFrom_moved`).

So the program of a list with a group in it is the one with an operand in the place of the group,
once that operand is replaced by the program of the group (`compile_hole`).
-/

namespace CellQuery

/-! ### Other indexes -/

/-- The same operator at another index. -/
def Pending.moved (f : Nat → Nat) (p : Pending) : Pending :=
  ⟨f p.position, p.op⟩

/-- The same error at another index. -/
def QueryError.moved (f : Nat → Nat) : QueryError → QueryError
  | unbalancedParentheses position => unbalancedParentheses (f position)
  | invalidExpression => invalidExpression

section Moved

variable (f : Nat → Nat) (stack : List Pending)

@[simp] theorem Pending.token_moved (p : Pending) : (p.moved f).token = p.token := rfl

@[simp] theorem Pending.isFloor_moved (p : Pending) : (p.moved f).isFloor = p.isFloor := rfl

@[simp] theorem Pending.bindsBefore_moved (p : Pending) (op : Operator) :
    (p.moved f).bindsBefore op = p.bindsBefore op := rfl

/-- Indexes that `f` keeps are kept. -/
theorem map_moved_of_fixed {stack : List Pending} (h : ∀ p ∈ stack, f p.position = p.position) :
    stack.map (·.moved f) = stack := by
  refine (List.map_congr_left fun p hp => ?_).trans (List.map_id stack)
  rw [Pending.moved, h p hp, id]

theorem closeGroup_moved : closeGroup (stack.map (·.moved f)) =
    (closeGroup stack).map fun closed => (closed.1, closed.2.map (·.moved f)) := by
  rcases noFloor_or_split stack with h | ⟨pending, floor, below, rfl, h, hf⟩
  · have hmoved : ∀ p ∈ stack.map (·.moved f), p.isFloor = false := by simpa using h
    rw [closeGroup_of_noFloor h, closeGroup_of_noFloor hmoved]
    rfl
  · have hmoved : ∀ p ∈ pending.map (·.moved f), p.isFloor = false := by simpa using h
    rw [List.map_append, List.map_cons, closeGroup_append h hf,
      closeGroup_append hmoved ((floor.isFloor_moved f).trans hf)]
    simp

theorem drain_moved : drain (stack.map (·.moved f)) = (drain stack).mapError (·.moved f) := by
  simp only [drain, List.find?_map, Function.comp_def, Pending.isFloor_moved]
  cases stack.find? Pending.isFloor with
  | none => simp [Except.mapError]
  | some p => rfl

theorem shift_moved (position : Nat) (t : Token) :
    shift (f position) (stack.map (·.moved f)) t =
      ((shift position stack t).map fun shifted =>
        (shifted.1, shifted.2.map (·.moved f))).mapError (·.moved f) := by
  cases t with
  | operand s => rfl
  | operator op =>
    by_cases hl : op = .lparen
    · subst hl
      rfl
    by_cases hr : op = .rparen
    · subst hr
      simp only [shift, closeGroup_moved]
      cases closeGroup stack <;> rfl
    · rw [shift_operator hl hr, shift_operator hl hr]
      simp only [List.takeWhile_map, List.dropWhile_map, Function.comp_def,
        Pending.bindsBefore_moved, List.map_map, Pending.token_moved]
      rfl

variable {f}

/-- Compiling reads nothing from the indexes but the position of an error. -/
theorem compileFrom_moved {position : Nat} (hf : ∀ i, position ≤ i → f (i + 1) = f i + 1)
    (ts : List Token) : compileFrom (f position) (stack.map (·.moved f)) ts =
      (compileFrom position stack ts).mapError (·.moved f) := by
  induction ts generalizing position stack with
  | nil => exact drain_moved f stack
  | cons t ts ih =>
    rw [compileFrom_cons, compileFrom_cons, shift_moved]
    cases shift position stack t with
    | error e => rfl
    | ok shifted =>
      have hrest := ih shifted.2 fun i (hi : position + 1 ≤ i) => hf i (by omega)
      rw [hf position (Nat.le_refl _)] at hrest
      simp only [Except.map, Except.mapError, Except.bind, hrest]
      cases compileFrom (position + 1) shifted.2 ts <;> rfl

end Moved

/-! ### Replacing an operand -/

/-- The program `inner` in the place of the operand `x`. -/
def replaceOperand (x : String) (inner program : List Token) : List Token :=
  program.flatMap fun t => if t = .operand x then inner else [t]

section Replace

variable {x : String} {inner program front back : List Token}

theorem replaceOperand_of_notMem (h : .operand x ∉ program) :
    replaceOperand x inner program = program := by
  have hkeep : ∀ t ∈ program, (if t = .operand x then inner else [t]) = [t] := by
    intro t ht
    refine if_neg ?_
    rintro rfl
    exact h ht
  rw [replaceOperand, List.flatMap_congr hkeep, List.flatMap_singleton']

theorem replaceOperand_hole (hfront : .operand x ∉ front) (hback : .operand x ∉ back) :
    replaceOperand x inner (front ++ .operand x :: back) = front ++ (inner ++ back) := by
  rw [replaceOperand, List.flatMap_append, List.flatMap_cons, if_pos rfl, ← replaceOperand,
    ← replaceOperand, replaceOperand_of_notMem hfront, replaceOperand_of_notMem hback]

end Replace

/-! ### What stands behind -/

/-- The index of a token when `k` tokens have come in at the index `n`. -/
def displaced (n k i : Nat) : Nat :=
  if i < n then i else i + k

theorem displaced_of_lt {n i : Nat} (h : i < n) (k : Nat) : displaced n k i = i :=
  if_pos h

theorem displaced_of_le {n i : Nat} (h : n ≤ i) (k : Nat) : displaced n k i = i + k :=
  if_neg (Nat.not_lt.mpr h)

/-- What waits from before the index `n` stays when the tokens behind that index are displaced. -/
theorem compileFrom_displaced {n : Nat} {stack : List Pending}
    (hs : ∀ p ∈ stack, p.position < n) (k : Nat) (ts : List Token) :
    compileFrom (n + 1 + k) stack ts =
      (compileFrom (n + 1) stack ts).mapError (·.moved (displaced n k)) := by
  have hnext : ∀ i, n + 1 ≤ i → displaced n k (i + 1) = displaced n k i + 1 := by
    intro i hi
    rw [displaced_of_le (by omega), displaced_of_le (by omega)]
    omega
  have hmoved := compileFrom_moved stack hnext ts
  rwa [map_moved_of_fixed _ fun p hp => displaced_of_lt (hs p hp) k,
    displaced_of_le (Nat.le_succ n)] at hmoved

/-! ### The place of a group -/

section Hole

variable {pre post ts program : List Token} {x : String}

/-- An operand that stands in one place stands in one place of the program. -/
theorem notMem_of_compile_hole {front back : List Token}
    (h : compile (pre ++ .operand x :: post) = .ok (front ++ .operand x :: back))
    (hpre : .operand x ∉ pre) (hpost : .operand x ∉ post) :
    .operand x ∉ front ∧ .operand x ∉ back := by
  have hcount := (bare_compile h).count_eq (.operand x)
  rw [bare, List.count_filter rfl, List.count_append, List.count_append, List.count_cons_self,
    List.count_cons_self, List.count_eq_zero_of_not_mem hpre,
    List.count_eq_zero_of_not_mem hpost] at hcount
  constructor
  · exact List.count_eq_zero.mp (by omega)
  · exact List.count_eq_zero.mp (by omega)

/-- A group in the place of an operand: its program takes the place of the operand, and an error
behind the operand is so much further back. -/
theorem compile_hole (hts : compile ts = .ok program) (hpre : .operand x ∉ pre)
    (hpost : .operand x ∉ post) : compile (pre ++ grouped ts ++ post) =
      ((compile (pre ++ .operand x :: post)).map (replaceOperand x program)).mapError
        (·.moved (displaced pre.length (ts.length + 1))) := by
  rw [List.append_assoc]
  cases hfeed : feed 0 [] pre with
  | error e =>
    have hfails := compile_append_of_error hfeed
    have hpre' := hfails []
    rw [List.append_nil] at hpre'
    obtain ⟨i, hi, rfl⟩ := exists_position_of_compile hpre'
    have hkept : displaced pre.length (ts.length + 1) i = i := displaced_of_lt hi _
    rw [hfails, hfails]
    simp only [Except.map, Except.mapError, QueryError.moved, hkept]
  | ok fed =>
    obtain ⟨out, stack⟩ := fed
    -- what waits in front of it has smaller indexes, which stay as they are
    obtain ⟨indexed, hemits⟩ := exists_emits_feed (List.forall_mem_nil _) hfeed
    have hearlier : ∀ p ∈ stack, p.position < pre.length := by simpa using hemits.earlier
    have hlength : pre.length + (grouped ts).length = pre.length + 1 + (ts.length + 1) := by
      simp only [grouped, List.length_cons, List.length_append, List.length_nil]
      omega
    -- operand and group both emit at once and leave the stack, so the rest is fed to the same one
    have hhole : compile (pre ++ .operand x :: post) =
        ((compileFrom (pre.length + 1) stack post).map (.operand x :: ·)).map (out ++ ·) := by
      rw [compile, compileFrom_append hfeed, compileFrom, Nat.zero_add]
    rw [hhole, compile, compileFrom_append hfeed, compileFrom_append (feed_grouped hts _ _),
      Nat.zero_add, hlength, compileFrom_displaced hearlier]
    cases hback : compileFrom (pre.length + 1) stack post with
    | error e => rfl
    | ok back =>
      rw [hback] at hhole
      obtain ⟨hout, hrest⟩ := notMem_of_compile_hole hhole hpre hpost
      simp only [Except.map, Except.mapError, replaceOperand_hole hout hrest]

/-- **A group compiles as a unit**, whatever stands around it and within. The list compiles exactly
if it does with an operand in the place of the group, and then to that program with the program of
the group in the place of the operand. If it does not, the same token is at fault. By itself a group
compiles like what stands within. -/
theorem compile_group_in_context (hts : compile ts = .ok program) (hpre : .operand x ∉ pre)
    (hpost : .operand x ∉ post) :
    (∀ out, compile (pre ++ grouped ts ++ post) = .ok out ↔
      ∃ q, compile (pre ++ .operand x :: post) = .ok q ∧ out = replaceOperand x program q) ∧
    (∀ err, compile (pre ++ grouped ts ++ post) = .error err ↔
      ∃ i, compile (pre ++ .operand x :: post) = .error (.unbalancedParentheses i) ∧
        err = .unbalancedParentheses (if i < pre.length then i else i + (ts.length + 1))) ∧
    compile (grouped ts) = compile ts := by
  have hwhole := compile_hole hts hpre hpost
  refine ⟨fun out => ?_, fun err => ?_, (compile_grouped hts).trans hts.symm⟩
  · rw [hwhole]
    cases compile (pre ++ .operand x :: post) with
    | error e => simp [Except.map, Except.mapError]
    | ok q => simp [Except.map, Except.mapError, eq_comm]
  · rw [hwhole]
    cases hhole : compile (pre ++ .operand x :: post) with
    | ok q => simp [Except.map, Except.mapError]
    | error e =>
      obtain ⟨i, -, rfl⟩ := exists_position_of_compile hhole
      simp [Except.map, Except.mapError, QueryError.moved, displaced, eq_comm]

/-- `a NOT (b OR c x)`, which is no expression, in front of `AND d` and of a closing parenthesis too
many. The operand `x` occurs in the group. -/
theorem compile_group_in_context_malformed :
    let pre : List Token := [.operand "a", .operator .not]
    let ts : List Token := [.operand "b", .operator .or, .operand "c", .operand "x"]
    let post : List Token := [.operator .and, .operand "d"]
    let stray : List Token := [.operator .rparen, .operand "d"]
    compile ts = .ok [.operand "b", .operand "c", .operand "x", .operator .or] ∧
      .operand "x" ∉ pre ∧ .operand "x" ∉ post ∧ .operand "x" ∉ stray ∧
      compile (pre ++ grouped ts ++ post) = .ok [.operand "a", .operand "b", .operand "c",
        .operand "x", .operator .or, .operator .not, .operand "d", .operator .and] ∧
      compile (pre ++ grouped ts ++ stray) = .error (.unbalancedParentheses 8) := by
  intro pre ts post stray
  have hts : compile ts = .ok [.operand "b", .operand "c", .operand "x", .operator .or] := rfl
  have hpre : .operand "x" ∉ pre := by decide
  have hpost : .operand "x" ∉ post := by decide
  have hstray : .operand "x" ∉ stray := by decide
  exact ⟨hts, hpre, hpost, hstray,
    ((compile_group_in_context hts hpre hpost).1 _).mpr ⟨_, rfl, rfl⟩,
    ((compile_group_in_context hts hpre hstray).2.1 _).mpr ⟨3, rfl, rfl⟩⟩

end Hole

end CellQuery
