import CellQuery.Proofs.Postfix.Feed
import Mathlib.Data.List.Perm.Basic

/-!
# What compiling moves

A program has the tokens of the query but for the parentheses (`bare`), in another order. To say
which token went where, each is emitted together with its index in the query (`Emits`): what has
been emitted and what waits is then what was fed, index by index, and nothing with a higher index
stands before an operand, which is emitted as soon as it is read. The invariant has one lemma for a
token (`exists_emits_shift`) and one for a list of tokens (`exists_emits_feed`).

So operands keep their order, and an operator moves only towards the end (`compile_rearranges`).
-/

namespace CellQuery

/-- The tokens that are not parentheses. -/
def bare (ts : List Token) : List Token :=
  ts.filter (!·.isParen)

/-- The same tokens, each with its index, the first of the list being at `position`. -/
def bareFrom (position : Nat) (ts : List Token) : List (Token × Nat) :=
  (ts.zipIdx position).filter (!·.1.isParen)

/-- A waiting operator with the index of its token. -/
def Pending.indexed (p : Pending) : Token × Nat :=
  (p.token, p.position)

/-- The tokens on a stack that are still to be emitted. -/
def waiting (stack : List Pending) : List (Token × Nat) :=
  (stack.filter (!·.isFloor)).map Pending.indexed

/-- No token of a higher index stands before an operand. -/
def OperandsInTime (indexed : List (Token × Nat)) : Prop :=
  indexed.Pairwise fun a b => b.1.isOperand = true → a.2 < b.2

/-! ### Lists of indexed tokens -/

section Indexed

variable {position : Nat} {stack : List Pending} {a b : Token × Nat} {ts : List Token}

theorem map_fst_bareFrom (position : Nat) (ts : List Token) :
    (bareFrom position ts).map Prod.fst = bare ts := by
  rw [bare, ← List.zipIdx_map_fst position ts, List.filter_map, List.zipIdx_map_fst]
  rfl

theorem bareFrom_append (position : Nat) (ts us : List Token) :
    bareFrom position (ts ++ us) = bareFrom position ts ++ bareFrom (position + ts.length) us := by
  rw [bareFrom, List.zipIdx_append, List.filter_append]
  rfl

@[simp] theorem bareFrom_nil (position : Nat) : bareFrom position [] = [] := rfl

theorem bareFrom_singleton (position : Nat) (t : Token) :
    bareFrom position [t] = if t.isParen then [] else [(t, position)] := by
  cases h : t.isParen <;> simp [bareFrom, h]

theorem mem_bareFrom (h : a ∈ bareFrom position ts) :
    position ≤ a.2 ∧ a.2 < position + ts.length ∧ a.1.isParen = false := by
  obtain ⟨hmem, hparen⟩ := List.mem_filter.mp h
  have hlt := List.snd_lt_add_of_mem_zipIdx hmem
  exact ⟨List.le_snd_of_mem_zipIdx hmem, by omega, by simpa using hparen⟩

theorem isParen_eq_false {op : Operator} (hl : op ≠ .lparen) (hr : op ≠ .rparen) :
    (Token.operator op).isParen = false := by
  cases op with
  | lparen => exact absurd rfl hl
  | rparen => exact absurd rfl hr
  | and => rfl
  | or => rfl
  | not => rfl

@[simp] theorem waiting_nil : waiting [] = [] := rfl

theorem waiting_append (a b : List Pending) : waiting (a ++ b) = waiting a ++ waiting b := by
  rw [waiting, List.filter_append, List.map_append]
  rfl

theorem waiting_cons (p : Pending) (stack : List Pending) :
    waiting (p :: stack) = if p.isFloor then waiting stack else p.indexed :: waiting stack := by
  cases h : p.isFloor <;> simp [waiting, h]

theorem map_fst_waiting (h : ∀ p ∈ stack, p.isFloor = false) :
    (waiting stack).map Prod.fst = stack.map Pending.token := by
  rw [waiting, List.filter_eq_self.mpr fun p hp => by simp [h p hp], List.map_map]
  rfl

/-- Only operators wait. -/
theorem isOperand_of_mem_waiting (h : a ∈ waiting stack) : a.1.isOperand = false := by
  obtain ⟨p, -, rfl⟩ := List.mem_map.mp h
  rfl

theorem position_of_mem_waiting (h : a ∈ waiting stack) : ∃ p ∈ stack, p.position = a.2 := by
  obtain ⟨p, hp, rfl⟩ := List.mem_map.mp h
  exact ⟨p, (List.mem_filter.mp hp).1, rfl⟩

/-- Without operands there is nothing to be late for. -/
theorem operandsInTime_of_operators {indexed : List (Token × Nat)}
    (h : ∀ a ∈ indexed, a.1.isOperand = false) : OperandsInTime indexed := by
  refine List.Pairwise.imp_of_mem ?_ (List.pairwise_of_forall fun _ _ => trivial)
  intro a b _ hb _ hoperand
  rw [h b hb] at hoperand
  cases hoperand

end Indexed

/-! ### The pass -/

/-- What feeding `ts` above `stack` emits, each token with its index. -/
structure Emits (position : Nat) (stack : List Pending) (ts out : List Token)
    (stack' : List Pending) (indexed : List (Token × Nat)) : Prop where
  tokens : indexed.map Prod.fst = out
  perm : (indexed ++ waiting stack').Perm (waiting stack ++ bareFrom position ts)
  inTime : OperandsInTime indexed
  earlier : ∀ p ∈ stack', p.position < position + ts.length

section Pass

variable {position : Nat} {stack stack' : List Pending} {t : Token} {ts out : List Token}
variable {indexed : List (Token × Nat)} {a : Token × Nat}

theorem Emits.mem_or_mem (h : Emits position stack ts out stack' indexed) (ha : a ∈ indexed) :
    a ∈ waiting stack ∨ a ∈ bareFrom position ts :=
  List.mem_append.mp (h.perm.subset (List.mem_append_left _ ha))

theorem Emits.lt (h : Emits position stack ts out stack' indexed)
    (hs : ∀ p ∈ stack, p.position < position) (ha : a ∈ indexed) : a.2 < position + ts.length := by
  rcases h.mem_or_mem ha with hwaiting | hnew
  · obtain ⟨p, hp, heq⟩ := position_of_mem_waiting hwaiting
    have hlt := hs p hp
    omega
  · exact (mem_bareFrom hnew).2.1

theorem Emits.le_of_isOperand (h : Emits position stack ts out stack' indexed) (ha : a ∈ indexed)
    (hoperand : a.1.isOperand = true) : position ≤ a.2 := by
  rcases h.mem_or_mem ha with hwaiting | hnew
  · rw [isOperand_of_mem_waiting hwaiting] at hoperand
    cases hoperand
  · exact (mem_bareFrom hnew).1

/-- A token emits what it pops, and only operators wait to be popped. -/
theorem emits_popped {popped left : List Pending} (hpopped : ∀ p ∈ popped, p.isFloor = false)
    (hperm : (waiting popped ++ waiting left).Perm (waiting stack ++ bareFrom position [t]))
    (hleft : ∀ p ∈ left, p.position < position + 1) :
    Emits position stack [t] (popped.map Pending.token) left (waiting popped) :=
  ⟨map_fst_waiting hpopped, hperm, operandsInTime_of_operators fun _ => isOperand_of_mem_waiting,
    hleft⟩

theorem exists_emits_shift (hs : ∀ p ∈ stack, p.position < position)
    (h : shift position stack t = .ok (out, stack')) :
    ∃ indexed, Emits position stack [t] out stack' indexed := by
  have hlater : ∀ p ∈ stack, p.position < position + 1 := fun p hp => Nat.lt_succ_of_lt (hs p hp)
  cases t with
  | operand s =>
    cases h
    exact ⟨[(.operand s, position)], rfl, List.perm_append_comm, List.pairwise_singleton _ _, hlater⟩
  | operator op =>
    have hnew : ∀ left : List Pending, (∀ p ∈ left, p.position < position + 1) →
        ∀ p ∈ ⟨position, op⟩ :: left, p.position < position + 1 := fun left hleft =>
      List.forall_mem_cons.mpr ⟨Nat.lt_succ_self position, hleft⟩
    by_cases hl : op = .lparen
    · subst hl
      cases h
      refine ⟨waiting [], emits_popped (List.forall_mem_nil _) ?_ (hnew stack hlater)⟩
      simp [waiting_cons, bareFrom_singleton, Pending.isFloor, Token.isParen]
    by_cases hr : op = .rparen
    · subst hr
      -- the parenthesis pops up to its partner, and both vanish
      rcases noFloor_or_split stack with hnone | ⟨pending, floor, below, rfl, hpending, hf⟩
      · simp [shift, closeGroup_of_noFloor hnone] at h
      · simp only [shift, closeGroup_append hpending hf] at h
        cases h
        refine ⟨_, emits_popped hpending ?_ fun p hp => hlater p ?_⟩
        · simp [waiting_append, waiting_cons, hf, bareFrom_singleton, Token.isParen]
        · exact List.mem_append_right _ (List.mem_cons_of_mem _ hp)
    · rw [shift_operator hl hr] at h
      cases h
      -- what binds before the operator is emitted, and the operator takes its place
      have hpopped : ∀ p ∈ stack.takeWhile (·.bindsBefore op), p.isFloor = false := fun p hp =>
        isFloor_of_bindsBefore (List.mem_takeWhile_imp hp)
      have hfloor : (⟨position, op⟩ : Pending).isFloor = false := beq_false_of_ne hl
      refine ⟨_, emits_popped hpopped ?_ (hnew _ fun p hp => hlater p ?_)⟩
      · rw [bareFrom_singleton, isParen_eq_false hl hr, waiting_cons, hfloor]
        refine List.perm_middle.trans (List.Perm.trans ?_ List.perm_append_comm)
        rw [← waiting_append, List.takeWhile_append_dropWhile]
        rfl
      · exact (List.dropWhile_sublist _).subset hp

theorem exists_emits_feed (hs : ∀ p ∈ stack, p.position < position)
    (h : feed position stack ts = .ok (out, stack')) :
    ∃ indexed, Emits position stack ts out stack' indexed := by
  induction ts generalizing position stack out with
  | nil =>
    cases h
    exact ⟨[], rfl, by simp, .nil, hs⟩
  | cons t ts ih =>
    obtain ⟨first, between, last, hshift, hfeed, rfl⟩ := feed_cons_eq_ok_iff.mp h
    obtain ⟨firsts, hfirst⟩ := exists_emits_shift hs hshift
    have hbetween : ∀ p ∈ between, p.position < position + 1 := hfirst.earlier
    obtain ⟨lasts, hlast⟩ := ih hbetween hfeed
    refine ⟨firsts ++ lasts, ?_, ?_, ?_, fun p hp => ?_⟩
    · rw [List.map_append, hfirst.tokens, hlast.tokens]
    · rw [← List.singleton_append, bareFrom_append, List.append_assoc]
      refine (hlast.perm.append_left firsts).trans ?_
      rw [← List.append_assoc, ← List.append_assoc]
      exact hfirst.perm.append_right _
    · -- an operand that comes later was read later
      refine List.pairwise_append.mpr ⟨hfirst.inTime, hlast.inTime, fun a ha b hb hoperand => ?_⟩
      have hlt : a.2 < position + 1 := hfirst.lt hs ha
      have hle := hlast.le_of_isOperand hb hoperand
      omega
    · have hearlier := hlast.earlier p hp
      rw [List.length_cons]
      omega

/-- A program, token by token with the indexes in the query. -/
theorem exists_indexed_of_compile {program : List Token} (h : compile ts = .ok program) :
    ∃ indexed : List (Token × Nat), indexed.map Prod.fst = program ∧
      indexed.Perm (bareFrom 0 ts) ∧ OperandsInTime indexed := by
  obtain ⟨out, stack, hfeed, hfloor, rfl⟩ := compileFrom_eq_ok_iff.mp h
  obtain ⟨indexed, hemits⟩ := exists_emits_feed (List.forall_mem_nil _) hfeed
  refine ⟨indexed ++ waiting stack, ?_, hemits.perm, ?_⟩
  · rw [List.map_append, hemits.tokens, map_fst_waiting hfloor]
  · refine List.pairwise_append.mpr ⟨hemits.inTime,
      operandsInTime_of_operators fun _ => isOperand_of_mem_waiting, fun a _ b hb hoperand => ?_⟩
    rw [isOperand_of_mem_waiting hb] at hoperand
    cases hoperand

end Pass

/-! ### Programs -/

section Program

variable {ts program : List Token} {indexed : List (Token × Nat)} {a b : Token × Nat}

theorem bare_compile (h : compile ts = .ok program) : program.Perm (bare ts) := by
  obtain ⟨indexed, rfl, hperm, -⟩ := exists_indexed_of_compile h
  rw [← map_fst_bareFrom 0]
  exact hperm.map Prod.fst

theorem mem_compile_iff (h : compile ts = .ok program) {t : Token} (ht : t.isParen = false) :
    t ∈ program ↔ t ∈ ts := by
  have hmem := (bare_compile h).mem_iff (a := t)
  simpa [bare, ht] using hmem

theorem isParen_of_mem_compile (h : compile ts = .ok program) {t : Token} (ht : t ∈ program) :
    t.isParen = false := by
  have hbare := (bare_compile h).subset ht
  simpa using (List.mem_filter.mp hbare).2

/-- What has a higher index than an operand stands behind it. -/
theorem OperandsInTime.pair_sublist (h : OperandsInTime indexed) (ha : a ∈ indexed)
    (hb : b ∈ indexed) (hoperand : a.1.isOperand = true) (hlt : a.2 < b.2) :
    [a, b].Sublist indexed := by
  obtain ⟨front, back, rfl⟩ := List.append_of_mem ha
  -- in front of the operand all indexes are smaller than its own
  have hbefore : b ∉ front := fun hmem => by
    have hgt := (List.pairwise_append.mp h).2.2 b hmem a List.mem_cons_self hoperand
    omega
  have hback : b ∈ back := by
    rcases List.mem_cons.mp ((List.mem_append.mp hb).resolve_left hbefore) with rfl | hback
    · omega
    · exact hback
  exact ((List.singleton_sublist.mpr hback).cons_cons a).trans (List.sublist_append_right front _)

theorem pairwise_bareFrom (position : Nat) (ts : List Token) :
    (bareFrom position ts).Pairwise fun a b => a.2 < b.2 := by
  refine List.Pairwise.filter _ (List.pairwise_map.mp ?_)
  rw [List.zipIdx_map_snd]
  exact List.pairwise_lt_range' 1

/-- The operands stand in the order of their indexes, so their order is that of the query. -/
theorem OperandsInTime.filter_eq (h : OperandsInTime indexed) {rest : List (Token × Nat)}
    (hrest : rest.Pairwise fun a b => a.2 < b.2) (hperm : indexed.Perm rest) :
    indexed.filter (·.1.isOperand) = rest.filter (·.1.isOperand) := by
  refine List.Perm.eq_of_pairwise (fun a b _ _ hab hba => ?_) ?_ (hrest.filter _)
    (hperm.filter _)
  · exact absurd hba (Nat.not_lt.mpr (Nat.le_of_lt hab))
  · refine List.Pairwise.imp_of_mem ?_ (List.Pairwise.filter _ h)
    intro a b _ hb hab
    exact hab (List.mem_filter.mp hb).2

theorem operands_map_fst (indexed : List (Token × Nat)) :
    operands (indexed.map Prod.fst) =
      (indexed.filter (·.1.isOperand)).filterMap (·.1.operand?) := by
  rw [operands, List.filterMap_map, List.filterMap_filter]
  refine List.filterMap_congr fun a _ => ?_
  cases ha : a.1 <;> simp [ha, Token.isOperand, Token.operand?]

theorem operands_bare (ts : List Token) : operands (bare ts) = operands ts := by
  rw [operands, operands, bare, List.filterMap_filter]
  refine List.filterMap_congr fun t _ => ?_
  cases t with
  | operand s => rfl
  | operator op => simp [Token.operand?]

theorem operands_compile (h : compile ts = .ok program) : operands program = operands ts := by
  obtain ⟨indexed, rfl, hperm, htime⟩ := exists_indexed_of_compile h
  rw [operands_map_fst, htime.filter_eq (pairwise_bareFrom 0 ts) hperm, ← operands_map_fst,
    map_fst_bareFrom, operands_bare]

/-- In front of an operand stands nothing but what stood there before, and the operands are all of
them. Behind it stands all that stood behind it. -/
theorem OperandsInTime.around_operand {before after : List Token} {s : String}
    (h : OperandsInTime indexed)
    (hperm : indexed.Perm (bareFrom 0 (before ++ .operand s :: after))) :
    ∃ front back, indexed = front ++ (.operand s, before.length) :: back ∧
      front.filter (·.1.isOperand) = (bareFrom 0 before).filter (·.1.isOperand) ∧
      (bareFrom (before.length + 1) after).Subperm back := by
  have hsplit : bareFrom 0 (before ++ .operand s :: after) =
      bareFrom 0 before ++ (.operand s, before.length) :: bareFrom (before.length + 1) after := by
    rw [bareFrom_append, ← List.singleton_append, bareFrom_append, bareFrom_singleton]
    simp [Token.isParen]
  have hpairs := pairwise_bareFrom 0 (before ++ .operand s :: after)
  rw [hsplit] at hperm hpairs
  obtain ⟨front, back, rfl⟩ := List.append_of_mem
    (hperm.mem_iff.mpr (List.mem_append_right _ List.mem_cons_self))
  obtain ⟨-, hback, hcross⟩ := List.pairwise_append.mp h
  have hfront : ∀ a ∈ front, a.2 < before.length := fun a ha =>
    hcross a ha _ List.mem_cons_self rfl
  refine ⟨front, back, rfl, ?_, ?_⟩
  · have hoperands := h.filter_eq hpairs hperm
    rw [List.filter_append, List.filter_append, List.filter_cons_of_pos rfl,
      List.filter_cons_of_pos rfl] at hoperands
    refine ((List.append_cons_inj_of_notMem ?_ ?_).mp hoperands).1
    · intro hmem
      exact Nat.lt_irrefl _ (hfront _ (List.mem_filter.mp hmem).1)
    · intro hmem
      exact Nat.lt_irrefl _ ((List.pairwise_cons.mp hback).1 _ (List.mem_filter.mp hmem).1 rfl)
  -- what was read behind it is not in front, and no two tokens have one index
  · refine List.subperm_of_subset ?_ fun b hb => ?_
    · exact (pairwise_bareFrom _ after).imp fun hlt heq => by
        rw [heq] at hlt
        exact Nat.lt_irrefl _ hlt
    · have hlt := (mem_bareFrom hb).1
      rcases List.mem_append.mp (hperm.mem_iff.mpr
        (List.mem_append_right _ (List.mem_cons_of_mem _ hb))) with hmem | hmem
      · have hgt := hfront b hmem
        omega
      · rcases List.mem_cons.mp hmem with rfl | hmem
        · exact absurd hlt (Nat.not_succ_le_self _)
        · exact hmem

theorem compile_around_operand {before after : List Token} {s : String}
    (h : compile (before ++ .operand s :: after) = .ok program) :
    ∃ before' after', program = before' ++ .operand s :: after' ∧
      operands before' = operands before ∧
      ∀ t, t.isParen = false → after.count t ≤ after'.count t := by
  obtain ⟨indexed, rfl, hperm, htime⟩ := exists_indexed_of_compile h
  obtain ⟨front, back, rfl, hfront, hback⟩ := htime.around_operand hperm
  refine ⟨front.map Prod.fst, back.map Prod.fst, by simp, ?_, fun t ht => ?_⟩
  · rw [operands_map_fst, hfront, ← operands_map_fst, map_fst_bareFrom, operands_bare]
  · calc after.count t
        _ = (bare after).count t := (List.count_filter (by simpa using ht)).symm
        _ = (bareFrom (before.length + 1) after).countP ((· == t) ∘ Prod.fst) := by
          rw [← map_fst_bareFrom (before.length + 1), List.count, List.countP_map]
        _ ≤ back.countP ((· == t) ∘ Prod.fst) := hback.countP_le _
        _ = (back.map Prod.fst).count t := by rw [List.count, List.countP_map]

/-- **Compiling rearranges.** The tokens of a query are matched one to one with those of its
program, but for the parentheses, of which the program has none. The operands keep their order, and
whatever follows an operand in the query follows it in the program: of each operator at least as
many. -/
theorem compile_rearranges (h : compile ts = .ok program) :
    (∃ indexed : List (Token × Nat), indexed.map Prod.fst = program ∧
      indexed.Perm (ts.zipIdx.filter (!·.1.isParen)) ∧
      ∀ a ∈ indexed, ∀ b ∈ indexed, a.1.isOperand = true → a.2 < b.2 →
        [a, b].Sublist indexed) ∧
    program.Perm (ts.filter (!·.isParen)) ∧
    (∀ t ∈ program, t.isParen = false) ∧
    operands program = operands ts ∧
    ∀ before s after, ts = before ++ .operand s :: after →
      ∃ before' after', program = before' ++ .operand s :: after' ∧
        operands before' = operands before ∧
        ∀ op ∈ Operator.keywords, after.count (.operator op) ≤ after'.count (.operator op) := by
  refine ⟨?_, bare_compile h, fun _ => isParen_of_mem_compile h, operands_compile h, ?_⟩
  · obtain ⟨indexed, htokens, hperm, htime⟩ := exists_indexed_of_compile h
    exact ⟨indexed, htokens, hperm, fun a ha b hb => htime.pair_sublist ha hb⟩
  · rintro before s after rfl
    obtain ⟨before', after', rfl, hoperands, hcount⟩ := compile_around_operand h
    have hkeyword : ∀ op ∈ Operator.keywords, (Token.operator op).isParen = false := by decide
    exact ⟨before', after', rfl, hoperands, fun op hop => hcount _ (hkeyword op hop)⟩

/-- `a NOT (b AND) c OR b`, which is no expression: the operators stand behind the operands they
follow. -/
theorem compile_rearranges_malformed :
    let ts : List Token := [.operand "a", .operator .not, .operator .lparen, .operand "b",
      .operator .and, .operator .rparen, .operand "c", .operator .or, .operand "b"]
    let program : List Token := [.operand "a", .operand "b", .operator .and, .operand "c",
      .operator .not, .operand "b", .operator .or]
    compile ts = .ok program ∧ operands program = operands ts ∧ ∀ t ∈ program, t.isParen = false := by
  intro ts program
  have h : compile ts = .ok program := rfl
  obtain ⟨-, -, hparen, hoperands, -⟩ := compile_rearranges h
  exact ⟨h, hoperands, hparen⟩

end Program

end CellQuery
