import CellQuery.Proofs.Machine.Tree
import CellQuery.Proofs.Postfix.Group

/-!
# Precedence

Compiling the spelling of a tree gives the postorder listing of the tree.

When the tokens of an expression have been fed, part of its listing is emitted and the rest of it
waits on the stack, above what was there before (`Fed`). What waits binds at least as tightly as the
level of the expression says, so the next token pops all of it if it is a connective of that level,
a closing parenthesis or the end, and nothing below it. The invariant has one lemma for each rule of
the grammar; `fed_of_derives` puts them together.

The invariant also holds of lists that compile to a listing without being a spelling
(`fed_of_compile`), so the same lemmas join these: by any connective if they stand in parentheses
(`compile_join_grouped`), and by an `OR` in front of a spelling also if they do not
(`compile_or_append`).
-/

namespace CellQuery

/-! ### What may wait, and above what -/

/-- The operator that joins the parts of an expression of a level. -/
def Level.connective : Level → Operator
  | disjunction => .or
  | conjunction => .and
  | factor => .not

/-- `p` may still wait when an expression of level `ℓ` has been fed. -/
def Pending.WaitsAt (ℓ : Level) (p : Pending) : Prop :=
  p.isFloor = false ∧ ℓ.connective.precedence ≤ p.op.precedence

/-- An expression of level `ℓ` can be fed above `stack`: its connective does not reach below. -/
def Rests (ℓ : Level) (stack : List Pending) : Prop :=
  ∀ p ∈ stack.head?, p.bindsBefore ℓ.connective = false

theorem rests_factor (stack : List Pending) : Rests .factor stack := by
  intro p _
  cases p with
  | mk position op => cases op <;> rfl

theorem rests_cons {ℓ : Level} {p : Pending} (h : p.bindsBefore ℓ.connective = false)
    (stack : List Pending) : Rests ℓ (p :: stack) := by
  intro q hq
  obtain rfl : p = q := by simpa using hq
  exact h

theorem rests_nil (ℓ : Level) : Rests ℓ [] := by
  intro p hp
  simp at hp

/-- Where a disjunction can be fed, so can a conjunction. -/
theorem Rests.conjunction {stack : List Pending} (h : Rests .disjunction stack) :
    Rests .conjunction stack := by
  intro p hp
  have hor := h p hp
  cases p with
  | mk position op => cases op <;> first | rfl | exact hor

theorem Pending.WaitsAt.loosen {ℓ ℓ' : Level} {p : Pending} (h : p.WaitsAt ℓ)
    (hℓ : ℓ'.connective.precedence ≤ ℓ.connective.precedence) : p.WaitsAt ℓ' :=
  ⟨h.1, hℓ.trans h.2⟩

/-- `AND` and `OR` pop what waits for them and rest on the stack below. -/
theorem shift_connective {ℓ : Level} (hℓ : ℓ ≠ .factor) {pending stack : List Pending}
    (hp : ∀ p ∈ pending, p.WaitsAt ℓ) (hs : Rests ℓ stack) (position : Nat) :
    shift position (pending ++ stack) (.operator ℓ.connective) =
      .ok (pending.map Pending.token, ⟨position, ℓ.connective⟩ :: stack) := by
  have hpops : ∀ p ∈ pending, p.bindsBefore ℓ.connective = true := by
    intro p hmem
    obtain ⟨hfloor, hprec⟩ := hp p hmem
    have hright : ℓ.connective.rightAssociative = false := by
      cases ℓ with
      | disjunction => rfl
      | conjunction => rfl
      | factor => exact absurd rfl hℓ
    simp only [Pending.bindsBefore, hfloor, hright, Bool.not_false, Bool.true_and, Bool.and_true,
      Bool.or_eq_true, decide_eq_true_eq, beq_iff_eq]
    omega
  have htake : stack.takeWhile (·.bindsBefore ℓ.connective) = [] := by
    cases stack with
    | nil => rfl
    | cons q below => rw [List.takeWhile_cons_of_neg (by simp [hs q rfl])]
  have hdrop : stack.dropWhile (·.bindsBefore ℓ.connective) = stack := by
    cases stack with
    | nil => rfl
    | cons q below => rw [List.dropWhile_cons_of_neg (by simp [hs q rfl])]
  have hl : ℓ.connective ≠ .lparen := by cases ℓ <;> decide
  have hr : ℓ.connective ≠ .rparen := by cases ℓ <;> decide
  rw [shift_operator hl hr, List.takeWhile_append_of_pos hpops, List.dropWhile_append_of_pos hpops,
    htake, hdrop, List.append_nil]

theorem shift_not (position : Nat) (stack : List Pending) :
    shift position stack (.operator .not) = .ok ([], ⟨position, .not⟩ :: stack) := by
  have hnone : ∀ p : Pending, p.bindsBefore .not = false := by
    intro p
    cases p with
    | mk position op => cases op <;> rfl
  rw [shift_operator (by decide) (by decide)]
  cases stack with
  | nil => rfl
  | cons q below =>
    rw [List.takeWhile_cons_of_neg (by simp [hnone]), List.dropWhile_cons_of_neg (by simp [hnone])]
    rfl

/-! ### The invariant -/

/-- Feeding `ts` above `stack` has emitted part of the listing of `e`, and the rest waits. -/
def Fed (ℓ : Level) (position : Nat) (stack : List Pending) (ts : List Token) (e : Expr) : Prop :=
  ∃ out pending, feed position stack ts = .ok (out, pending ++ stack) ∧
    out ++ pending.map Pending.token = e.postorder ∧ ∀ p ∈ pending, p.WaitsAt ℓ

theorem fed_operand (position : Nat) (stack : List Pending) (s : String) :
    Fed .factor position stack [.operand s] (.operand s) :=
  ⟨[.operand s], [], rfl, rfl, by simp⟩

theorem fed_not {position : Nat} {stack : List Pending} {ts : List Token} {e : Expr}
    (h : Fed .factor (position + 1) (⟨position, .not⟩ :: stack) ts e) :
    Fed .factor position stack (.operator .not :: ts) (.not e) := by
  obtain ⟨out, pending, hfeed, hlist, hwait⟩ := h
  refine ⟨out, pending ++ [⟨position, .not⟩], ?_, ?_, ?_⟩
  · rw [feed_cons, shift_not]
    simp [Except.bind, Except.map, hfeed]
  · simp [Expr.postorder, ← hlist, Pending.token]
  · intro p hp
    rcases List.mem_append.mp hp with hp | hp
    · exact hwait p hp
    · obtain rfl := List.mem_singleton.mp hp
      exact ⟨rfl, le_rfl⟩

/-- A group leaves nothing waiting. -/
theorem fed_grouped {ts : List Token} {e : Expr} (h : compile ts = .ok e.postorder)
    (position : Nat) (stack : List Pending) : Fed .factor position stack (grouped ts) e :=
  ⟨e.postorder, [], feed_grouped h position stack, by simp, by simp⟩

theorem Fed.loosen {ℓ ℓ' : Level} {position : Nat} {stack : List Pending} {ts : List Token}
    {e : Expr} (h : Fed ℓ position stack ts e)
    (hℓ : ℓ'.connective.precedence ≤ ℓ.connective.precedence) : Fed ℓ' position stack ts e := by
  obtain ⟨out, pending, hfeed, hlist, hwait⟩ := h
  exact ⟨out, pending, hfeed, hlist, fun p hp => (hwait p hp).loosen hℓ⟩

/-- What has been fed to an empty stack compiles: the end emits all that waits. -/
theorem Fed.compile {ℓ : Level} {ts : List Token} {e : Expr} (h : Fed ℓ 0 [] ts e) :
    compile ts = .ok e.postorder := by
  obtain ⟨out, pending, hfeed, hlist, hwait⟩ := h
  rw [List.append_nil] at hfeed
  exact compileFrom_eq_ok_iff.mpr ⟨out, pending, hfeed, fun p hp => (hwait p hp).1, hlist⟩

/-- Both left-associative rules at once: `e` joins `l` and `r` by the connective of `ℓ`. -/
theorem fed_join {ℓ ℓ' : Level} (hℓ : ℓ ≠ .factor)
    (htight : ℓ.connective.precedence ≤ ℓ'.connective.precedence) {position : Nat}
    {stack : List Pending} (hs : Rests ℓ stack) {ts us : List Token} {l r e : Expr}
    (he : e.postorder = l.postorder ++ r.postorder ++ [.operator ℓ.connective])
    (hl : Fed ℓ position stack ts l)
    (hr : Fed ℓ' (position + ts.length + 1) (⟨position + ts.length, ℓ.connective⟩ :: stack) us r) :
    Fed ℓ position stack (ts ++ .operator ℓ.connective :: us) e := by
  obtain ⟨out, pending, hfeed, hlist, hwait⟩ := hl
  obtain ⟨out', pending', hfeed', hlist', hwait'⟩ := hr
  refine ⟨out ++ pending.map Pending.token ++ out',
    pending' ++ [⟨position + ts.length, ℓ.connective⟩], ?_, ?_, ?_⟩
  -- the connective pops what waits of the left side, and waits itself below the right side
  · rw [feed_append_of_eq_ok hfeed, feed_cons, shift_connective hℓ hwait hs]
    simp [Except.bind, hfeed', Except.map]
  · rw [he, ← hlist, ← hlist']
    simp [Pending.token]
  · intro p hp
    rcases List.mem_append.mp hp with hp | hp
    · exact (hwait' p hp).loosen htight
    · obtain rfl := List.mem_singleton.mp hp
      refine ⟨?_, le_rfl⟩
      cases ℓ <;> rfl

theorem fed_of_derives {ℓ : Level} {e : Expr} {ts : List Token} (h : Derives ℓ e ts)
    (position : Nat) (stack : List Pending) (hs : Rests ℓ stack) : Fed ℓ position stack ts e := by
  induction h generalizing position stack with
  | operand s => exact fed_operand position stack s
  | not _ ih => exact fed_not (ih _ _ (rests_factor _))
  | group _ ih => exact fed_grouped (ih 0 [] (rests_nil _)).compile position stack
  | ofFactor _ ih => exact (ih position stack (rests_factor stack)).loosen (by decide)
  | and _ _ ihl ihr =>
    exact fed_join (ℓ := .conjunction) (by decide) (by decide) hs rfl (ihl position stack hs)
      (ihr _ _ (rests_factor _))
  | ofConjunction _ ih => exact (ih position stack hs.conjunction).loosen (by decide)
  | or _ _ ihl ihr =>
    -- the conjunction on the right does not reach below the `OR` in front of it
    exact fed_join (ℓ := .disjunction) (by decide) (by decide) hs rfl (ihl position stack hs)
      (ihr _ _ (rests_cons rfl stack))

/-! ### Joining lists of tokens

Any lists of tokens that compile to the listings of trees can be joined, whether or not they spell
these trees. -/

theorem isParen_of_mem_postorder {e : Expr} {t : Token} (h : t ∈ e.postorder) :
    t.isParen = false := by
  induction e with
  | operand s =>
    obtain rfl := List.mem_singleton.mp h
    rfl
  | not e ih =>
    simp only [Expr.postorder, List.mem_append, List.mem_singleton] at h
    rcases h with h | rfl
    · exact ih h
    · rfl
  | and l r ihl ihr =>
    simp only [Expr.postorder, List.mem_append, List.mem_singleton] at h
    rcases h with (h | h) | rfl
    · exact ihl h
    · exact ihr h
    · rfl
  | or l r ihl ihr =>
    simp only [Expr.postorder, List.mem_append, List.mem_singleton] at h
    rcases h with (h | h) | rfl
    · exact ihl h
    · exact ihr h
    · rfl

/-- Whatever waits in the end binds at least as tightly as `OR`. -/
theorem fed_of_compile {ts : List Token} {e : Expr} (h : compile ts = .ok e.postorder) :
    Fed .disjunction 0 [] ts e := by
  obtain ⟨out, waiting, hfeed, hfloor, hlist⟩ := compileFrom_eq_ok_iff.mp h
  refine ⟨out, waiting, by rwa [List.append_nil], hlist, fun p hp => ⟨hfloor p hp, ?_⟩⟩
  have hmem : p.token ∈ e.postorder := by
    rw [← hlist]
    exact List.mem_append_right _ (List.mem_map_of_mem hp)
  -- what waits is emitted in the end, and no listing has a parenthesis
  have hparen := isParen_of_mem_postorder hmem
  show 1 ≤ p.op.precedence
  rw [Pending.token] at hparen
  cases hop : p.op with
  | lparen => simp [hop, Token.isParen] at hparen
  | rparen => simp [hop, Token.isParen] at hparen
  | and => decide
  | or => decide
  | not => decide

section Join

variable {ts us : List Token} {l r : Expr} (hl : compile ts = .ok l.postorder)
include hl

theorem compile_not_grouped :
    compile (.operator .not :: grouped ts) = .ok (Expr.not l).postorder :=
  (fed_not (fed_grouped hl _ _)).compile

theorem compile_join_grouped {ℓ : Level} (hℓ : ℓ ≠ .factor) {e : Expr}
    (hr : compile us = .ok r.postorder)
    (he : e.postorder = l.postorder ++ r.postorder ++ [.operator ℓ.connective]) :
    compile (grouped ts ++ .operator ℓ.connective :: grouped us) = .ok e.postorder := by
  have htight : ℓ.connective.precedence ≤ Level.factor.connective.precedence := by
    cases ℓ <;> decide
  exact (fed_join hℓ htight (rests_nil ℓ) he ((fed_grouped hl 0 []).loosen htight)
    (fed_grouped hr _ _)).compile

end Join

/-- A disjunction behind an `OR` is joined part by part from the left. -/
theorem fed_or_append {ℓ : Level} {position : Nat} {stack : List Pending} {ts us : List Token}
    {l r : Expr} (hs : Rests .disjunction stack) (hl : Fed .disjunction position stack ts l)
    (hr : Derives ℓ r us) (hℓ : ℓ = .disjunction) :
    ∃ e, Fed .disjunction position stack (ts ++ .operator .or :: us) e ∧
      ∀ value, e.eval value = (l.eval value || r.eval value) := by
  induction hr with
  | operand s => cases hℓ
  | not _ _ => cases hℓ
  | group _ _ => cases hℓ
  | ofFactor _ _ => cases hℓ
  | and _ _ _ _ => cases hℓ
  | @ofConjunction r us h _ =>
    have hright := fed_of_derives h (position + ts.length + 1)
      (⟨position + ts.length, .or⟩ :: stack) (rests_cons rfl stack)
    exact ⟨.or l r, fed_join (ℓ := .disjunction) (by decide) (by decide) hs rfl hl hright,
      fun _ => rfl⟩
  | @or r r' us us' _ h' ih _ =>
    -- by induction the left side takes in all but the last conjunction
    obtain ⟨e, he, heval⟩ := ih hℓ
    have hright := fed_of_derives h' (position + (ts ++ .operator .or :: us).length + 1)
      (⟨position + (ts ++ .operator .or :: us).length, .or⟩ :: stack) (rests_cons rfl stack)
    refine ⟨.or e r', ?_, fun value => ?_⟩
    · have hjoin := fed_join (ℓ := .disjunction) (by decide) (by decide) hs
        (show (Expr.or e r').postorder = _ from rfl) he hright
      rwa [List.append_assoc, List.cons_append] at hjoin
    · simp only [Expr.eval, heval, Bool.or_assoc]

theorem compile_or_append {ts us : List Token} {l r : Expr} (hl : compile ts = .ok l.postorder)
    (hr : Derives .disjunction r us) :
    ∃ e : Expr, compile (ts ++ .operator .or :: us) = .ok e.postorder ∧
      ∀ value, e.eval value = (l.eval value || r.eval value) := by
  obtain ⟨e, he, heval⟩ := fed_or_append (rests_nil _) (fed_of_compile hl) hr rfl
  exact ⟨e, he.compile, heval⟩

/-! ### Compiling a spelling -/

theorem compile_of_derives {e : Expr} {ts : List Token} (h : Derives .disjunction e ts) :
    compile ts = .ok e.postorder :=
  (fed_of_derives h 0 [] (rests_nil _)).compile

/-- **Compiling respects precedence.** The spelling of a tree compiles to the listing of the tree,
which passes the check, and it spells no other tree. -/
theorem compile_spelling {e : Expr} {ts : List Token} (h : Derives .disjunction e ts) :
    compile ts = .ok e.postorder ∧ checkArity e.postorder = .ok () ∧
      ∀ e', Derives .disjunction e' ts → e' = e := by
  refine ⟨compile_of_derives h, checkArity_postorder e, fun e' h' => postorder_injective ?_⟩
  have hsame := (compile_of_derives h').symm.trans (compile_of_derives h)
  exact Except.ok.inj hsame

/-- `a AND NOT (b OR c) AND d OR e`: the conjunctions group to the left, and the group ends before
them. -/
theorem compile_spelling_nested :
    let e := Expr.or (.and (.and (.operand "a") (.not (.or (.operand "b") (.operand "c"))))
      (.operand "d")) (.operand "e")
    let ts : List Token := [.operand "a", .operator .and, .operator .not, .operator .lparen,
      .operand "b", .operator .or, .operand "c", .operator .rparen, .operator .and, .operand "d",
      .operator .or, .operand "e"]
    Derives .disjunction e ts ∧
      compile ts = .ok [.operand "a", .operand "b", .operand "c", .operator .or, .operator .not,
        .operator .and, .operand "d", .operator .and, .operand "e", .operator .or] ∧
      checkArity e.postorder = .ok () := by
  intro e ts
  have hgroup : Derives .factor _ _ := .group (.or (.ofConjunction (.ofFactor (.operand "b")))
    (.ofFactor (.operand "c")))
  have h : Derives .disjunction e ts := .or (.ofConjunction (.and (.and (.ofFactor (.operand "a"))
    (.not hgroup)) (.operand "d"))) (.ofFactor (.operand "e"))
  exact ⟨h, (compile_spelling h).1, (compile_spelling h).2.1⟩

end CellQuery
