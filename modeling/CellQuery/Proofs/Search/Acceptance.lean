import CellQuery.Proofs.Grammar.Placement
import CellQuery.Proofs.Postfix.Rearrangement
import CellQuery.Proofs.Search.Meaning

/-!
# Which queries are answered

A list of tokens is accepted if it compiles to a program that passes the check (`Accepted`). The
check counts values on the reordered program, so it sees how many operands an operator gets and not
where they stand: `a b AND` has the program of `a AND b`. What is accepted always compiles to the
listing of one tree, has balanced parentheses and one operand more than connectives. It is the
spelling of a tree exactly if every token is in its place besides (`acceptance`).
-/

namespace CellQuery

/-- The tokens compile to a program that passes the check. -/
def Accepted (ts : List Token) : Prop :=
  ∃ program, compile ts = .ok program ∧ checkArity program = .ok ()

theorem accepted_iff_listing {ts : List Token} :
    Accepted ts ↔ ∃ e : Expr, compile ts = .ok e.postorder := by
  constructor
  · rintro ⟨program, hc, hcheck⟩
    obtain ⟨e, rfl⟩ := checkArity_eq_ok_iff.mp hcheck
    exact ⟨e, hc⟩
  · rintro ⟨e, hc⟩
    exact ⟨e.postorder, hc, checkArity_postorder e⟩

theorem Derivable.accepted {ts : List Token} (h : Derivable ts) : Accepted ts := by
  obtain ⟨e, he⟩ := h
  exact accepted_iff_listing.mpr ⟨e, compile_of_derives he⟩

theorem Accepted.balanced {ts : List Token} (h : Accepted ts) : depthAfter 0 ts = some 0 := by
  obtain ⟨program, hc, -⟩ := h
  exact compile_isOk_iff.mp ⟨program, hc⟩

/-! ### Counting operands -/

theorem countP_postorder (e : Expr) :
    e.postorder.countP Token.isOperand = e.postorder.countP Token.isConnective + 1 := by
  induction e with
  | operand s => rfl
  | not e ih =>
    simp only [Expr.postorder, List.countP_append, ih]
    rfl
  | and l r ihl ihr =>
    have hop : [Token.operator .and].countP Token.isOperand = 0 := rfl
    have hconn : [Token.operator .and].countP Token.isConnective = 1 := rfl
    simp only [Expr.postorder, List.countP_append, ihl, ihr, hop, hconn]
    omega
  | or l r ihl ihr =>
    have hop : [Token.operator .or].countP Token.isOperand = 0 := rfl
    have hconn : [Token.operator .or].countP Token.isConnective = 1 := rfl
    simp only [Expr.postorder, List.countP_append, ihl, ihr, hop, hconn]
    omega

theorem countP_bare {p : Token → Bool} (hp : ∀ t, p t = true → t.isParen = false)
    (ts : List Token) : (bare ts).countP p = ts.countP p := by
  rw [bare, List.countP_filter]
  refine List.countP_congr fun t _ => ?_
  constructor
  · intro h
    exact (Bool.and_eq_true_iff.mp h).1
  · intro h
    simp [h, hp t h]

/-- Compiling keeps the number of tokens of every kind but the parentheses. -/
theorem countP_compile {ts program : List Token} (h : compile ts = .ok program) {p : Token → Bool}
    (hp : ∀ t, p t = true → t.isParen = false) : program.countP p = ts.countP p := by
  rw [← countP_bare hp ts]
  exact (bare_compile h).countP_eq p

theorem Accepted.countP {ts : List Token} (h : Accepted ts) :
    ts.countP Token.isOperand = ts.countP Token.isConnective + 1 := by
  obtain ⟨e, hc⟩ := accepted_iff_listing.mp h
  -- parentheses apart, compiling keeps the tokens, so both counts are those of the listing
  have hoperand : ∀ t : Token, t.isOperand = true → t.isParen = false := by
    intro t ht
    cases t with
    | operand s => rfl
    | operator op => cases ht
  have hconnective : ∀ t : Token, t.isConnective = true → t.isParen = false := by
    intro t ht
    cases t with
    | operand s => rfl
    | operator op => cases op <;> first | rfl | cases ht
  rw [← countP_compile hc hoperand, ← countP_compile hc hconnective, countP_postorder]

/-! ### Answering -/

theorem evaluate_isOk_iff (t : Table) (ts : List Token) (o : Options) (s : Selection) :
    (∃ rows, evaluate (.ofTable t) ts o s = .ok rows) ↔ ts = [] ∨ Accepted ts := by
  constructor
  · rintro ⟨rows, h⟩
    by_cases hts : ts = []
    · exact .inl hts
    · obtain ⟨e, hc, -⟩ := exists_tree_of_evaluate hts h
      exact .inr (accepted_iff_listing.mpr ⟨e, hc⟩)
  · rintro (rfl | h)
    · exact ⟨_, rfl⟩
    · obtain ⟨e, hc⟩ := accepted_iff_listing.mp h
      exact ⟨_, evaluate_of_compile hc t o s⟩

/-- **Which queries are answered.** A spelling is an accepted list whose tokens are all in place. A
list is accepted just if it compiles to the listing of a tree; then it is balanced and has one
operand more than connectives. Nothing else but the empty list has an answer. -/
theorem acceptance (ts : List Token) :
    (Derivable ts ↔ Accepted ts ∧ inPlace false ts = true) ∧
    (Accepted ts ↔ ∃ e : Expr, compile ts = .ok e.postorder) ∧
    (Accepted ts → depthAfter 0 ts = some 0 ∧
      ts.countP Token.isOperand = ts.countP Token.isConnective + 1) ∧
    ∀ (t : Table) (o : Options) (s : Selection),
      (∃ rows, evaluate (.ofTable t) ts o s = .ok rows) ↔ ts = [] ∨ Accepted ts := by
  refine ⟨⟨fun h => ⟨h.accepted, (derivable_iff.mp h).1⟩, fun ⟨h, hplace⟩ => ?_⟩,
    accepted_iff_listing, fun h => ⟨h.balanced, h.countP⟩, fun t o s => evaluate_isOk_iff t ts o s⟩
  exact derivable_iff.mpr ⟨hplace, h.balanced⟩

/-- A connective behind its operands is accepted although nothing spells so: `a b AND`. -/
theorem accepted_out_of_place : ¬ ∀ ts, Accepted ts ↔ Derivable ts := by
  intro h
  have hab : Accepted [.operand "a", .operand "b", .operator .and] :=
    ⟨[.operand "a", .operand "b", .operator .and], rfl, rfl⟩
  exact absurd (derivable_iff.mp ((h _).mp hab)).1 (by decide)

end CellQuery
