import CellQuery.Query.Token

/-!
# Expressions

What a query means is a tree over its operands. `Derives` relates a tree to the token lists that
spell it: `OR` and `AND` group to the left, `NOT` binds tightest, and a parenthesised disjunction
may stand wherever an operand may. `Expr.postorder` lists a tree with each operator after what it
applies to.
-/

namespace CellQuery

/-! ### Trees -/

/-- What a query means. -/
inductive Expr where
  | operand (text : String)
  | not (e : Expr)
  | and (left right : Expr)
  | or (left right : Expr)
  deriving DecidableEq, Repr

namespace Expr

/-- The truth of a tree under a truth value for each operand. -/
def eval (value : String → Bool) : Expr → Bool
  | operand s => value s
  | not e => !e.eval value
  | and l r => l.eval value && r.eval value
  | or l r => l.eval value || r.eval value

/-- The tokens of a tree, each operator after what it applies to. -/
def postorder : Expr → List Token
  | operand s => [.operand s]
  | not e => e.postorder ++ [.operator .not]
  | and l r => l.postorder ++ r.postorder ++ [.operator .and]
  | or l r => l.postorder ++ r.postorder ++ [.operator .or]

theorem postorder_ne_nil (e : Expr) : e.postorder ≠ [] := by
  cases e <;> simp [postorder]

end Expr

/-! ### The grammar -/

/-- The three levels of the grammar, from the loosest binding to the tightest. -/
inductive Level where
  | disjunction
  | conjunction
  | factor
  deriving DecidableEq, Repr

open Level in
/-- A token list spells a tree at a level of the grammar. -/
inductive Derives : Level → Expr → List Token → Prop where
  | operand (s : String) : Derives factor (.operand s) [.operand s]
  | not {e : Expr} {ts : List Token} :
      Derives factor e ts → Derives factor (.not e) (.operator .not :: ts)
  | group {e : Expr} {ts : List Token} :
      Derives disjunction e ts →
      Derives factor e (.operator .lparen :: (ts ++ [.operator .rparen]))
  | ofFactor {e : Expr} {ts : List Token} : Derives factor e ts → Derives conjunction e ts
  | and {l r : Expr} {ts us : List Token} :
      Derives conjunction l ts → Derives factor r us →
      Derives conjunction (.and l r) (ts ++ .operator .and :: us)
  | ofConjunction {e : Expr} {ts : List Token} :
      Derives conjunction e ts → Derives disjunction e ts
  | or {l r : Expr} {ts us : List Token} :
      Derives disjunction l ts → Derives conjunction r us →
      Derives disjunction (.or l r) (ts ++ .operator .or :: us)

end CellQuery
