import CellQuery.Query.Expr

/-!
# Well-placed tokens

The grammar of expressions is decided from left to right with one bit and one counter. The bit says
whether an operand has just ended: then a connective or a closing parenthesis is due, otherwise a
token that can begin an operand (`inPlace`). The counter is the number of open parentheses
(`depthAfter`). A list of tokens spells a tree exactly if every token is in its place and the
parentheses are balanced (`derivable_iff`).

From right to left, what is still to be read with `n` parentheses open is `n` pieces that each end
with a closing parenthesis, and a last one without (`Unfolds`). The induction is on the tokens, and
each of them extends the first piece.
-/

namespace CellQuery

/-! ### Places -/

namespace Token

/-- Whether an operand in infix notation can begin with the token. -/
def begins : Token → Bool
  | operand _ => true
  | operator .not => true
  | operator .lparen => true
  | operator _ => false

/-- Whether an operand in infix notation can end with the token. -/
def ends : Token → Bool
  | operand _ => true
  | operator .rparen => true
  | operator _ => false

/-- `AND` and `OR`, which stand between two operands. -/
def isConnective : Token → Bool
  | operator .and => true
  | operator .or => true
  | _ => false

/-- Whether a token is a parenthesis. -/
def isParen : Token → Bool
  | operator .lparen => true
  | operator .rparen => true
  | _ => false

end Token

/-- Whether the tokens stand where infix notation allows them, after an operand or before one. -/
def inPlace (afterOperand : Bool) : List Token → Bool
  | [] => afterOperand
  | t :: rest => t.begins != afterOperand && inPlace t.ends rest

/-- The number of parentheses that are open after a token, if it does not close one too many. -/
def depthStep (depth : Nat) : Token → Option Nat
  | .operator .lparen => some (depth + 1)
  | .operator .rparen => if depth = 0 then none else some (depth - 1)
  | _ => some depth

/-- The number of parentheses that are open after tokens, if none of them closes one too many. -/
def depthAfter (depth : Nat) : List Token → Option Nat
  | [] => some depth
  | t :: rest => (depthStep depth t).bind (depthAfter · rest)

theorem depthAfter_append (depth : Nat) (ts us : List Token) :
    depthAfter depth (ts ++ us) = (depthAfter depth ts).bind (depthAfter · us) := by
  induction ts generalizing depth with
  | nil => rfl
  | cons t ts ih =>
    simp only [List.cons_append, depthAfter]
    cases depthStep depth t with
    | none => rfl
    | some d => exact ih d

/-! ### What is derived is in place -/

theorem inPlace_append_of_derives {ℓ : Level} {e : Expr} {ts : List Token} (h : Derives ℓ e ts)
    (rest : List Token) : inPlace false (ts ++ rest) = inPlace true rest := by
  induction h generalizing rest with
  | operand s => rfl
  | not _ ih => exact ih rest
  | group _ ih =>
    rw [List.cons_append, List.append_assoc]
    show inPlace false (_ ++ .operator .rparen :: rest) = inPlace true rest
    exact ih (.operator .rparen :: rest)
  | ofFactor _ ih => exact ih rest
  | and _ _ ihl ihr =>
    rw [List.append_assoc, ihl]
    exact ihr rest
  | ofConjunction _ ih => exact ih rest
  | or _ _ ihl ihr =>
    rw [List.append_assoc, ihl]
    exact ihr rest

theorem depthAfter_of_derives {ℓ : Level} {e : Expr} {ts : List Token} (h : Derives ℓ e ts)
    (depth : Nat) : depthAfter depth ts = some depth := by
  induction h generalizing depth with
  | operand s => rfl
  | not _ ih => exact ih depth
  | group _ ih =>
    simp [depthAfter, depthStep, depthAfter_append, ih (depth + 1)]
  | ofFactor _ ih => exact ih depth
  | and _ _ ihl ihr =>
    rw [depthAfter_append, ihl]
    exact ihr depth
  | ofConjunction _ ih => exact ih depth
  | or _ _ ihl ihr =>
    rw [depthAfter_append, ihl]
    exact ihr depth

/-! ### Extending a derivation to the left -/

/-- The tokens spell a tree. -/
def Derivable (ts : List Token) : Prop :=
  ∃ e, Derives .disjunction e ts

/-- The tokens can follow a factor. -/
def Continues (ts : List Token) : Prop :=
  ∀ f us, Derives .factor f us → Derivable (us ++ ts)

/-- A `NOT` in front goes to the first factor. -/
theorem Derives.exists_not {ℓ : Level} {e : Expr} {ts : List Token} (h : Derives ℓ e ts) :
    ∃ e', Derives ℓ e' (.operator .not :: ts) := by
  induction h with
  | operand s => exact ⟨_, .not (.operand s)⟩
  | not h _ => exact ⟨_, .not (.not h)⟩
  | group h _ => exact ⟨_, .not (.group h)⟩
  | ofFactor _ ih =>
    obtain ⟨e', h'⟩ := ih
    exact ⟨e', .ofFactor h'⟩
  | and _ hr ih _ =>
    obtain ⟨e', h'⟩ := ih
    exact ⟨_, .and h' hr⟩
  | ofConjunction _ ih =>
    obtain ⟨e', h'⟩ := ih
    exact ⟨e', .ofConjunction h'⟩
  | or _ hr ih _ =>
    obtain ⟨e', h'⟩ := ih
    exact ⟨_, .or h' hr⟩

/-- A conjunction in front goes to the first conjunction. -/
theorem Derives.exists_and {ℓ : Level} {l r : Expr} {ts us : List Token}
    (hl : Derives .conjunction l ts) (hr : Derives ℓ r us) (hℓ : ℓ ≠ .factor) :
    ∃ e, Derives ℓ e (ts ++ .operator .and :: us) := by
  induction hr with
  | operand s => exact absurd rfl hℓ
  | not _ _ => exact absurd rfl hℓ
  | group _ _ => exact absurd rfl hℓ
  | ofFactor h _ => exact ⟨_, .and hl h⟩
  | and _ hr ih _ =>
    obtain ⟨e', h'⟩ := ih hℓ
    rw [← List.cons_append, ← List.append_assoc]
    exact ⟨_, .and h' hr⟩
  | ofConjunction _ ih =>
    obtain ⟨e', h'⟩ := ih (by decide)
    exact ⟨e', .ofConjunction h'⟩
  | or _ hr ih _ =>
    obtain ⟨e', h'⟩ := ih hℓ
    rw [← List.cons_append, ← List.append_assoc]
    exact ⟨_, .or h' hr⟩

/-- A disjunction in front is the leftmost part. -/
theorem Derives.exists_or {ℓ : Level} {l r : Expr} {ts us : List Token}
    (hl : Derives .disjunction l ts) (hr : Derives ℓ r us) (hℓ : ℓ = .disjunction) :
    ∃ e, Derives .disjunction e (ts ++ .operator .or :: us) := by
  induction hr with
  | operand s => cases hℓ
  | not _ _ => cases hℓ
  | group _ _ => cases hℓ
  | ofFactor _ _ => cases hℓ
  | and _ _ _ _ => cases hℓ
  | ofConjunction h _ => exact ⟨_, .or hl h⟩
  | or _ hr ih _ =>
    obtain ⟨e', h'⟩ := ih rfl
    rw [← List.cons_append, ← List.append_assoc]
    exact ⟨_, .or h' hr⟩

theorem continues_nil : Continues [] := by
  intro f us h
  rw [List.append_nil]
  exact ⟨f, .ofConjunction (.ofFactor h)⟩

theorem Derivable.continues_and {ts : List Token} (h : Derivable ts) :
    Continues (.operator .and :: ts) := by
  obtain ⟨e, he⟩ := h
  intro f us hf
  exact (Derives.ofFactor hf).exists_and he (by decide)

theorem Derivable.continues_or {ts : List Token} (h : Derivable ts) :
    Continues (.operator .or :: ts) := by
  obtain ⟨e, he⟩ := h
  intro f us hf
  exact (Derives.ofConjunction (.ofFactor hf)).exists_or he rfl

theorem Derivable.not {ts : List Token} (h : Derivable ts) : Derivable (.operator .not :: ts) := by
  obtain ⟨e, he⟩ := h
  exact he.exists_not

theorem Continues.operand {ts : List Token} (h : Continues ts) (s : String) :
    Derivable (.operand s :: ts) :=
  h _ _ (.operand s)

theorem Continues.group {inner ts : List Token} (h : Continues ts) (hi : Derivable inner) :
    Derivable (.operator .lparen :: (inner ++ [.operator .rparen]) ++ ts) := by
  obtain ⟨e, he⟩ := hi
  exact h _ _ (.group he)

/-! ### What is in place is derived -/

/-- What is still to be read with `n` parentheses open, when what comes before the first of them to
close has the property `P`. -/
def Unfolds (P : List Token → Prop) : Nat → List Token → Prop
  | 0, ts => P ts
  | n + 1, ts => ∃ inner tail, ts = inner ++ .operator .rparen :: tail ∧ P inner ∧
      Unfolds Continues n tail

theorem Unfolds.prepend {P Q : List Token → Prop} (first : List Token)
    (hPQ : ∀ ts, P ts → Q (first ++ ts)) {n : Nat} {ts : List Token} (h : Unfolds P n ts) :
    Unfolds Q n (first ++ ts) := by
  cases n with
  | zero => exact hPQ ts h
  | succ n =>
    obtain ⟨inner, tail, rfl, hinner, htail⟩ := h
    exact ⟨first ++ inner, tail, by rw [List.append_assoc], hPQ inner hinner, htail⟩

theorem unfolds_of_inPlace {afterOperand : Bool} {ts : List Token} {n : Nat}
    (hp : inPlace afterOperand ts = true) (hd : depthAfter n ts = some 0) :
    Unfolds (if afterOperand then Continues else Derivable) n ts := by
  induction ts generalizing afterOperand n with
  | nil =>
    obtain rfl : afterOperand = true := hp
    obtain rfl : n = 0 := by simpa [depthAfter] using hd
    exact continues_nil
  | cons t rest ih =>
    simp only [inPlace, Bool.and_eq_true, bne_iff_ne, ne_eq] at hp
    obtain ⟨hbegins, hrest⟩ := hp
    obtain rfl : afterOperand = !t.begins := by
      cases afterOperand <;> simpa using hbegins
    obtain ⟨d, hstep, hafter⟩ := Option.bind_eq_some_iff.mp hd
    have hu := ih hrest hafter
    cases t with
    | operand s =>
      cases hstep
      exact hu.prepend [.operand s] fun ts h => h.operand s
    | operator op =>
      cases op with
      | not =>
        cases hstep
        exact hu.prepend [.operator .not] fun ts h => h.not
      | and =>
        cases hstep
        exact hu.prepend [.operator .and] fun ts h => h.continues_and
      | or =>
        cases hstep
        exact hu.prepend [.operator .or] fun ts h => h.continues_or
      | lparen =>
        cases hstep
        -- the first piece and its closing parenthesis are a group in front of the second one
        obtain ⟨inner, tail, rfl, hinner, htail⟩ := hu
        have hgroup := htail.prepend (Q := Derivable)
          (.operator .lparen :: (inner ++ [.operator .rparen])) fun ts h => h.group hinner
        rw [List.cons_append, List.append_assoc] at hgroup
        exact hgroup
      | rparen =>
        simp only [depthStep] at hstep
        split at hstep
        · simp at hstep
        · next hn =>
          cases hstep
          obtain ⟨m, rfl⟩ := Nat.exists_eq_succ_of_ne_zero hn
          exact ⟨[], rest, rfl, continues_nil, hu⟩

/-- The spellings of trees are the lists with every token in its place and balanced parentheses. -/
theorem derivable_iff {ts : List Token} :
    Derivable ts ↔ inPlace false ts = true ∧ depthAfter 0 ts = some 0 := by
  constructor
  · rintro ⟨e, he⟩
    refine ⟨?_, depthAfter_of_derives he 0⟩
    have h := inPlace_append_of_derives he []
    rwa [List.append_nil] at h
  · rintro ⟨hp, hd⟩
    exact unfolds_of_inPlace hp hd

end CellQuery
