/-!
# Byte offsets

Positions in a text count bytes of its UTF-8 form. A text can be cut at an offset only where a
character ends (`cutAt?`), and both parts together are then the whole text (`cutAt?_eq_some`).
-/

namespace CellQuery.Text

/-- The length of the UTF-8 form. -/
def byteLength : List Char → Nat
  | [] => 0
  | c :: cs => c.utf8Size + byteLength cs

@[simp] theorem byteLength_nil : byteLength [] = 0 := rfl

@[simp] theorem byteLength_cons (c : Char) (cs : List Char) :
    byteLength (c :: cs) = c.utf8Size + byteLength cs := rfl

@[simp] theorem byteLength_append (a b : List Char) :
    byteLength (a ++ b) = byteLength a + byteLength b := by
  induction a with
  | nil => simp
  | cons c a ih => simp [ih, Nat.add_assoc]

/-- The parts of a text before and after its first `n` bytes, if a character ends there. -/
def cutAt? : List Char → Nat → Option (List Char × List Char)
  | cs, 0 => some ([], cs)
  | [], _ + 1 => none
  | c :: cs, n =>
    if c.utf8Size ≤ n then
      (cutAt? cs (n - c.utf8Size)).map fun (before, after) => (c :: before, after)
    else none

/-- The text can be cut at `n` exactly if its first `n` bytes are whole characters. -/
theorem cutAt?_eq_some {cs : List Char} {n : Nat} {a b : List Char} :
    cutAt? cs n = some (a, b) ↔ a ++ b = cs ∧ byteLength a = n := by
  induction cs generalizing n a b with
  | nil =>
    cases n with
    | zero => simp [cutAt?, eq_comm]; grind [byteLength_nil]
    | succ n => simp [cutAt?]; grind [byteLength_nil]
  | cons c cs ih =>
    have hc := c.utf8Size_pos
    cases n with
    | zero =>
      cases a with
      | nil => simp [cutAt?, eq_comm]
      | cons x a => simp [cutAt?]; have := x.utf8Size_pos; omega
    | succ n =>
      simp only [cutAt?]
      cases a with
      | nil => split <;> simp
      | cons x a =>
        split
        · simp only [Option.map_eq_some_iff, Prod.exists, Prod.mk.injEq, List.cons.injEq, ih,
            List.cons_append, byteLength_cons]
          grind
        · simp
          intro hx _
          subst hx
          omega

/-- The part of a text between two offsets, if it can be cut at both. -/
def slice? (cs : List Char) (start stop : Nat) : Option (List Char) :=
  if start ≤ stop then
    (cutAt? cs start).bind fun (_, rest) => (cutAt? rest (stop - start)).map (·.1)
  else none

end CellQuery.Text
