import CellQuery.Json.Tree
import CellQuery.Proofs.Json.Numeral

/-!
# Where the literals of a tree come from

The literals of a tree, booleans and numerals, are those of the lexemes that it was read from, in
order (`literals_of_read`), and a lexeme that is a literal is spelled in the text. So a literal of a
tree is what the text says, character by character (`Tree.spelling_infix`).
-/

namespace CellQuery.Json

/-! ### Literals -/

/-- A truth value or a number as it is written. -/
inductive Literal where
  | bool (b : Bool)
  | numeral (n : Numeral)
  deriving DecidableEq, Repr

namespace Literal

/-- The tree that holds nothing but a literal. -/
def tree : Literal → Tree
  | bool b => .bool b
  | numeral n => .numeral n

/-- The text of a literal. -/
def spelling : Literal → List Char
  | bool true => ['t', 'r', 'u', 'e']
  | bool false => ['f', 'a', 'l', 's', 'e']
  | numeral n => n.spelling

/-- A literal that JSON allows. -/
def WellFormed : Literal → Prop
  | bool _ => True
  | numeral n => n.WellFormed

end Literal

/-- The literal that a tree is, if it is one. -/
def Tree.literal? : Tree → Option Literal
  | .bool b => some (.bool b)
  | .numeral n => some (.numeral n)
  | _ => none

theorem Tree.literal?_eq_some_iff {t : Tree} {l : Literal} : t.literal? = some l ↔ t = l.tree := by
  constructor
  · intro h
    unfold literal? at h
    split at h <;> cases h <;> rfl
  · rintro rfl
    cases l <;> rfl

/-! ### Literals in order -/

mutual

/-- The literals of a tree from left to right. Keys have none. -/
def Tree.literals : Tree → List Literal
  | .bool b => [.bool b]
  | .numeral n => [.numeral n]
  | .array vs => elementLiterals vs
  | .object fs => fieldLiterals fs
  | _ => []

/-- The literals of the elements of an array. -/
def elementLiterals : List Tree → List Literal
  | [] => []
  | v :: rest => v.literals ++ elementLiterals rest

/-- The literals of the fields of an object. -/
def fieldLiterals : List (List Code × Tree) → List Literal
  | [] => []
  | (_, v) :: rest => v.literals ++ fieldLiterals rest

end

@[simp] theorem elementLiterals_eq (vs : List Tree) :
    elementLiterals vs = vs.flatMap Tree.literals := by
  induction vs with
  | nil => rfl
  | cons v vs ih => rw [elementLiterals, ih, List.flatMap_cons]

@[simp] theorem fieldLiterals_eq (fs : List (List Code × Tree)) :
    fieldLiterals fs = fs.flatMap (·.2.literals) := by
  induction fs with
  | nil => rfl
  | cons f fs ih => rw [fieldLiterals, ih, List.flatMap_cons]

/-- The literals in what was read of an open array or object, the last element of which comes
first. -/
def Frame.literals : Frame → List Literal
  | .array vs => vs.reverse.flatMap Tree.literals
  | .object fs _ => fs.reverse.flatMap (·.2.literals)

/-- The literals of the value that has just been read, or of the fields before the next key. -/
def Phase.literals : Phase → List Literal
  | .after v => v.literals
  | .key fs => fs.reverse.flatMap (·.2.literals)
  | _ => []

/-- The literal that a lexeme is, if it is one. -/
def Lexeme.literals : Lexeme → List Literal
  | .bool b => [.bool b]
  | .numeral n => [.numeral n]
  | _ => []

/-- The literals that the machine has read so far, of the innermost array or object last. -/
def literalsSoFar (phase : Phase) (stack : List Frame) : List Literal :=
  stack.reverse.flatMap Frame.literals ++ phase.literals

theorem literals_begin? {l : Lexeme} {phase : Phase} (h : begin? l = some phase) :
    phase.literals = l.literals := by
  unfold begin? at h
  split at h <;> cases h <;> rfl

/-- The machine moves literals from the lexemes to the tree, and leaves them in order. -/
theorem literals_of_read {phase : Phase} {stack : List Frame} {ls rest : List Lexeme} {v : Tree}
    (h : read phase stack ls = some (v, rest)) :
    literalsSoFar phase stack ++ ls.flatMap Lexeme.literals =
      v.literals ++ rest.flatMap Lexeme.literals := by
  unfold literalsSoFar
  -- a step moves the front lexeme to the machine: punctuation has no literals, and closing an array
  -- or object puts its literals where they were
  fun_induction read phase stack ls with
  | case1 v rest =>
    cases h
    rfl
  | case2 v vs stack rest ih =>
    rw [← ih h]
    simp [Phase.literals, Frame.literals, Lexeme.literals]
  | case3 v vs stack rest ih =>
    rw [← ih h]
    simp [Phase.literals, Frame.literals, Lexeme.literals, Tree.literals]
  | case4 v fs k stack rest ih =>
    rw [← ih h]
    simp [Phase.literals, Frame.literals, Lexeme.literals]
  | case5 v fs k stack rest ih =>
    rw [← ih h]
    simp [Phase.literals, Frame.literals, Lexeme.literals, Tree.literals]
  | case6 stack l rest phase hbegin ih =>
    rw [← ih h, literals_begin? hbegin]
    simp [Phase.literals]
  | case7 => cases h
  | case8 stack rest ih =>
    rw [← ih h]
    simp [Phase.literals, Lexeme.literals, Tree.literals]
  | case9 stack l rest hne phase hbegin ih =>
    rw [← ih h, literals_begin? hbegin]
    simp [Phase.literals, Frame.literals]
  | case10 => cases h
  | case11 stack rest ih =>
    rw [← ih h]
    simp [Phase.literals, Lexeme.literals, Tree.literals]
  | case12 stack k rest ih =>
    rw [← ih h]
    simp [Phase.literals, Frame.literals, Lexeme.literals]
  | case13 fs stack k rest ih =>
    rw [← ih h]
    simp [Phase.literals, Frame.literals, Lexeme.literals]
  | case14 => cases h

/-! ### Literals in the text -/

section Spelled

variable {cs rest : List Char}

theorem scanCodes_suffix {codes : List Code} (h : scanCodes cs = some (codes, rest)) :
    rest <:+ cs := by
  fun_induction scanCodes cs generalizing codes rest with
  | case1 => cases h
  | case2 r =>
    cases h
    exact List.suffix_cons _ _
  | case3 a b c d r n _ ih =>
    obtain ⟨⟨codes, rest⟩, hs, hr⟩ := Option.map_eq_some_iff.mp h
    cases hr
    exact (ih hs).trans ⟨['\\', 'u', a, b, c, d], rfl⟩
  | case4 => cases h
  | case5 c r _ e _ ih =>
    obtain ⟨⟨codes, rest⟩, hs, hr⟩ := Option.map_eq_some_iff.mp h
    cases hr
    exact (ih hs).trans ⟨['\\', c], rfl⟩
  | case6 => cases h
  | case7 c r _ _ _ _ ih =>
    obtain ⟨⟨codes, rest⟩, hs, hr⟩ := Option.map_eq_some_iff.mp h
    cases hr
    exact (ih hs).trans (List.suffix_cons _ _)
  | case8 => cases h

theorem Lexeme.numeral?_sound {negative : Bool} {l : Lexeme}
    (h : Lexeme.numeral? negative cs = some (l, rest)) :
    ∃ n, l = .numeral n ∧ n.WellFormed ∧
      (if negative then ['-'] else []) ++ cs = n.spelling ++ rest := by
  obtain ⟨⟨n, rest'⟩, hscan, hl⟩ := Option.map_eq_some_iff.mp h
  cases hl
  obtain ⟨rfl, rfl, hwell⟩ := scanNumeral_sound hscan
  exact ⟨n, rfl, hwell, by rw [n.spelling_eq, List.append_assoc]⟩

/-- A lexeme is read off the front of a text, and a literal is all of what is read. -/
theorem Lexeme.next?_sound {l : Lexeme} (h : Lexeme.next? cs = some (l, rest)) :
    rest <:+ cs ∧ ∀ w ∈ l.literals, w.WellFormed ∧ cs = w.spelling ++ rest := by
  -- numerals come with a sign and without, and end at two places of the definition
  have hnumeral : ∀ {n : Numeral} {cs : List Char}, n.WellFormed → cs = n.spelling ++ rest →
      rest <:+ cs ∧ ∀ w ∈ (Lexeme.numeral n).literals, w.WellFormed ∧ cs = w.spelling ++ rest := by
    intro n cs hwell hcs
    refine ⟨hcs ▸ List.suffix_append _ _, fun w hw => ?_⟩
    obtain rfl := List.mem_singleton.mp hw
    exact ⟨hwell, hcs⟩
  unfold Lexeme.next? at h
  split at h
  case h_7 cs =>
    obtain ⟨⟨codes, rest⟩, hs, hl⟩ := Option.map_eq_some_iff.mp h
    cases hl
    exact ⟨(scanCodes_suffix hs).trans (List.suffix_cons _ _), nofun⟩
  case h_8 cs =>
    obtain ⟨n, rfl, hwell, hcs⟩ := numeral?_sound h
    exact hnumeral hwell hcs
  case h_10 =>
    cases h
    refine ⟨⟨['t', 'r', 'u', 'e'], rfl⟩, fun w hw => ?_⟩
    obtain rfl := List.mem_singleton.mp hw
    exact ⟨trivial, rfl⟩
  case h_11 =>
    cases h
    refine ⟨⟨['f', 'a', 'l', 's', 'e'], rfl⟩, fun w hw => ?_⟩
    obtain rfl := List.mem_singleton.mp hw
    exact ⟨trivial, rfl⟩
  case h_12 =>
    obtain ⟨n, rfl, hwell, hcs⟩ := numeral?_sound h
    exact hnumeral hwell hcs
  case h_9 =>
    cases h
    exact ⟨⟨['n', 'u', 'l', 'l'], rfl⟩, nofun⟩
  all_goals
    cases h
    exact ⟨List.suffix_cons _ _, nofun⟩

theorem spelling_infix_of_mem_lexemes {w : Literal} {l : Lexeme} (hl : l ∈ lexemes cs)
    (hw : w ∈ l.literals) : w.WellFormed ∧ w.spelling <:+: cs := by
  fun_induction lexemes cs with
  | case1 => cases hl
  | case2 cs c rest hdrop l' rest' hnext ih =>
    obtain ⟨hsuffix, hliteral⟩ := Lexeme.next?_sound hnext
    have hwhole : c :: rest <:+ cs := hdrop ▸ List.dropWhile_suffix _
    -- the front lexeme stands where the white space ends, the others stand behind it
    rcases List.mem_cons.mp hl with rfl | hmem
    · obtain ⟨hwell, hcs⟩ := hliteral w hw
      refine ⟨hwell, List.IsInfix.trans ?_ hwhole.isInfix⟩
      exact hcs ▸ (List.prefix_append _ _).isInfix
    · obtain ⟨hwell, hinfix⟩ := ih hmem
      exact ⟨hwell, hinfix.trans (hsuffix.trans hwhole).isInfix⟩
  | case3 =>
    obtain rfl := List.mem_singleton.mp hl
    cases hw

/-- A literal of a tree is well formed, and spelled in the text. -/
theorem Tree.spelling_infix {text : String} {tree : Tree} {rest : List Lexeme} {w : Literal}
    (hread : Tree.read? text = some (tree, rest)) (hw : w ∈ tree.literals) :
    w.WellFormed ∧ w.spelling <:+: text.toList := by
  have hliterals := literals_of_read hread
  have hmem : w ∈ tree.literals ++ rest.flatMap Lexeme.literals := List.mem_append_left _ hw
  rw [← hliterals] at hmem
  obtain ⟨l, hl, hw⟩ := List.mem_flatMap.mp hmem
  exact spelling_infix_of_mem_lexemes hl hw

end Spelled

end CellQuery.Json
