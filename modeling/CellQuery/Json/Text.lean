/-!
# JSON strings

A string is written as characters and as escapes, and an escape names 16 bits, which may be half of
a character: a surrogate. Such halves are a character only as a pair (`joinCodes?`). Reading and
writing a string meet in `scanCodes` and `escapeCodes`.
-/

namespace CellQuery.Json

/-! ### Codes -/

/-- One element of a string as it is written: a character, or 16 bits named by an escape. -/
inductive Code where
  | char (c : Char)
  | unit (n : Nat)
  deriving DecidableEq, Repr

/-- Whether 16 bits are the first half of a surrogate pair. -/
def isHighSurrogate (n : Nat) : Bool :=
  0xD800 ≤ n && n < 0xDC00

/-- Whether 16 bits are the second half of a surrogate pair. -/
def isLowSurrogate (n : Nat) : Bool :=
  0xDC00 ≤ n && n < 0xE000

/-- The characters that codes stand for, if no surrogate is left without its partner. -/
def joinCodes? : List Code → Option (List Char)
  | [] => some []
  | .char c :: rest => (joinCodes? rest).map (c :: ·)
  | .unit high :: rest =>
    if isHighSurrogate high then
      match rest with
      | .unit low :: rest =>
        if isLowSurrogate low then
          let c := Char.ofNat (0x10000 + (high - 0xD800) * 0x400 + (low - 0xDC00))
          (joinCodes? rest).map (c :: ·)
        else none
      | _ => none
    else if isLowSurrogate high then none
    else (joinCodes? rest).map (Char.ofNat high :: ·)

/-! ### Reading -/

/-- The value of a hexadecimal digit, in either case. -/
def hexDigit? (c : Char) : Option Nat :=
  if '0' ≤ c ∧ c ≤ '9' then some (c.toNat - '0'.toNat)
  else if 'a' ≤ c ∧ c ≤ 'f' then some (c.toNat - 'a'.toNat + 10)
  else if 'A' ≤ c ∧ c ≤ 'F' then some (c.toNat - 'A'.toNat + 10)
  else none

/-- The 16 bits that four hexadecimal digits name. -/
def hexUnit? (a b c d : Char) : Option Nat := do
  let a ← hexDigit? a
  let b ← hexDigit? b
  let c ← hexDigit? c
  let d ← hexDigit? d
  return ((a * 16 + b) * 16 + c) * 16 + d

/-- The character that a backslash before `c` stands for. -/
def simpleEscape? : Char → Option Char
  | '"' => some '"'
  | '\\' => some '\\'
  | '/' => some '/'
  | 'b' => some '\x08'
  | 'f' => some '\x0c'
  | 'n' => some '\n'
  | 'r' => some '\r'
  | 't' => some '\t'
  | _ => none

/-- The codes up to the closing quote, and what follows it. A control character stands in a string
only as an escape. -/
def scanCodes : List Char → Option (List Code × List Char)
  | [] => none
  | '"' :: rest => some ([], rest)
  | '\\' :: 'u' :: a :: b :: c :: d :: rest =>
    match hexUnit? a b c d with
    | some n => (scanCodes rest).map (Prod.map (.unit n :: ·) id)
    | none => none
  | '\\' :: c :: rest =>
    match simpleEscape? c with
    | some e => (scanCodes rest).map (Prod.map (.char e :: ·) id)
    | none => none
  | c :: rest =>
    if c ≠ '\\' ∧ 0x20 ≤ c.toNat then (scanCodes rest).map (Prod.map (.char c :: ·) id) else none

theorem length_of_map_scanCodes {cs : List Char} {f : List Code → List Code}
    {r : List Code × List Char}
    (ih : ∀ {codes rest}, scanCodes cs = some (codes, rest) → rest.length < cs.length)
    (h : (scanCodes cs).map (Prod.map f id) = some r) : r.2.length < cs.length := by
  obtain ⟨⟨codes, rest⟩, hs, rfl⟩ := Option.map_eq_some_iff.1 h
  exact ih hs

theorem scanCodes_length {cs : List Char} {codes : List Code} {rest : List Char}
    (h : scanCodes cs = some (codes, rest)) : rest.length < cs.length := by
  fun_induction scanCodes cs generalizing codes rest with
  | case1 => simp at h
  | case2 r =>
    cases h
    simp
  | case3 a b c d r n _ ih =>
    have : rest.length < r.length := length_of_map_scanCodes ih h
    simp only [List.length_cons]
    omega
  | case4 => simp at h
  | case5 c r _ e _ ih =>
    have : rest.length < r.length := length_of_map_scanCodes ih h
    simp only [List.length_cons]
    omega
  | case6 => simp at h
  | case7 c r _ _ _ _ ih =>
    have : rest.length < r.length := length_of_map_scanCodes ih h
    simp only [List.length_cons]
    omega
  | case8 => simp at h

/-! ### Writing -/

/-- The hexadecimal digit for a number below 16, in lower case. -/
def hexChar (n : Nat) : Char :=
  Char.ofNat (if n < 10 then '0'.toNat + n else 'a'.toNat + (n - 10))

/-- A character inside a string. Control characters, quotes and backslashes are escaped, all others
stand for themselves. -/
def escapeCode : Char → List Char
  | '"' => ['\\', '"']
  | '\\' => ['\\', '\\']
  | '\x08' => ['\\', 'b']
  | '\x0c' => ['\\', 'f']
  | '\n' => ['\\', 'n']
  | '\r' => ['\\', 'r']
  | '\t' => ['\\', 't']
  | c =>
    if c.toNat < 0x20 then ['\\', 'u', '0', '0', hexChar (c.toNat / 16), hexChar (c.toNat % 16)]
    else [c]

/-- A string as JSON writes it. -/
def quote (s : String) : List Char :=
  '"' :: s.toList.flatMap escapeCode ++ ['"']

end CellQuery.Json
