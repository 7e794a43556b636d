import CellQuery.Text.Offset
import Mathlib.Order.Basic

/-!
# Texts as bytes

The UTF-8 form of a text, and where the bytes of one text stand among those of another. The first
byte of a character tells it from every other (`utf8EncodeChar_append_inj`), and no byte inside of a
character is a first byte. So bytes that spell a text begin and end between characters wherever they
stand (`occursAt_utf8_iff`), and a search among bytes finds what a search among characters finds.

`Leftmost` is such a search: each place found is the first one behind the last. It finds one list of
places and no other (`Leftmost.unique`).
-/

namespace CellQuery.Text

/-! ### The bytes of a text -/

/-- The bytes of characters, in order. -/
def utf8 (cs : List Char) : List UInt8 :=
  cs.flatMap String.utf8EncodeChar

section Bytes

variable {c d : Char} {cs needle : List Char} {before after : List UInt8}

@[simp] theorem utf8_nil : utf8 [] = [] := rfl

theorem utf8_cons (c : Char) (cs : List Char) :
    utf8 (c :: cs) = String.utf8EncodeChar c ++ utf8 cs := rfl

@[simp] theorem utf8_append (a b : List Char) : utf8 (a ++ b) = utf8 a ++ utf8 b := by
  simp [utf8]

@[simp] theorem length_utf8 (cs : List Char) : (utf8 cs).length = byteLength cs := by
  induction cs with
  | nil => rfl
  | cons c cs ih => rw [utf8_cons, List.length_append, String.length_utf8EncodeChar, ih,
      byteLength_cons]

/-- The bytes of a character are not the beginning of those of another. -/
theorem utf8EncodeChar_append_inj
    (h : String.utf8EncodeChar c ++ before = String.utf8EncodeChar d ++ after) :
    c = d ∧ before = after := by
  have hdecode := congrArg (fun bytes : List UInt8 => bytes.toByteArray.utf8DecodeChar? 0) h
  simp only [List.toByteArray_append, ByteArray.utf8DecodeChar?_utf8EncodeChar_append] at hdecode
  obtain rfl := Option.some.inj hdecode
  exact ⟨rfl, List.append_cancel_left h⟩

/-- A text whose bytes begin with those of `needle` begins with `needle`. -/
theorem exists_append_of_utf8_eq (h : utf8 needle ++ after = utf8 cs) :
    ∃ back, needle ++ back = cs ∧ utf8 back = after := by
  induction needle generalizing cs with
  | nil => exact ⟨cs, rfl, h.symm⟩
  | cons c needle ih =>
    rw [utf8_cons, List.append_assoc] at h
    cases cs with
    | nil =>
      have hpos := c.utf8Size_pos
      have hlen := congrArg List.length h
      rw [List.length_append, String.length_utf8EncodeChar, utf8_nil, List.length_nil] at hlen
      omega
    | cons d cs =>
      obtain ⟨rfl, hrest⟩ := utf8EncodeChar_append_inj (h.trans (utf8_cons d cs))
      obtain ⟨back, rfl, hback⟩ := ih hrest
      exact ⟨back, rfl, hback⟩

/-- The bytes of a character do not begin inside of those of another. -/
theorem eq_nil_of_inside {rest : List UInt8}
    (h : before ++ (String.utf8EncodeChar c ++ after) = String.utf8EncodeChar d ++ rest)
    (hinside : before.length < d.utf8Size) : before = [] := by
  -- at this place stands a byte that begins a character, and of those of `d` only the first does
  have hfirst : 0 < (String.utf8EncodeChar c).length := by
    rw [String.length_utf8EncodeChar]
    exact c.utf8Size_pos
  rw [← String.length_utf8EncodeChar] at hinside
  have hbyte := congrArg (·[before.length]?) h
  simp only [List.getElem?_append_left hinside, Nat.sub_self,
    List.getElem?_append_right (Nat.le_refl before.length), List.getElem?_append_left hfirst,
    List.getElem?_eq_getElem hfirst, List.getElem?_eq_getElem hinside] at hbyte
  have hbegins : (String.utf8EncodeChar d)[before.length].IsUTF8FirstByte := by
    rw [← Option.some.inj hbyte]
    exact UInt8.isUTF8FirstByte_getElem_zero_utf8EncodeChar
  exact List.eq_nil_of_length_eq_zero (UInt8.isUTF8FirstByte_getElem_utf8EncodeChar.mp hbegins)

/-- Bytes of a text in front of those of a character are whole characters. -/
theorem exists_front_of_utf8_eq (h : before ++ (String.utf8EncodeChar c ++ after) = utf8 cs) :
    ∃ front back, front ++ back = cs ∧ utf8 front = before ∧
      utf8 back = String.utf8EncodeChar c ++ after := by
  induction cs generalizing before with
  | nil =>
    have hpos := c.utf8Size_pos
    have hlen := congrArg List.length h
    rw [List.length_append, List.length_append, String.length_utf8EncodeChar, utf8_nil,
      List.length_nil] at hlen
    omega
  | cons d cs ih =>
    by_cases hnil : before = []
    · subst hnil
      exact ⟨[], d :: cs, rfl, rfl, h.symm⟩
    · rw [utf8_cons] at h
      -- the bytes of `d` lie in front of `c`, all of them, so the rest of the text is left
      have hlong : (String.utf8EncodeChar d).length ≤ before.length := by
        rw [String.length_utf8EncodeChar]
        exact Nat.le_of_not_lt fun hinside => hnil (eq_nil_of_inside h hinside)
      have hwhole : String.utf8EncodeChar d <+: before ++ (String.utf8EncodeChar c ++ after) := by
        rw [h]
        exact List.prefix_append _ _
      obtain ⟨rest, rfl⟩ :=
        List.prefix_of_prefix_length_le hwhole (List.prefix_append before _) hlong
      rw [List.append_assoc] at h
      obtain ⟨front, back, rfl, rfl, hback⟩ := ih (List.append_cancel_left h)
      exact ⟨d :: front, back, rfl, rfl, hback⟩

end Bytes

/-! ### Occurrences among bytes -/

/-- The bytes `needle` stand in `hay` from position `p` on. -/
def OccursAt (needle hay : List UInt8) (p : Nat) : Prop :=
  ∃ before after, before ++ (needle ++ after) = hay ∧ before.length = p

/-- **Bytes of a text stand between characters.** -/
theorem occursAt_utf8_iff {needle hay : List Char} {p : Nat} (hneedle : needle ≠ []) :
    OccursAt (utf8 needle) (utf8 hay) p ↔
      ∃ front back, front ++ (needle ++ back) = hay ∧ byteLength front = p := by
  constructor
  · rintro ⟨before, after, h, rfl⟩
    obtain ⟨c, rest, rfl⟩ := List.exists_cons_of_ne_nil hneedle
    rw [utf8_cons, List.append_assoc] at h
    obtain ⟨front, back, rfl, rfl, hback⟩ := exists_front_of_utf8_eq h
    rw [← List.append_assoc, ← utf8_cons] at hback
    obtain ⟨back, rfl, -⟩ := exists_append_of_utf8_eq hback.symm
    exact ⟨front, back, rfl, (length_utf8 front).symm⟩
  · rintro ⟨front, back, rfl, rfl⟩
    exact ⟨utf8 front, utf8 back, by simp, length_utf8 front⟩

/-- The places, from position `start` on, at which `needle` is found in `hay` from left to right:
each time at the first place that does not begin before the end of the last one, until there is
none. -/
inductive Leftmost (needle hay : List UInt8) : Nat → List Nat → Prop
  | none {start : Nat} : (∀ p, start ≤ p → ¬ OccursAt needle hay p) → Leftmost needle hay start []
  | next {start p : Nat} {places : List Nat} : start ≤ p → OccursAt needle hay p →
      (∀ q, start ≤ q → q < p → ¬ OccursAt needle hay q) →
      Leftmost needle hay (p + needle.length) places → Leftmost needle hay start (p :: places)

section Leftmost

variable {needle hay : List UInt8} {start start' : Nat} {places places' : List Nat}

theorem Leftmost.unique (h : Leftmost needle hay start places)
    (h' : Leftmost needle hay start places') : places' = places := by
  induction h generalizing places' with
  | none hnone =>
    cases h' with
    | none _ => rfl
    | next hp hoccurs _ _ => exact absurd hoccurs (hnone _ hp)
  | next hp hoccurs hfirst _ ih =>
    cases h' with
    | none hnone => exact absurd hoccurs (hnone _ hp)
    | next hp' hoccurs' hfirst' hrest' =>
      have heq := Nat.le_antisymm (Nat.le_of_not_lt fun hlt => hfirst' _ hp hlt hoccurs)
        (Nat.le_of_not_lt fun hlt => hfirst _ hp' hlt hoccurs')
      subst heq
      rw [ih hrest']

/-- Nothing is found in a stretch without occurrences. -/
theorem Leftmost.from_before (h : Leftmost needle hay start places) (hle : start' ≤ start)
    (hnone : ∀ q, start' ≤ q → q < start → ¬ OccursAt needle hay q) :
    Leftmost needle hay start' places := by
  have hout : ∀ q, start' ≤ q → (start ≤ q → ¬ OccursAt needle hay q) →
      ¬ OccursAt needle hay q := by
    intro q hq hlater
    by_cases hlt : q < start
    · exact hnone q hq hlt
    · exact hlater (Nat.le_of_not_lt hlt)
  cases h with
  | none hrest => exact .none fun p hp => hout p hp (hrest p)
  | next hp hoccurs hfirst hrest =>
    refine .next (Nat.le_trans hle hp) hoccurs (fun q hq hlt => ?_) hrest
    exact hout q hq fun hstart => hfirst q hstart hlt

end Leftmost

end CellQuery.Text
