import CellQuery.Proofs.Grammar.Placement
import Mathlib.Data.List.Induction
import Mathlib.Order.Bounds.Basic

/-!
# Parentheses and their partners

A list of tokens is balanced if none of its fronts closes more parentheses than it opens and the
whole closes all of them (`Balanced`). Two parentheses are partners if what stands between them is
balanced (`Partners`). One without a partner is stray.

The counter `depthAfter` decides all of this. It fails at the first stray closing parenthesis
(`strayClose_iff`), and an opening parenthesis is stray exactly if the counter does not fail on what
stands behind it (`strayOpen_iff`). So a list is balanced, or it has a first stray closing
parenthesis, or it has none and a last stray opening one (`balanced_or_split`); `Fault` is the
position that this puts the blame on.
-/

namespace CellQuery

/-! ### Balanced lists -/

/-- The number of opening parentheses. -/
def opens (ts : List Token) : Nat :=
  ts.count (.operator .lparen)

/-- The number of closing parentheses. -/
def closes (ts : List Token) : Nat :=
  ts.count (.operator .rparen)

/-- No front of the list closes more parentheses than it opens, and the whole closes all of them. -/
structure Balanced (ts : List Token) : Prop where
  fronts : ∀ us, us <+: ts → closes us ≤ opens us
  whole : closes ts = opens ts

/-- The parentheses at `i` and `j` belong together. -/
def Partners (ts : List Token) (i j : Nat) : Prop :=
  ∃ before inner after, ts = before ++ .operator .lparen :: (inner ++ .operator .rparen :: after) ∧
    before.length = i ∧ i + 1 + inner.length = j ∧ Balanced inner

/-- A closing parenthesis without a partner. -/
def StrayClose (ts : List Token) (j : Nat) : Prop :=
  ts[j]? = some (.operator .rparen) ∧ ∀ i, ¬ Partners ts i j

/-- An opening parenthesis without a partner. -/
def StrayOpen (ts : List Token) (i : Nat) : Prop :=
  ts[i]? = some (.operator .lparen) ∧ ∀ j, ¬ Partners ts i j

/-- The first stray closing parenthesis, or where there is none the last stray opening one. -/
def Fault (ts : List Token) (p : Nat) : Prop :=
  IsLeast {j | StrayClose ts j} p ∨
    (∀ j, ¬ StrayClose ts j) ∧ IsGreatest {i | StrayOpen ts i} p

theorem Fault.unique {ts : List Token} {p q : Nat} (hp : Fault ts p) (hq : Fault ts q) : p = q := by
  rcases hp with hp | ⟨hnone, hp⟩
  · rcases hq with hq | ⟨hnone, -⟩
    · exact hp.unique hq
    · exact absurd hp.1 (hnone p)
  · rcases hq with hq | ⟨-, hq⟩
    · exact absurd hq.1 (hnone q)
    · exact hp.unique hq

/-! ### The counter -/

section Depth

variable {d e : Nat} {t : Token} {ts : List Token}

theorem opens_cons (t : Token) (ts : List Token) : opens (t :: ts) = opens [t] + opens ts := by
  rw [opens, ← List.singleton_append, List.count_append]
  rfl

theorem closes_cons (t : Token) (ts : List Token) : closes (t :: ts) = closes [t] + closes ts := by
  rw [closes, ← List.singleton_append, List.count_append]
  rfl

theorem depthStep_eq_some_iff : depthStep d t = some e ↔ d + opens [t] = e + closes [t] := by
  cases t with
  | operand s => simp [depthStep, opens, closes]
  | operator op =>
    cases op with
    | lparen => simp [depthStep, opens, closes]
    | rparen =>
      simp only [depthStep, opens, closes]
      split
      · simp
        omega
      · simp
        omega
    | and => simp [depthStep, opens, closes]
    | or => simp [depthStep, opens, closes]
    | not => simp [depthStep, opens, closes]

/-- The counter counts, as long as no front of the list has closed too many. -/
theorem depthAfter_eq_some_iff : depthAfter d ts = some e ↔
    (∀ us, us <+: ts → closes us ≤ d + opens us) ∧ d + opens ts = e + closes ts := by
  induction ts generalizing d with
  | nil => simp [depthAfter, opens, closes]
  | cons t ts ih =>
    simp only [depthAfter, Option.bind_eq_some_iff, depthStep_eq_some_iff, ih]
    constructor
    -- a front of the longer list is empty, or begins with its first token
    · rintro ⟨m, hstep, hfronts, hwhole⟩
      refine ⟨fun us hus => ?_, ?_⟩
      · rcases List.prefix_cons_iff.mp hus with rfl | ⟨vs, rfl, hvs⟩
        · exact Nat.zero_le _
        · have hfront := hfronts vs hvs
          rw [opens_cons, closes_cons]
          omega
      · rw [opens_cons, closes_cons]
        omega
    · rintro ⟨hfronts, hwhole⟩
      have hfirst := hfronts [t] (List.cons_prefix_cons.mpr ⟨rfl, List.nil_prefix⟩)
      refine ⟨d + opens [t] - closes [t], by omega, fun us hus => ?_, ?_⟩
      · have hfront := hfronts (t :: us) (List.cons_prefix_cons.mpr ⟨rfl, hus⟩)
        rw [opens_cons, closes_cons] at hfront
        omega
      · rw [opens_cons, closes_cons] at hwhole
        omega

theorem balanced_iff : Balanced ts ↔ depthAfter 0 ts = some 0 := by
  rw [depthAfter_eq_some_iff]
  constructor
  · rintro ⟨hfronts, hwhole⟩
    exact ⟨fun us hus => (Nat.zero_add _).symm ▸ hfronts us hus, by omega⟩
  · rintro ⟨hfronts, hwhole⟩
    exact ⟨fun us hus => Nat.zero_add (opens us) ▸ hfronts us hus, by omega⟩

/-- Parentheses that stand open from before do not matter to those that are opened later. -/
theorem depthAfter_add (h : depthAfter d ts = some e) (k : Nat) :
    depthAfter (d + k) ts = some (e + k) := by
  rw [depthAfter_eq_some_iff] at h ⊢
  obtain ⟨hfronts, hwhole⟩ := h
  refine ⟨fun us hus => ?_, by omega⟩
  have hfront := hfronts us hus
  omega

theorem depthAfter_append_eq_some {us : List Token} (h : depthAfter d (ts ++ us) = some e) :
    ∃ m, depthAfter d ts = some m ∧ depthAfter m us = some e := by
  rw [depthAfter_append] at h
  exact Option.bind_eq_some_iff.mp h

/-- Where the counter fails, a parenthesis closes when none is open. -/
theorem exists_close_of_depthAfter_eq_none (h : depthAfter d ts = none) :
    ∃ inner rest, ts = inner ++ .operator .rparen :: rest ∧ depthAfter d inner = some 0 := by
  induction ts generalizing d with
  | nil => cases h
  | cons t ts ih =>
    cases hstep : depthStep d t with
    | none =>
      have hclose : t = .operator .rparen ∧ d = 0 := by
        unfold depthStep at hstep
        split at hstep
        · cases hstep
        · split at hstep
          · next hd => exact ⟨rfl, hd⟩
          · cases hstep
        · cases hstep
      obtain ⟨rfl, rfl⟩ := hclose
      exact ⟨[], ts, rfl, rfl⟩
    | some m =>
      rw [depthAfter, hstep, Option.bind_some] at h
      obtain ⟨inner, rest, rfl, hinner⟩ := ih h
      exact ⟨t :: inner, rest, rfl, by rw [depthAfter, hstep, Option.bind_some, hinner]⟩

theorem eq_lparen_of_rises (h : depthStep d t = some e) (hlt : d < e) :
    t = .operator .lparen ∧ e = d + 1 := by
  unfold depthStep at h
  split at h
  · cases h
    exact ⟨rfl, rfl⟩
  · split at h
    · cases h
    · cases h
      omega
  · cases h
    omega

/-- Of the parentheses that stand open in the end, the one above `d` others. What stands behind it
never falls back to their level. -/
theorem exists_open_of_depthAfter (h : depthAfter 0 ts = some e) (hd : d < e) :
    ∃ before after, ts = before ++ .operator .lparen :: after ∧
      depthAfter 0 before = some d ∧ depthAfter 0 after = some (e - (d + 1)) := by
  induction ts using List.reverseRecOn generalizing e with
  | nil =>
    cases h
    omega
  | append_singleton ts t ih =>
    obtain ⟨m, hts, hlast⟩ := depthAfter_append_eq_some h
    obtain ⟨_, hstep, ⟨⟩⟩ := Option.bind_eq_some_iff.mp hlast
    rcases Nat.lt_or_ge d m with hm | hm
    -- the level was reached before, and the last token stays above it
    · obtain ⟨before, after, rfl, hbefore, hafter⟩ := ih hts hm
      refine ⟨before, after ++ [t], by simp, hbefore, ?_⟩
      have hstep' : depthStep (m - (d + 1)) t = some (e - (d + 1)) := by
        rw [depthStep_eq_some_iff] at hstep ⊢
        omega
      rw [depthAfter_append, hafter, Option.bind_some, depthAfter, hstep', Option.bind_some]
      rfl
    · -- the level is reached by this very token
      obtain ⟨rfl, rfl⟩ := eq_lparen_of_rises hstep (Nat.lt_of_le_of_lt hm hd)
      obtain rfl : d = m := by omega
      exact ⟨ts, [], rfl, hts, by rw [Nat.sub_self]; rfl⟩

end Depth

/-! ### Partners -/

section Partners

variable {before after ts : List Token} {d e : Nat}

theorem exists_append_of_getElem?_eq_some {ts : List Token} {t : Token} {i : Nat}
    (h : ts[i]? = some t) : ∃ before after, ts = before ++ t :: after ∧ before.length = i := by
  obtain ⟨hlt, rfl⟩ := List.getElem?_eq_some_iff.mp h
  exact ⟨ts.take i, ts.drop (i + 1), by simp, List.length_take_of_le (Nat.le_of_lt hlt)⟩

theorem depthAfter_of_partner {inner : List Token} (h : Balanced inner) (d : Nat) :
    depthAfter d inner = some d := by
  have hinner := depthAfter_add (balanced_iff.mp h) d
  rwa [Nat.zero_add] at hinner

/-- A closing parenthesis that the counter reaches is stray exactly if none is open then. -/
theorem strayClose_iff (h : depthAfter 0 before = some e) :
    StrayClose (before ++ .operator .rparen :: after) before.length ↔ e = 0 := by
  have hclose : (before ++ .operator .rparen :: after)[before.length]? =
      some (.operator .rparen) := by simp
  constructor
  -- the innermost parenthesis that is open would be its partner
  · rintro ⟨-, hstray⟩
    refine Nat.eq_zero_of_not_pos fun hpos => ?_
    obtain ⟨front, inner, rfl, -, hinner⟩ :=
      exists_open_of_depthAfter (d := e - 1) h (Nat.sub_lt hpos Nat.one_pos)
    rw [show e - (e - 1 + 1) = 0 by omega, ← balanced_iff] at hinner
    refine hstray front.length ⟨front, inner, after, by simp, rfl, ?_, hinner⟩
    simp
    omega
  · rintro rfl
    refine ⟨hclose, ?_⟩
    rintro i ⟨front, inner, rest, hsplit, rfl, hlength, hinner⟩
    have hbefore : before = front ++ .operator .lparen :: inner := by
      rw [← List.cons_append, ← List.append_assoc] at hsplit
      refine (List.append_inj hsplit ?_).1
      simp
      omega
    obtain ⟨m, -, hm⟩ := depthAfter_append_eq_some (hbefore ▸ h)
    rw [depthAfter, depthStep, Option.bind_some, depthAfter_of_partner hinner] at hm
    cases hm

/-- An opening parenthesis is stray exactly if what follows never closes one too many. -/
theorem strayOpen_iff (before after : List Token) :
    StrayOpen (before ++ .operator .lparen :: after) before.length ↔
      ∃ e, depthAfter 0 after = some e := by
  have hopen : (before ++ .operator .lparen :: after)[before.length]? =
      some (.operator .lparen) := by simp
  constructor
  · rintro ⟨-, hstray⟩
    refine Option.ne_none_iff_exists'.mp fun hnone => ?_
    obtain ⟨inner, rest, rfl, hinner⟩ := exists_close_of_depthAfter_eq_none hnone
    exact hstray _ ⟨before, inner, rest, rfl, rfl, rfl, balanced_iff.mpr hinner⟩
  -- behind a partner the count goes below zero
  · rintro ⟨e, he⟩
    refine ⟨hopen, ?_⟩
    rintro j ⟨front, inner, rest, hsplit, hlength, -, hinner⟩
    obtain ⟨rfl, htail⟩ := List.append_inj hsplit hlength.symm
    obtain ⟨-, rfl⟩ := List.cons.inj htail
    obtain ⟨m, hm, hrest⟩ := depthAfter_append_eq_some he
    rw [depthAfter_of_partner hinner, Option.some.injEq] at hm
    subst hm
    cases hrest

theorem not_strayClose_of_depthAfter (h : depthAfter 0 ts = some e) (j : Nat) :
    ¬ StrayClose ts j := by
  intro hstray
  obtain ⟨before, after, rfl, rfl⟩ := exists_append_of_getElem?_eq_some hstray.1
  obtain ⟨m, hm, hrest⟩ := depthAfter_append_eq_some h
  obtain rfl := (strayClose_iff hm).mp hstray
  cases hrest

/-- Where all parentheses are closed in the end, each opening one has a partner. -/
theorem not_strayOpen_of_balanced (h : Balanced ts) (i : Nat) : ¬ StrayOpen ts i := by
  intro hstray
  obtain ⟨before, after, rfl, rfl⟩ := exists_append_of_getElem?_eq_some hstray.1
  obtain ⟨e, he⟩ := (strayOpen_iff before after).mp hstray
  obtain ⟨m, -, hm⟩ := depthAfter_append_eq_some (balanced_iff.mp h)
  rw [depthAfter, depthStep, Option.bind_some, ← Nat.zero_add (m + 1), depthAfter_add he] at hm
  cases hm

end Partners

/-! ### Where the parentheses fail -/

section Fault

variable {before after ts : List Token}

theorem Balanced.not_fault (h : Balanced ts) (p : Nat) : ¬ Fault ts p := by
  rintro (hp | ⟨-, hp⟩)
  · exact not_strayClose_of_depthAfter (balanced_iff.mp h) p hp.1
  · exact not_strayOpen_of_balanced h p hp.1

/-- The closing parenthesis behind a balanced front is the first stray one. -/
theorem fault_of_close (h : Balanced before) (after : List Token) :
    Fault (before ++ .operator .rparen :: after) before.length := by
  refine .inl ⟨(strayClose_iff (balanced_iff.mp h)).mpr rfl, fun j hj => ?_⟩
  refine Nat.le_of_not_lt fun hlt => ?_
  -- an earlier one stands in the front
  have hin : before[j]? = some (.operator .rparen) := by
    rw [← hj.1, List.getElem?_append_left hlt]
  obtain ⟨front, rest, rfl, rfl⟩ := exists_append_of_getElem?_eq_some hin
  obtain ⟨m, hm, hrest⟩ := depthAfter_append_eq_some (balanced_iff.mp h)
  rw [List.append_assoc, List.cons_append] at hj
  obtain rfl := (strayClose_iff hm).mp hj
  cases hrest

/-- The opening parenthesis before a balanced rest is the last stray one, if no closing one is. -/
theorem fault_of_open {d : Nat} (hbefore : depthAfter 0 before = some d) (hafter : Balanced after) :
    Fault (before ++ .operator .lparen :: after) before.length := by
  have hafter' := balanced_iff.mp hafter
  have hdepth : depthAfter 0 (before ++ .operator .lparen :: after) = some (d + 1) := by
    rw [depthAfter_append, hbefore, Option.bind_some, depthAfter, depthStep, Option.bind_some,
      depthAfter_of_partner hafter]
  refine .inr ⟨not_strayClose_of_depthAfter hdepth, (strayOpen_iff before after).mpr ⟨0, hafter'⟩,
    fun i hi => Nat.le_of_not_lt fun hlt => ?_⟩
  -- a later one would be stray in the balanced rest, too
  obtain ⟨k, rfl⟩ := Nat.exists_eq_add_of_lt hlt
  have hin : after[k]? = some (.operator .lparen) := by
    rw [← hi.1, List.getElem?_append_right (by omega), Nat.add_assoc, Nat.add_sub_cancel_left,
      List.getElem?_cons_succ]
  obtain ⟨inner, rest, rfl, rfl⟩ := exists_append_of_getElem?_eq_some hin
  have hstray : StrayOpen ((before ++ .operator .lparen :: inner) ++ .operator .lparen :: rest)
      (before ++ .operator .lparen :: inner).length := by
    simpa [Nat.add_assoc] using hi
  exact not_strayOpen_of_balanced hafter _
    ((strayOpen_iff inner rest).mpr ((strayOpen_iff _ rest).mp hstray))

/-- A list is balanced, or closes one parenthesis too many, or leaves one open. -/
theorem balanced_or_split (ts : List Token) :
    Balanced ts ∨
      (∃ before after, ts = before ++ .operator .rparen :: after ∧ Balanced before) ∨
      ∃ before after d, ts = before ++ .operator .lparen :: after ∧
        depthAfter 0 before = some d ∧ Balanced after := by
  cases hdepth : depthAfter 0 ts with
  | none =>
    obtain ⟨before, after, rfl, hbefore⟩ := exists_close_of_depthAfter_eq_none hdepth
    exact .inr (.inl ⟨before, after, rfl, balanced_iff.mpr hbefore⟩)
  | some e =>
    cases e with
    | zero => exact .inl (balanced_iff.mpr hdepth)
    | succ d =>
      obtain ⟨before, after, rfl, hbefore, hafter⟩ :=
        exists_open_of_depthAfter hdepth (Nat.lt_succ_self d)
      rw [Nat.sub_self, ← balanced_iff] at hafter
      exact .inr (.inr ⟨before, after, d, rfl, hbefore, hafter⟩)

end Fault

end CellQuery
