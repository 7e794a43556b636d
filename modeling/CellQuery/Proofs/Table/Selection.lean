import CellQuery.Table.Selection
import Mathlib.Data.List.Nodup

/-!
# Selections and their keys

A selection is indexes while a table is in use, and keys when it has to outlast the table. Where
the keys of the columns are distinct, the key of a column finds that column (`columnIndex?_key`).

However a selection was made, it is either no restriction or a real one: some of the columns, each
once, and not all of them (`Normal`). Such a selection is found again from its keys (`ofKeys_keys`).
-/

namespace CellQuery

/-! ### Looking up a key -/

section Lookup

variable {columns : List Column}

theorem columnIndex?_key (h : (columns.map Column.key).Nodup) {i : Nat} {c : Column}
    (hi : columns[i]? = some c) : columnIndex? columns c.key = some i := by
  obtain ⟨hlt, rfl⟩ := List.getElem?_eq_some_iff.mp hi
  refine List.findIdx?_eq_some_iff_getElem.mpr ⟨hlt, beq_self_eq_true _, fun j hj hkey => ?_⟩
  have hjlt : j < columns.length := Nat.lt_trans hj hlt
  have hkeys : (columns.map Column.key)[j]? = (columns.map Column.key)[i]? := by
    rw [List.getElem?_map, List.getElem?_map, List.getElem?_eq_getElem hjlt,
      List.getElem?_eq_getElem hlt]
    exact congrArg some (eq_of_beq hkey)
  have hji : j = i := (List.getElem?_inj (by simpa using hjlt) h).mp hkeys
  omega

/-- Keys are distinct exactly if each of them finds its own column. -/
theorem nodup_keys_iff : (columns.map Column.key).Nodup ↔
    ∀ i c, columns[i]? = some c → columnIndex? columns c.key = some i := by
  constructor
  · intro h i c hi
    exact columnIndex?_key h hi
  · intro h
    rw [List.nodup_iff_injective_getElem]
    rintro ⟨i, hi⟩ ⟨j, hj⟩ hkey
    simp only [List.length_map] at hi hj
    have hfirst := h i columns[i] (List.getElem?_eq_getElem hi)
    have hsecond := h j columns[j] (List.getElem?_eq_getElem hj)
    simp only [List.getElem_map] at hkey
    rw [hkey, hsecond, Option.some.injEq] at hfirst
    exact Fin.ext hfirst.symm

/-- One column is found by one key only. -/
theorem columnIndex?_inj {key key' : String} {i : Nat} (h : columnIndex? columns key = some i)
    (h' : columnIndex? columns key' = some i) : key = key' := by
  obtain ⟨_, hkey, -⟩ := List.findIdx?_eq_some_iff_getElem.mp h
  obtain ⟨_, hkey', -⟩ := List.findIdx?_eq_some_iff_getElem.mp h'
  exact (eq_of_beq hkey).symm.trans (eq_of_beq hkey')

theorem exists_columnIndex? {key : String} (h : key ∈ columns.map Column.key) :
    ∃ i, columnIndex? columns key = some i := by
  obtain ⟨c, hc, rfl⟩ := List.mem_map.mp h
  exact Option.isSome_iff_exists.mp (List.findIdx?_isSome.trans
    (List.any_eq_true.mpr ⟨c, hc, beq_self_eq_true _⟩))

end Lookup

/-! ### Repeats -/

section Repeats

variable {α : Type} [BEq α] [LawfulBEq α]

theorem nodup_eraseDups (as : List α) : as.eraseDups.Nodup := by
  cases as with
  | nil => simp
  | cons a as =>
    rw [List.eraseDups_cons, List.nodup_cons]
    exact ⟨by simp [List.mem_eraseDups], nodup_eraseDups _⟩
termination_by as.length
decreasing_by exact Nat.lt_succ_of_le (List.length_filter_le _ _)

theorem eraseDups_of_nodup {as : List α} (h : as.Nodup) : as.eraseDups = as := by
  induction as with
  | nil => rfl
  | cons a as ih =>
    obtain ⟨ha, has⟩ := List.nodup_cons.mp h
    have hkeep : as.filter (fun b => !b == a) = as := by
      refine List.filter_eq_self.mpr fun b hb => ?_
      have hne : b ≠ a := fun hba => ha (hba ▸ hb)
      simpa using hne
    rw [List.eraseDups_cons, hkeep, ih has]

end Repeats

namespace Selection

/-! ### Normal selections -/

/-- What a selection out of `count` columns looks like. A restriction names some of them, each once,
and not all. -/
def Normal (count : Nat) : Selection → Prop
  | all => True
  | only indexes =>
    indexes.Nodup ∧ (∀ i ∈ indexes, i < count) ∧ indexes ≠ [] ∧ indexes.length < count

variable {s : Selection} {count : Nat} {indexes : List Nat}

theorem normal_all : all.Normal count := trivial

theorem normal_normalized (hnodup : indexes.Nodup) (hlt : ∀ i ∈ indexes, i < count) :
    (normalized indexes count).Normal count := by
  unfold normalized
  split
  · exact normal_all
  · next h =>
    simp only [Bool.or_eq_true, List.isEmpty_iff, decide_eq_true_eq, not_or, Nat.not_le] at h
    exact ⟨hnodup, hlt, h.1, h.2⟩

theorem Normal.lt_of_mem_restriction (h : s.Normal count) : ∀ i ∈ s.restriction, i < count := by
  cases s with
  | all => simp [restriction]
  | only indexes => exact h.2.1

theorem Normal.nodup_restriction (h : s.Normal count) : s.restriction.Nodup := by
  cases s with
  | all => exact List.nodup_nil
  | only indexes => exact h.1

theorem Normal.normalized_restriction (h : s.Normal count) :
    normalized s.restriction count = s := by
  cases s with
  | all => rfl
  | only indexes =>
    obtain ⟨-, -, hne, hshort⟩ := h
    have hlong : ¬ count ≤ indexes.length := Nat.not_le.mpr hshort
    simp [normalized, restriction, hne, hlong]

/-- The columns that are ticked, none of them twice. -/
theorem Normal.indexes_spec (h : s.Normal count) :
    (s.indexes count).Nodup ∧ ∀ i ∈ s.indexes count, i < count := by
  cases s with
  | all => exact ⟨List.nodup_range, fun i hi => List.mem_range.mp hi⟩
  | only indexes => exact ⟨h.1, h.2.1⟩

/-! ### Making one -/

theorem normal_ofIndexes (indexes : List Nat) (count : Nat) :
    (ofIndexes indexes count).Normal count := by
  refine normal_normalized (nodup_eraseDups _) fun i hi => ?_
  simpa using (List.mem_filter.mp (List.mem_eraseDups.mp hi)).2

theorem normal_ofKeys (keys : List String) (columns : List Column) :
    (ofKeys keys columns).Normal columns.length :=
  normal_ofIndexes _ _

/-- The columns of a list after one is ticked or unticked. -/
def retick (indexes : List Nat) (i : Nat) (on : Bool) : List Nat :=
  if on then if indexes.contains i then indexes else indexes ++ [i] else indexes.filter (· ≠ i)

theorem mem_retick {i j : Nat} {on : Bool} :
    j ∈ retick indexes i on ↔ if on then j = i ∨ j ∈ indexes else j ≠ i ∧ j ∈ indexes := by
  cases on with
  | false => simp [retick, and_comm]
  | true =>
    by_cases hmem : i ∈ indexes
    · have hold : j = i → j ∈ indexes := fun hji => hji ▸ hmem
      simpa [retick, hmem] using hold
    · simp [retick, hmem, or_comm]

theorem nodup_retick (h : indexes.Nodup) (i : Nat) (on : Bool) : (retick indexes i on).Nodup := by
  cases on with
  | false => exact h.filter _
  | true =>
    by_cases hmem : i ∈ indexes
    · simpa [retick, hmem] using h
    · have hnew : (indexes ++ [i]).Nodup := by
        rw [← List.concat_eq_append]
        exact h.concat hmem
      simpa [retick, hmem] using hnew

theorem lt_of_mem_retick (h : ∀ j ∈ indexes, j < count) {i : Nat} (hi : i < count) (on : Bool) :
    ∀ j ∈ retick indexes i on, j < count := by
  intro j hj
  rw [mem_retick] at hj
  cases on with
  | false => exact h j hj.2
  | true =>
    rcases hj with rfl | hj
    · exact hi
    · exact h j hj

theorem toggle_eq (s : Selection) {i : Nat} (hi : i < count) (on : Bool) :
    s.toggle i on count = normalized (retick (s.indexes count) i on) count := by
  unfold toggle
  rw [if_neg (Nat.not_le.mpr hi)]
  cases s <;> cases on <;> rfl

theorem Normal.toggle (h : s.Normal count) (i : Nat) (on : Bool) :
    (s.toggle i on count).Normal count := by
  by_cases hi : i < count
  · obtain ⟨hnodup, hlt⟩ := h.indexes_spec
    rw [toggle_eq s hi]
    exact normal_normalized (nodup_retick hnodup i on) (lt_of_mem_retick hlt hi on)
  · unfold Selection.toggle
    rwa [if_pos (Nat.le_of_not_lt hi)]

/-! ### From keys to indexes and back -/

theorem ofIndexes_eq_normalized (hnodup : indexes.Nodup) (hlt : ∀ i ∈ indexes, i < count) :
    ofIndexes indexes count = normalized indexes count := by
  have hkeep : indexes.filter (· < count) = indexes :=
    List.filter_eq_self.mpr fun i hi => decide_eq_true (hlt i hi)
  rw [ofIndexes, hkeep, eraseDups_of_nodup hnodup]

/-- Distinct keys find the indexes that they are the keys of. -/
theorem filterMap_columnIndex?_keys {columns : List Column} (h : (columns.map Column.key).Nodup)
    (hlt : ∀ i ∈ indexes, i < columns.length) :
    ((indexes.filterMap (columns[·]?)).map Column.key).filterMap (columnIndex? columns) =
      indexes := by
  induction indexes with
  | nil => rfl
  | cons i indexes ih =>
    have hin : i < columns.length := hlt i List.mem_cons_self
    have hi : columns[i]? = some columns[i] := List.getElem?_eq_getElem hin
    have hrest := ih fun j hj => hlt j (List.mem_cons_of_mem _ hj)
    rw [List.filterMap_cons_some hi, List.map_cons,
      List.filterMap_cons_some (columnIndex?_key h hi), hrest]

/-- A selection is found again from its keys. -/
theorem ofKeys_keys {columns : List Column} (h : (columns.map Column.key).Nodup)
    (hs : s.Normal columns.length) : ofKeys (s.keys columns) columns = s :=
  calc ofKeys (s.keys columns) columns
    _ = ofIndexes s.restriction columns.length := by
        rw [ofKeys, keys, filterMap_columnIndex?_keys h hs.lt_of_mem_restriction]
    _ = normalized s.restriction columns.length :=
        ofIndexes_eq_normalized hs.nodup_restriction hs.lt_of_mem_restriction
    _ = s := hs.normalized_restriction

/-! ### Few columns and few keys -/

section Few

variable {columns : List Column} {key : String} {keys : List String} {i : Nat}

/-- Out of a single column, or none, there is no restriction. -/
theorem ofKeys_eq_all (h : columns.length ≤ 1) (keys : List String) :
    ofKeys keys columns = .all := by
  have hnormal := normal_ofKeys keys columns
  cases hs : ofKeys keys columns with
  | all => rfl
  | only indexes =>
    rw [hs] at hnormal
    obtain ⟨-, -, hne, hshort⟩ := hnormal
    have hpos := List.length_pos_iff.mpr hne
    omega

theorem ofKeys_singleton (h : columnIndex? columns key = some i) (hcount : 1 < columns.length) :
    ofKeys [key] columns = .only [i] := by
  have hlt : i < columns.length := (List.findIdx?_eq_some_iff_getElem.mp h).1
  rw [ofKeys, List.filterMap_cons_some h, List.filterMap_nil,
    ofIndexes_eq_normalized (List.nodup_singleton i) (by simpa using hlt), normalized,
    if_neg (by simpa using hcount)]

/-- A restriction has no column that none of the keys finds. -/
theorem exists_of_mem_restriction_ofKeys (h : i ∈ (ofKeys keys columns).restriction) :
    ∃ key ∈ keys, columnIndex? columns key = some i := by
  have hmem :
      i ∈ ((keys.filterMap (columnIndex? columns)).filter (· < columns.length)).eraseDups := by
    unfold ofKeys ofIndexes normalized at h
    split at h
    · cases h
    · exact h
  exact List.mem_filterMap.mp (List.mem_of_mem_filter (List.mem_eraseDups.mp hmem))

end Few

end Selection

end CellQuery
