import CellQuery.Proofs.Table.Selection
import Mathlib.Data.Finset.Card

/-!
# Selections as checkboxes

A selection is shown as a row of checkboxes, one for each column (`Selection.boxes`). Ticking a box
and unticking it is what it looks like, except that a row without any tick is never left: unticking
the last box ticks them all (`someOrAll`). All boxes and none have one selection, so toggling a
selection goes by way of the list of its columns and back (`boxes_normalized`), which is right for
every list of distinct columns, and each toggle leaves such a list (`boxes_toggle`).
-/

namespace CellQuery

/-! ### Boxes -/

/-- Boxes that are to be ticked, or all of them if there are none. -/
def someOrAll (count : Nat) (boxes : Finset Nat) : Finset Nat :=
  if boxes = ∅ then Finset.range count else boxes

/-- The ticked boxes out of `count` after one is ticked or unticked. A box that is not there changes
nothing. -/
def setBox (count : Nat) (boxes : Finset Nat) (index : Nat) (on : Bool) : Finset Nat :=
  if count ≤ index then boxes
  else if on then insert index boxes
  else someOrAll count (boxes.erase index)

theorem someOrAll_of_nonempty {count : Nat} {boxes : Finset Nat} (h : boxes.Nonempty) :
    someOrAll count boxes = boxes :=
  if_neg h.ne_empty

namespace Selection

variable {s : Selection} {count : Nat} {indexes : List Nat}

/-- The columns out of `count` that are ticked. -/
def boxes (s : Selection) (count : Nat) : Finset Nat :=
  (Finset.range count).filter (s.contains · = true)

/-- The columns to look at are the ticked ones. -/
theorem contains_iff_mem_indexes {i : Nat} (hi : i < count) :
    s.contains i = true ↔ i ∈ s.indexes count := by
  cases s with
  | all => exact iff_of_true rfl (List.mem_range.mpr hi)
  | only indexes => exact List.contains_iff_mem

theorem boxes_all (count : Nat) : all.boxes count = Finset.range count :=
  Finset.filter_true_of_mem fun _ _ => rfl

theorem Normal.boxes_eq (h : s.Normal count) : s.boxes count = (s.indexes count).toFinset := by
  ext i
  rw [boxes, Finset.mem_filter, Finset.mem_range, List.mem_toFinset]
  constructor
  · rintro ⟨hi, hmem⟩
    exact (contains_iff_mem_indexes hi).mp hmem
  · intro hmem
    have hi := h.indexes_spec.2 i hmem
    exact ⟨hi, (contains_iff_mem_indexes hi).mpr hmem⟩

/-- As many distinct columns as there are, are all of them. -/
theorem toFinset_eq_range (hnodup : indexes.Nodup) (hlt : ∀ i ∈ indexes, i < count)
    (hlong : count ≤ indexes.length) : indexes.toFinset = Finset.range count := by
  refine Finset.eq_of_subset_of_card_le (fun i hi => ?_) ?_
  · exact Finset.mem_range.mpr (hlt i (List.mem_toFinset.mp hi))
  · rwa [Finset.card_range, List.toFinset_card_of_nodup hnodup]

/-- A selection of distinct columns has their boxes ticked, or all if there are none. -/
theorem boxes_normalized (hnodup : indexes.Nodup) (hlt : ∀ i ∈ indexes, i < count) :
    (normalized indexes count).boxes count = someOrAll count indexes.toFinset := by
  have hnormal := normal_normalized hnodup hlt
  unfold normalized at hnormal ⊢
  split
  · next hnone =>
    rw [boxes_all, someOrAll]
    split
    · rfl
    · next hsome =>
      -- the list is not empty, so it is as long as there are columns
      have hempty : indexes.isEmpty = false := by simpa using hsome
      have hlong : count ≤ indexes.length := by simpa [hempty] using hnone
      exact (toFinset_eq_range hnodup hlt hlong).symm
  · next hreal =>
    have hsome : indexes.toFinset.Nonempty := by
      rw [List.toFinset_nonempty_iff]
      intro hnil
      simp [hnil] at hreal
    rw [if_neg hreal] at hnormal
    rw [hnormal.boxes_eq, someOrAll_of_nonempty hsome]
    rfl

theorem boxes_ofIndexes (indexes : List Nat) (count : Nat) : (ofIndexes indexes count).boxes count =
    someOrAll count (indexes.toFinset.filter (· < count)) := by
  have hnodup := nodup_eraseDups (indexes.filter (· < count))
  have hmem : ∀ i, i ∈ (indexes.filter (· < count)).eraseDups ↔ i ∈ indexes ∧ i < count := by
    simp [List.mem_eraseDups]
  rw [ofIndexes, boxes_normalized hnodup fun i hi => ((hmem i).mp hi).2]
  congr 1
  ext i
  rw [List.mem_toFinset, hmem, Finset.mem_filter, List.mem_toFinset]

/-- Every key that is found is that of a column. -/
theorem boxes_ofKeys (keys : List String) (columns : List Column) :
    (ofKeys keys columns).boxes columns.length =
      someOrAll columns.length (keys.filterMap (columnIndex? columns)).toFinset := by
  rw [ofKeys, boxes_ofIndexes, Finset.filter_true_of_mem]
  intro i hi
  obtain ⟨key, -, hkey⟩ := List.mem_filterMap.mp (List.mem_toFinset.mp hi)
  exact (List.findIdx?_eq_some_iff_getElem.mp hkey).1

/-! ### Toggling -/

/-- A toggle sets one box. -/
theorem Normal.boxes_toggle (h : s.Normal count) (i : Nat) (on : Bool) :
    (s.toggle i on count).boxes count = setBox count (s.boxes count) i on := by
  unfold setBox
  by_cases hi : i < count
  · obtain ⟨hnodup, hlt⟩ := h.indexes_spec
    rw [if_neg (Nat.not_le.mpr hi), toggle_eq s hi, h.boxes_eq,
      boxes_normalized (nodup_retick hnodup i on) (lt_of_mem_retick hlt hi on)]
    cases on with
    | false =>
      refine congrArg (someOrAll count) (Finset.ext fun j => ?_)
      rw [List.mem_toFinset, mem_retick, Finset.mem_erase, List.mem_toFinset]
      rfl
    | true =>
      have hinsert : (retick (s.indexes count) i true).toFinset =
          insert i (s.indexes count).toFinset := by
        ext j
        rw [List.mem_toFinset, mem_retick, Finset.mem_insert, List.mem_toFinset]
        rfl
      rw [hinsert, if_pos rfl, someOrAll_of_nonempty (Finset.insert_nonempty i _)]
  · have hout : s.toggle i on count = s := if_pos (Nat.le_of_not_lt hi)
    rw [if_pos (Nat.le_of_not_lt hi), hout]

/-- The selection after some boxes have been clicked, each with the tick it got. -/
def toggleAll (s : Selection) (count : Nat) (clicks : List (Nat × Bool)) : Selection :=
  clicks.foldl (fun s click => s.toggle click.1 click.2 count) s

theorem Normal.toggleAll (h : s.Normal count) (clicks : List (Nat × Bool)) :
    (s.toggleAll count clicks).Normal count ∧ (s.toggleAll count clicks).boxes count =
      clicks.foldl (fun boxes click => setBox count boxes click.1 click.2) (s.boxes count) := by
  induction clicks generalizing s with
  | nil => exact ⟨h, rfl⟩
  | cons click clicks ih =>
    rw [List.foldl_cons, ← h.boxes_toggle]
    exact ih (h.toggle click.1 click.2)

/-- The ways to begin with a selection out of `count` columns, and the boxes that are ticked
then. -/
inductive Starts (count : Nat) : Selection → Finset Nat → Prop
  | all : Starts count .all (Finset.range count)
  | ofIndexes (indexes : List Nat) :
    Starts count (.ofIndexes indexes count) (someOrAll count (indexes.toFinset.filter (· < count)))
  | ofKeys (keys : List String) {columns : List Column} : columns.length = count →
    Starts count (.ofKeys keys columns)
      (someOrAll count (keys.filterMap (columnIndex? columns)).toFinset)

theorem Starts.spec {start : Selection} {boxes : Finset Nat} (h : Starts count start boxes) :
    start.Normal count ∧ start.boxes count = boxes := by
  cases h with
  | all => exact ⟨normal_all, boxes_all count⟩
  | ofIndexes indexes => exact ⟨normal_ofIndexes indexes count, boxes_ofIndexes indexes count⟩
  | @ofKeys keys columns hcount =>
    subst hcount
    exact ⟨normal_ofKeys keys columns, boxes_ofKeys keys columns⟩

end Selection

/-- **Selections behave as checkboxes.** However it was begun and whichever boxes have been clicked,
a selection is no restriction or a real one, its columns to look at are the ticked ones, and the
ticks are those of a row of boxes that has been clicked alike. -/
theorem toggles_as_checkboxes {count : Nat} {start : Selection} {boxes : Finset Nat}
    (h : Selection.Starts count start boxes) (clicks : List (Nat × Bool)) :
    let s := start.toggleAll count clicks
    s.Normal count ∧ (∀ i < count, s.contains i = true ↔ i ∈ s.indexes count) ∧
      s.boxes count = clicks.foldl (fun boxes click => setBox count boxes click.1 click.2) boxes := by
  intro s
  obtain ⟨hnormal, hboxes⟩ := h.spec
  obtain ⟨hnormal, hclicks⟩ := hnormal.toggleAll clicks
  rw [hboxes] at hclicks
  exact ⟨hnormal, fun _ hi => Selection.contains_iff_mem_indexes hi, hclicks⟩

/-- Two of three columns are unticked, the second one after a box that is not there, and the last
one brings back all of them. -/
theorem toggles_as_checkboxes_last :
    let columns : List Column := [.single "A", .single "B", .single "C"]
    let start := Selection.ofKeys ["col.C", "col.X", "col.A"] columns
    let clicks := [(0, false), (3, true), (2, false)]
    let s := start.toggleAll 3 clicks
    Selection.Starts 3 start {0, 2} ∧ s.Normal 3 ∧ s.boxes 3 = {0, 1, 2} ∧ start = .only [2, 0] ∧
      start.toggleAll 3 [(0, false)] = .only [2] ∧ s = .all := by
  intro columns start clicks s
  have hstart : Selection.Starts 3 start {0, 2} := by
    have hboxes : someOrAll 3 (["col.C", "col.X", "col.A"].filterMap (columnIndex? columns)).toFinset =
        {0, 2} := by decide
    exact hboxes ▸ .ofKeys ["col.C", "col.X", "col.A"] rfl
  obtain ⟨hnormal, -, hclicks⟩ := toggles_as_checkboxes hstart clicks
  exact ⟨hstart, hnormal, hclicks.trans (by decide), by decide, by decide, by decide⟩

end CellQuery
