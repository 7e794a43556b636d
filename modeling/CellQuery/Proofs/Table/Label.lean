import CellQuery.Proofs.Table.Selection
import CellQuery.Session.Basic
import CellQuery.Table.Header
import Mathlib.Data.List.Basic

/-!
# When labels are distinct

The second use of a label has ` (2)` behind it, the third ` (3)`. Numbering tells the uses of one
label apart (`withNumber_inj`), and the uses of different ones too, unless a header text asks for
just the label that a later use of another one is given: `A`, `A (2)`, `A`. That is the only way in
which two columns get one label (`nodup_numberFrom_iff`). Keys are distinct exactly if labels are.
-/

namespace CellQuery

/-! ### Numbers behind labels -/

/-- A label with the number of its use behind it. -/
def withNumber (base : String) (n : Nat) : String :=
  s!"{base} ({n})"

theorem toList_withNumber (base : String) (n : Nat) :
    (withNumber base n).toList = (base.toList ++ [' ']) ++ '(' :: (Nat.toDigits 10 n ++ [')']) := by
  have hspelt : withNumber base n = base ++ " (" ++ toString n ++ ")" := rfl
  have hopen : " (".toList = [' ', '('] := by decide
  have hclose : ")".toList = [')'] := by decide
  rw [hspelt]
  simp only [String.toList_append, hopen, hclose, Nat.toString_eq_ofList_toDigits,
    String.toList_ofList, List.append_assoc, List.cons_append, List.nil_append]

/-- Two texts are cut alike at their last `c`. -/
theorem append_cons_inj_of_notMem_right {α : Type} {c : α} {as bs xs ys : List α} (hx : c ∉ xs)
    (hy : c ∉ ys) (h : as ++ c :: xs = bs ++ c :: ys) : as = bs ∧ xs = ys := by
  rcases List.append_eq_append_iff.mp h with ⟨ds, hbs, htail⟩ | ⟨ds, has, htail⟩
  · cases ds with
    | nil =>
      rw [List.append_nil] at hbs
      rw [List.nil_append, List.cons.injEq] at htail
      exact ⟨hbs.symm, htail.2⟩
    | cons d ds =>
      rw [List.cons_append, List.cons.injEq] at htail
      exact absurd (htail.2 ▸ List.mem_append_right ds List.mem_cons_self) hx
  · cases ds with
    | nil =>
      rw [List.append_nil] at has
      rw [List.nil_append, List.cons.injEq] at htail
      exact ⟨has, htail.2.symm⟩
    | cons d ds =>
      rw [List.cons_append, List.cons.injEq] at htail
      exact absurd (htail.2 ▸ List.mem_append_right ds List.mem_cons_self) hy

theorem withNumber_inj {a b : String} {m n : Nat} :
    withNumber a m = withNumber b n ↔ a = b ∧ m = n := by
  constructor
  · intro h
    have hopen : ∀ k, '(' ∉ Nat.toDigits 10 k ++ [')'] := by
      intro k hmem
      rcases List.mem_append.mp hmem with hmem | hmem
      · exact absurd (Nat.isDigit_of_mem_toDigits (by omega) (by omega) hmem) (by decide)
      · exact absurd (List.mem_singleton.mp hmem) (by decide)
    have hchars := congrArg String.toList h
    rw [toList_withNumber, toList_withNumber] at hchars
    obtain ⟨hbase, hdigits⟩ := append_cons_inj_of_notMem_right (hopen m) (hopen n) hchars
    refine ⟨String.toList_inj.mp (List.append_cancel_right hbase), ?_⟩
    have hvalue := congrArg (Nat.ofDigitChars 10 · 0) (List.append_cancel_right hdigits)
    simpa using hvalue
  · rintro ⟨rfl, rfl⟩
    rfl

theorem withNumber_ne_self (base : String) (n : Nat) : withNumber base n ≠ base := by
  intro h
  have hlen := congrArg (fun s => s.toList.length) h
  simp [toList_withNumber] at hlen

/-! ### Uses -/

/-- The label of the use of `base` that has `n` uses before it. -/
def labelOfUse (base : String) (n : Nat) : String :=
  if n = 0 then base else withNumber base (n + 1)

theorem numbered_eq_labelOfUse (earlier : List String) (base : String) :
    numbered earlier base = labelOfUse base (earlier.count base) := by
  unfold numbered labelOfUse
  cases earlier.count base <;> rfl

/-- A label is that of one use of one text, or a first use spells out a later one. -/
theorem labelOfUse_eq_cases {a b : String} {m n : Nat} (h : labelOfUse a m = labelOfUse b n) :
    (a = b ∧ m = n) ∨ (0 < n ∧ withNumber b (n + 1) = a) ∨ (0 < m ∧ withNumber a (m + 1) = b) := by
  unfold labelOfUse at h
  split at h
  · next hm =>
    split at h
    · next hn => exact .inl ⟨h, hm.trans hn.symm⟩
    · next hn => exact .inr (.inl ⟨Nat.pos_of_ne_zero hn, h.symm⟩)
  · next hm =>
    split at h
    · next hn => exact .inr (.inr ⟨Nat.pos_of_ne_zero hm, h⟩)
    · next hn =>
      obtain ⟨hab, hmn⟩ := withNumber_inj.mp h
      exact .inl ⟨hab, Nat.succ_inj.mp hmn⟩

theorem getElem?_numberFrom (earlier bases : List String) (i : Nat) :
    (numberFrom earlier bases)[i]? = bases[i]?.map fun base =>
      labelOfUse base (earlier.count base + bases.countBefore base i) := by
  induction bases generalizing earlier i with
  | nil => rfl
  | cons first rest ih =>
    cases i with
    | zero => simp [numberFrom, numbered_eq_labelOfUse]
    | succ i =>
      simp only [numberFrom, List.getElem?_cons_succ, ih, List.countBefore_cons_succ,
        List.count_cons]
      refine congrArg (rest[i]?.map ·) (funext fun base => ?_)
      rw [Nat.add_right_comm, Nat.add_assoc]

/-- No text is asked for as a label that is also the numbered form of a text asked for so often. -/
def ClashFree (bases : List String) : Prop :=
  ∀ base ∈ bases, ∀ n ≤ bases.count base, 2 ≤ n → withNumber base n ∉ bases

instance (bases : List String) : Decidable (ClashFree bases) :=
  inferInstanceAs (Decidable (∀ base ∈ bases, ∀ n ≤ bases.count base, 2 ≤ n → _))

section Distinct

variable {bases : List String}

theorem label_of_use {i : Nat} {base : String} (h : bases[i]? = some base) :
    (numberFrom [] bases)[i]? = some (labelOfUse base (bases.countBefore base i)) := by
  rw [getElem?_numberFrom, h, Option.map_some, List.count_nil, Nat.zero_add]

/-- Every use of a text stands somewhere. -/
theorem exists_use {base : String} {n : Nat} (h : n < bases.count base) :
    ∃ i, bases[i]? = some base ∧ bases.countBefore base i = n := by
  have hi := List.idxOfNth_lt_length_of_lt_count h
  refine ⟨bases.idxOfNth base n, ?_, List.countBefore_idxOfNth_of_lt_count h⟩
  rw [List.getElem?_eq_getElem hi, List.getElem_idxOfNth_eq]

theorem use_inj {i j : Nat} {base : String} (hi : bases[i]? = some base)
    (hj : bases[j]? = some base) (h : bases.countBefore base i = bases.countBefore base j) :
    i = j := by
  obtain ⟨hilt, hi⟩ := List.getElem?_eq_some_iff.mp hi
  obtain ⟨hjlt, hj⟩ := List.getElem?_eq_some_iff.mp hj
  have hfirst := List.idxOfNth_countBefore_getElem (h := hilt)
  have hsecond := List.idxOfNth_countBefore_getElem (h := hjlt)
  rw [hi, h] at hfirst
  rw [hj] at hsecond
  exact hfirst.symm.trans hsecond

theorem use_lt_count {i : Nat} {base : String} (h : bases[i]? = some base) :
    bases.countBefore base i < bases.count base := by
  obtain ⟨hlt, rfl⟩ := List.getElem?_eq_some_iff.mp h
  exact List.countBefore_lt_count_getElem

/-- A later use of `base` whose label no column asks for clashes with nothing. -/
theorem ClashFree.withNumber_ne (h : ClashFree bases) {i j : Nat} {a b : String}
    (hi : bases[i]? = some a) (hj : bases[j]? = some b) (hlater : 0 < bases.countBefore a i) :
    withNumber a (bases.countBefore a i + 1) ≠ b := by
  rintro rfl
  have hcount := use_lt_count hi
  exact h a (List.mem_of_getElem? hi) _ hcount (by omega) (List.mem_of_getElem? hj)

theorem length_numberFrom (earlier bases : List String) :
    (numberFrom earlier bases).length = bases.length := by
  induction bases generalizing earlier with
  | nil => rfl
  | cons first rest ih => simp [numberFrom, ih]

/-- Numbered labels are distinct unless a text asks for the label of another one's later use. -/
theorem nodup_numberFrom_iff : (numberFrom [] bases).Nodup ↔ ClashFree bases := by
  constructor
  · intro h base hbase n hn htwo hclash
    obtain ⟨i, hi, hfirst⟩ := exists_use (List.count_pos_iff.mpr hclash)
    have hlast : n - 1 < bases.count base := by omega
    obtain ⟨j, hj, hlater⟩ := exists_use hlast
    -- the first use of the clashing text and the use that is numbered `n` have one label
    have hlabel : (numberFrom [] bases)[i]? = (numberFrom [] bases)[j]? := by
      have hone : n - 1 + 1 = n := by omega
      rw [label_of_use hi, label_of_use hj, hfirst, hlater, labelOfUse, labelOfUse, if_pos rfl,
        if_neg (by omega), hone]
    have hilt : i < (numberFrom [] bases).length := by
      rw [length_numberFrom]
      exact (List.getElem?_eq_some_iff.mp hi).1
    have hij := (List.getElem?_inj hilt h).mp hlabel
    rw [hij, hj, Option.some.injEq] at hi
    exact withNumber_ne_self base n hi.symm
  · intro h
    rw [List.nodup_iff_injective_getElem]
    rintro ⟨i, hi⟩ ⟨j, hj⟩ hlabel
    have hsame : (numberFrom [] bases)[i]? = (numberFrom [] bases)[j]? := by
      rw [List.getElem?_eq_getElem hi, List.getElem?_eq_getElem hj]
      exact congrArg some hlabel
    rw [length_numberFrom] at hi hj
    have hbi : bases[i]? = some bases[i] := List.getElem?_eq_getElem hi
    have hbj : bases[j]? = some bases[j] := List.getElem?_eq_getElem hj
    rw [label_of_use hbi, label_of_use hbj, Option.some.injEq] at hsame
    -- one label: the same use, or a later use spelled like a text that is asked for
    rcases labelOfUse_eq_cases hsame with ⟨hbase, hcount⟩ | ⟨hlater, hclash⟩ | ⟨hlater, hclash⟩
    · rw [← hbase] at hbj hcount
      exact Fin.ext (use_inj hbi hbj hcount)
    · exact absurd hclash (h.withNumber_ne hbj hbi hlater)
    · exact absurd hclash (h.withNumber_ne hbi hbj hlater)

/-- What the uses of one label are given is told apart, what another header asks for is not. -/
example : ClashFree ["Name", "Column 2", "Name", "Name"] ∧
    ¬ ClashFree ["Name", "Name (2)", "Name"] := by decide

end Distinct

/-! ### Keys -/

/-- The texts that the labels of a table of records come from: the headers, or else the first
record. -/
def headerTexts : List String → List (List (Option String)) → List String
  | [], record :: _ => record.map cellText
  | headers, _ => headers

theorem columns_ofRecords (headers : List String) (records : List (List (Option String))) :
    (Table.ofRecords headers records).columns =
      (headerLabels (headerTexts headers records)).map .single := by
  match headers, records with
  | _ :: _, [] => rfl
  | _ :: _, _ :: _ => rfl
  | [], [] => rfl
  | [], [] :: _ => rfl
  | [], (_ :: _) :: _ => rfl

theorem labels_ofRecords (headers : List String) (records : List (List (Option String))) :
    (Table.ofRecords headers records).labels = headerLabels (headerTexts headers records) := by
  rw [Table.labels, columns_ofRecords, List.map_map]
  exact List.map_id _

theorem tagged_injective (origin : Origin) :
    Function.Injective fun label : String => s!"{origin.tag}.{label}" := by
  intro a b h
  have hspelt : origin.tag ++ "." ++ a = origin.tag ++ "." ++ b := h
  have hchars := congrArg String.toList hspelt
  simp only [String.toList_append] at hchars
  exact String.toList_inj.mp (List.append_cancel_left hchars)

theorem nodup_keys_ofRecords (headers : List String) (records : List (List (Option String))) :
    (Table.ofRecords headers records).keys.Nodup ↔
      (Table.ofRecords headers records).labels.Nodup := by
  rw [labels_ofRecords, Table.keys, columns_ofRecords, List.map_map]
  exact List.nodup_map_iff (tagged_injective .single)

/-- In a comparison the keys say which side a column is on, and its label does the rest. -/
theorem nodup_keys_sideBySide (reference comparison : Table) :
    (Table.sideBySide reference comparison).keys.Nodup ↔
      reference.labels.Nodup ∧ comparison.labels.Nodup := by
  have hkeys : (Table.sideBySide reference comparison).keys =
      reference.labels.map (fun label => s!"{Origin.reference.tag}.{label}") ++
        comparison.labels.map (fun label => s!"{Origin.comparison.tag}.{label}") := by
    simp only [Table.keys, Table.sideBySide, Table.ofRows, Table.labels, List.map_append,
      List.map_map]
    rfl
  have hsides : ∀ a b : String,
      s!"{Origin.reference.tag}.{a}" ≠ s!"{Origin.comparison.tag}.{b}" := by
    intro a b h
    have hspelt : "ref" ++ "." ++ a = "cmp" ++ "." ++ b := h
    have hhead := congrArg (fun s => s.toList.head?) hspelt
    simp at hhead
  rw [hkeys, List.nodup_append, List.nodup_map_iff (tagged_injective .reference),
    List.nodup_map_iff (tagged_injective .comparison)]
  constructor
  · rintro ⟨hreference, hcomparison, -⟩
    exact ⟨hreference, hcomparison⟩
  · rintro ⟨hreference, hcomparison⟩
    refine ⟨hreference, hcomparison, fun x hx y hy => ?_⟩
    obtain ⟨a, -, rfl⟩ := List.mem_map.mp hx
    obtain ⟨b, -, rfl⟩ := List.mem_map.mp hy
    exact hsides a b

/-- **When keys tell columns apart.** The labels of a table of records are distinct, and so are the
keys, and each key finds its own column, exactly if no header text asks for the numbered label of
another. Then a column is ticked, and a list of columns selected, by the keys. -/
theorem ofRecords_keys_reach (headers : List String) (records : List (List (Option String))) :
    let t := Table.ofRecords headers records
    let bases := (headerTexts headers records).mapIdx baseLabel
    (t.labels.Nodup ↔ ClashFree bases) ∧
    (t.keys.Nodup ↔ ClashFree bases) ∧
    ((∀ i c, t.columns[i]? = some c → columnIndex? t.columns c.key = some i) ↔ ClashFree bases) ∧
    (ClashFree bases → ∀ s : Session, s.table = t →
      (∀ i c on, t.columns[i]? = some c →
        (s.toggle? c.key on).map Session.selection =
          some (s.selection.toggle i on t.columnCount)) ∧
      ∀ indexes, (∀ i ∈ indexes, i < t.columnCount) →
        (s.select ((indexes.filterMap (t.columns[·]?)).map Column.key)).selection =
          .ofIndexes indexes t.columnCount) := by
  intro t bases
  have hlabels : t.labels.Nodup ↔ ClashFree bases := by
    rw [← nodup_numberFrom_iff, labels_ofRecords]
    rfl
  have hkeys : t.keys.Nodup ↔ ClashFree bases := (nodup_keys_ofRecords headers records).trans hlabels
  refine ⟨hlabels, hkeys, nodup_keys_iff.symm.trans hkeys, fun hfree s hs => ⟨?_, ?_⟩⟩
  · intro i c on hi
    have hfound := columnIndex?_key (hkeys.mpr hfree) hi
    rw [← hs] at hfound
    rw [Session.toggle?, hfound, ← hs]
    rfl
  · intro indexes hlt
    rw [Session.select, Session.resolve, hs, Selection.ofKeys,
      Selection.filterMap_columnIndex?_keys (hkeys.mpr hfree) hlt]
    rfl

/-- Three headers give two columns one label, and the key of the third finds the second. -/
theorem ofRecords_key_astray :
    let t := Table.ofRecords ["A", "A (2)", "A"] []
    ¬ t.labels.Nodup ∧ ¬ t.keys.Nodup ∧
      t.columns[2]?.map (columnIndex? t.columns ·.key) = some (some 1) := by
  decide

end CellQuery
