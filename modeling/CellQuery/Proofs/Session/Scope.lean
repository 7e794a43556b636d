import CellQuery.Proofs.Table.Selection
import CellQuery.Session.Sitting

/-!
# The scope of a session

What a session searches is its table with the grid, and its selection with the stored keys. Only
three actions change that (`act_cases`). The grid always is that of the table, and the selection
names columns of the table (`Sound`). Where the keys of columns are distinct, the selection also is
the one that the stored keys find (`Keyed`): ticking a column goes from the selection to the keys,
everything else from the keys to the selection, and the two ways agree.
-/

namespace CellQuery

/-! ### Runs -/

/-- The ways in which a session begins. -/
inductive Session.Begins : Session → Prop
  | single (t : Table) : Begins (.ofTable t)
  | comparison (reference comparison : Table) : Begins (.ofComparison reference comparison)

/-- Same cells, same columns. -/
structure Session.SameScope (s s' : Session) : Prop where
  table : s'.table = s.table
  grid : s'.grid = s.grid
  selectedKeys : s'.selectedKeys = s.selectedKeys
  selection : s'.selection = s.selection

theorem Session.toggle?_eq_some {s s' : Session} {key : String} {on : Bool} :
    s.toggle? key on = some s' ↔ ∃ i, columnIndex? s.table.columns key = some i ∧
      { s with
        selection := s.selection.toggle i on s.table.columnCount
        selectedKeys := (s.selection.toggle i on s.table.columnCount).keys s.table.columns } = s' :=
  Option.map_eq_some_iff

namespace Sitting

/-- What the actions keep true of a session, their run keeps true. -/
theorem run_preserves {P : Session → Prop} {actions : List Action}
    (hact : ∀ (st : Sitting), ∀ a ∈ actions, P st.session → P (st.act a).session) {st : Sitting}
    (h : P st.session) : P (st.run actions).session := by
  induction actions generalizing st with
  | nil => exact h
  | cons a actions ih =>
    exact ih (fun st b hb => hact st b (List.mem_cons_of_mem a hb)) (hact st a List.mem_cons_self h)

/-- An action brings a table, sets the keys, ticks or unticks a column, or leaves the scope
alone. -/
theorem act_cases (st : Sitting) (a : Action) :
    (∃ t m, a = .replace t m ∧ (st.act a).session = st.session.replace t m) ∨
    (∃ keys, a = .select keys ∧ (st.act a).session = st.session.select keys) ∨
    (∃ key on, a = .toggle key on ∧ st.session.toggle? key on = some (st.act a).session) ∨
    st.session.SameScope (st.act a).session := by
  cases a with
  | replace t m => exact .inl ⟨t, m, rfl, rfl⟩
  | select keys => exact .inr (.inl ⟨keys, rfl, rfl⟩)
  | toggle key on =>
    cases h : st.session.toggle? key on with
    | none =>
      have hsame : (st.act (.toggle key on)).session = st.session := by
        rw [act, h, Option.getD_none]
      rw [hsame]
      exact .inr (.inr (.inr ⟨rfl, rfl, rfl, rfl⟩))
    | some s =>
      refine .inr (.inr (.inl ⟨key, on, rfl, ?_⟩))
      rw [act, h, Option.getD_some]
  | setOptions o => exact .inr (.inr (.inr ⟨rfl, rfl, rfl, rfl⟩))
  | setStyle style => exact .inr (.inr (.inr ⟨rfl, rfl, rfl, rfl⟩))
  | begin => exact .inr (.inr (.inr ⟨rfl, rfl, rfl, rfl⟩))
  | ticketFor v => exact .inr (.inr (.inr ⟨rfl, rfl, rfl, rfl⟩))
  | free => exact .inr (.inr (.inr ⟨rfl, rfl, rfl, rfl⟩))
  | search query => exact .inr (.inr (.inr ⟨rfl, rfl, rfl, rfl⟩))
  | searchWith query i => exact .inr (.inr (.inr ⟨rfl, rfl, rfl, rfl⟩))

end Sitting

/-! ### What holds of every session -/

/-- The grid is that of the table, and the selection is one out of its columns. -/
structure Session.Sound (s : Session) : Prop where
  grid : s.grid = .ofTable s.table
  normal : s.selection.Normal s.table.columnCount

namespace Session.Sound

theorem of_begins {s : Session} (h : s.Begins) : s.Sound := by
  cases h <;> exact ⟨rfl, Selection.normal_all⟩

theorem act {st : Sitting} (h : st.session.Sound) (a : Sitting.Action) :
    (st.act a).session.Sound := by
  rcases st.act_cases a with ⟨t, m, -, hs⟩ | ⟨keys, -, hs⟩ | ⟨key, on, -, hs⟩ | hs
  · rw [hs]
    exact ⟨rfl, Selection.normal_ofKeys _ _⟩
  · rw [hs]
    exact ⟨h.grid, Selection.normal_ofKeys _ _⟩
  · obtain ⟨i, -, hs⟩ := toggle?_eq_some.mp hs
    rw [← hs]
    exact ⟨h.grid, h.normal.toggle i on⟩
  · refine ⟨?_, ?_⟩
    · rw [hs.grid, hs.table]
      exact h.grid
    · rw [hs.selection, hs.table]
      exact h.normal

theorem run {start : Session} (h : start.Begins) (actions : List Sitting.Action) :
    ((Sitting.ofSession start).run actions).session.Sound :=
  Sitting.run_preserves (fun _ a _ hs => hs.act a) (of_begins h)

end Session.Sound

/-! ### Where keys are distinct -/

/-- The keys tell the columns apart, and the selection is the one that the stored keys find. -/
structure Session.Keyed (s : Session) : Prop where
  distinct : s.table.keys.Nodup
  selection : s.selection = .ofKeys s.selectedKeys s.table.columns

/-- The table that an action brings. -/
def Sitting.Action.table? : Sitting.Action → Option Table
  | .replace t _ => some t
  | _ => none

/-- A table that the action brings has distinct keys. -/
def Sitting.Action.Distinct (a : Sitting.Action) : Prop :=
  ∀ t ∈ a.table?, t.keys.Nodup

instance (a : Sitting.Action) : Decidable a.Distinct :=
  inferInstanceAs (Decidable (∀ t ∈ a.table?, t.keys.Nodup))

namespace Session.Keyed

theorem of_begins {s : Session} (h : s.Begins) (hkeys : s.table.keys.Nodup) : s.Keyed := by
  cases h <;> exact ⟨hkeys, by simp [ofTable, ofComparison, Selection.ofKeys, Selection.ofIndexes,
    Selection.normalized]⟩

theorem act {st : Sitting} (h : st.session.Keyed) {a : Sitting.Action} (ha : a.Distinct) :
    (st.act a).session.Keyed := by
  rcases st.act_cases a with ⟨t, m, rfl, hs⟩ | ⟨keys, -, hs⟩ | ⟨key, on, -, hs⟩ | hs
  · rw [hs]
    exact ⟨ha t rfl, rfl⟩
  · rw [hs]
    exact ⟨h.distinct, rfl⟩
  · obtain ⟨i, -, hs⟩ := toggle?_eq_some.mp hs
    -- the stored keys find a normal selection, and ticking a column leaves it normal
    have hnormal : st.session.selection.Normal st.session.table.columnCount := by
      rw [h.selection]
      exact Selection.normal_ofKeys _ _
    rw [← hs]
    exact ⟨h.distinct, (Selection.ofKeys_keys h.distinct (hnormal.toggle i on)).symm⟩
  · refine ⟨?_, ?_⟩
    · rw [hs.table]
      exact h.distinct
    · rw [hs.selection, hs.selectedKeys, hs.table]
      exact h.selection

theorem run {start : Session} (h : start.Begins) (hkeys : start.table.keys.Nodup)
    {actions : List Sitting.Action} (hactions : ∀ a ∈ actions, a.Distinct) :
    ((Sitting.ofSession start).run actions).session.Keyed :=
  Sitting.run_preserves (fun _ a ha hs => hs.act (hactions a ha)) (of_begins h hkeys)

end Session.Keyed

/-! ### Stored keys -/

/-- The action leaves the stored keys as they are. -/
def Sitting.Action.keepsKeys : Sitting.Action → Bool
  | .select _ => false
  | .toggle _ _ => false
  | _ => true

/-- The stored keys are `keys`, and the selection is the one that they find. -/
def Session.Stores (keys : List String) (s : Session) : Prop :=
  s.selectedKeys = keys ∧ s.selection = .ofKeys keys s.table.columns

theorem Session.Stores.act {keys : List String} {st : Sitting} (h : st.session.Stores keys)
    {a : Sitting.Action} (ha : a.keepsKeys = true) : (st.act a).session.Stores keys := by
  rcases st.act_cases a with ⟨t, m, -, hs⟩ | ⟨keys, rfl, -⟩ | ⟨key, on, rfl, -⟩ | hs
  · rw [hs]
    exact ⟨h.1, congrArg (Selection.ofKeys · t.columns) h.1⟩
  · cases ha
  · cases ha
  · refine ⟨hs.selectedKeys.trans h.1, ?_⟩
    rw [hs.selection, hs.table]
    exact h.2

/-- **Keys and selection agree.** In every session over tables with distinct keys the selection is
the one that the stored keys find. So it outlasts a table with the same columns, and once keys are
set, it is what they find in the last table, whatever tables there were before. -/
theorem selection_eq_ofKeys {start : Session} {actions : List Sitting.Action}
    (hstart : start.Begins) (hkeys : start.table.keys.Nodup)
    (hactions : ∀ a ∈ actions, a.Distinct) :
    let st := (Sitting.ofSession start).run actions
    st.session.selection = .ofKeys st.session.selectedKeys st.session.table.columns ∧
    (∀ t m, t.columns = st.session.table.columns →
      (st.act (.replace t m)).session.selection = st.session.selection) ∧
    ∀ keys later, (∀ a ∈ later, Sitting.Action.keepsKeys a = true) →
      let after := ((st.act (.select keys)).run later).session
      after.selection = .ofKeys keys after.table.columns := by
  intro st
  have hst : st.session.Keyed := Session.Keyed.run hstart hkeys hactions
  refine ⟨hst.selection, fun t m ht => ?_, fun keys later hlater => ?_⟩
  · rw [hst.selection, ← ht]
    rfl
  · have hselect : (st.act (.select keys)).session.Stores keys := ⟨rfl, rfl⟩
    exact (Sitting.run_preserves (fun _ a ha hs => hs.act (hlater a ha)) hselect).2

/-- Two columns of three stay ticked, and are found elsewhere in the next table. Keys that are set
are still there after a table without columns. -/
theorem selection_eq_ofKeys_toggled :
    let start := Session.ofTable (.ofRows [.single "A", .single "B", .single "C"] [])
    let other := Table.ofRows [.single "C", .single "X", .single "B"] []
    let actions := [Sitting.Action.toggle "col.A" false, .replace other true]
    let later := [Sitting.Action.replace .empty false, .search "a", .replace other false]
    let st := (Sitting.ofSession start).run actions
    start.Begins ∧ start.table.keys.Nodup ∧ (∀ a ∈ actions, a.Distinct) ∧
      st.session.selection = .only [2, 0] ∧
      (∀ a ∈ later, Sitting.Action.keepsKeys a = true) ∧
      ((st.act (.select ["col.X", "col.A"])).run later).session.selection = .only [1] := by
  intro start other actions later st
  have hkeys : start.table.keys.Nodup := by decide
  have hactions : ∀ a ∈ actions, a.Distinct := by decide
  have hlater : ∀ a ∈ later, Sitting.Action.keepsKeys a = true := by decide
  obtain ⟨hselection, -, hset⟩ := selection_eq_ofKeys (.single _) hkeys hactions
  refine ⟨.single _, hkeys, hactions, hselection.trans ?_, hlater, (hset _ later hlater).trans ?_⟩
  · decide
  · decide

end CellQuery
