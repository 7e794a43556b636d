import CellQuery.Proofs.Generation.Stale
import CellQuery.Proofs.Session.Scope
import CellQuery.Proofs.Table.Label

/-!
# A session and a new one

A session keeps nothing of its past that a search could show. A search with a live ticket gives the
answer of the session (`searchWith_of_live`), which looks at its table and settings alone; and a
session that is begun anew over the same table with the same settings has the same answers
(`answer_afresh`), however the old one came to be. The table and the settings are those that the
last action of their kind has brought (`Sitting.latest_run`).
-/

namespace CellQuery

namespace Session

/-! ### Answers -/

/-- The answer to a query, whatever the generation. -/
def answer (s : Session) (query : String) : Except QueryError Outcome :=
  let tokens := tokenize (Text.trim query)
  (evaluate s.grid tokens s.options s.selection).map fun indexes =>
    ⟨some (indexes.filterMap (s.result? (operands tokens))), operands tokens⟩

variable {s : Session}

theorem searchWith_of_live {ticket : Ticket} (h : ticket.isStale s.generation = false)
    (query : String) : s.searchWith query ticket = s.answer query := by
  simp only [searchWith, answer, Ticket.guard, h, Bool.false_eq_true, if_false]
  cases evaluate s.grid (tokenize (Text.trim query)) s.options s.selection <;> rfl

/-- With a stale ticket the rows are withheld, and nothing else. -/
theorem searchWith_of_stale {ticket : Ticket} (h : ticket.isStale s.generation = true)
    (query : String) :
    s.searchWith query ticket = (s.answer query).map fun o => ⟨none, o.operands⟩ := by
  simp only [searchWith, answer, h, if_true]
  cases evaluate s.grid (tokenize (Text.trim query)) s.options s.selection <;> rfl

theorem answer_bump (s : Session) (query : String) : s.bump.2.answer query = s.answer query := rfl

/-- A search in a generation of its own has a live ticket. -/
theorem search_eq_answer (s : Session) (query : String) :
    (s.search query).1 = s.answer query := by
  rw [← answer_bump]
  exact searchWith_of_live (Generation.isStale_bump s.generation) query

/-! ### Beginning anew -/

/-- A new session over the table of `s`, set up as `s` is now. -/
def afresh (s : Session) : Session :=
  ((((ofTable s.table).replace s.table s.matchesColumn).setOptions s.options).setStyle
    s.style).select (s.selection.keys s.table.columns)

theorem afresh_eq (h : s.Sound) (hk : s.table.keys.Nodup) :
    s.afresh = { s with
      selectedKeys := s.selection.keys s.table.columns
      referenceKeywords := []
      generation := {} } := by
  have hgrid := h.grid
  have hselection := Selection.ofKeys_keys hk h.normal
  simp only [afresh, select, setStyle, setOptions, replace, resolve, ofTable, hselection, hgrid]

theorem answer_afresh (h : s.Sound) (hk : s.table.keys.Nodup) (query : String) :
    s.afresh.answer query = s.answer query := by
  rw [afresh_eq h hk]
  rfl

end Session

/-! ### What was set last -/

namespace Sitting

namespace Action

/-- Whether the table that an action brings has a column for what was found. -/
def matchesColumn? : Action → Option Bool
  | .replace _ m => some m
  | _ => none

/-- The options that an action sets. -/
def options? : Action → Option Options
  | .setOptions o => some o
  | _ => none

/-- The style that an action sets. -/
def style? : Action → Option Style
  | .setStyle style => some style
  | _ => none

end Action

/-- The last of the values that some actions bring, or the one there was before them. -/
def lastOf {α : Type} (value? : Action → Option α) (actions : List Action) (before : α) : α :=
  (actions.filterMap value?).getLastD before

/-- The session `s` has its table and settings from the last of the actions that brought one, and
from the session `start` before them if none did. -/
structure Latest (start : Session) (actions : List Action) (s : Session) : Prop where
  table : s.table = lastOf Action.table? actions start.table
  matchesColumn : s.matchesColumn = lastOf Action.matchesColumn? actions start.matchesColumn
  options : s.options = lastOf Action.options? actions start.options
  style : s.style = lastOf Action.style? actions start.style

variable {α : Type} {value? : Action → Option α} {actions : List Action}

theorem lastOf_cons (a : Action) (before : α) :
    lastOf value? (a :: actions) before = lastOf value? actions ((value? a).getD before) := by
  unfold lastOf
  cases h : value? a with
  | none => rw [List.filterMap_cons_none h, Option.getD_none]
  | some v => rw [List.filterMap_cons_some h, List.getLastD_cons, Option.getD_some]

/-- What the rest brings last counts, or else what the first action brings. -/
theorem eq_lastOf_cons {a : Action} {before between after : α}
    (hact : between = lastOf value? [a] before) (hrest : after = lastOf value? actions between) :
    after = lastOf value? (a :: actions) before := by
  rw [hrest, hact, lastOf_cons, lastOf_cons]
  rfl

/-- One action brings what it is said to bring, and leaves the rest. -/
theorem latest_act (st : Sitting) (a : Action) : Latest st.session [a] (st.act a).session := by
  cases a with
  | toggle key on =>
    cases h : st.session.toggle? key on with
    | none =>
      rw [act, h, Option.getD_none]
      exact ⟨rfl, rfl, rfl, rfl⟩
    | some s =>
      obtain ⟨i, -, rfl⟩ := Session.toggle?_eq_some.mp h
      rw [act, h, Option.getD_some]
      exact ⟨rfl, rfl, rfl, rfl⟩
  | replace t m => exact ⟨rfl, rfl, rfl, rfl⟩
  | setOptions o => exact ⟨rfl, rfl, rfl, rfl⟩
  | setStyle style => exact ⟨rfl, rfl, rfl, rfl⟩
  | select keys => exact ⟨rfl, rfl, rfl, rfl⟩
  | begin => exact ⟨rfl, rfl, rfl, rfl⟩
  | ticketFor v => exact ⟨rfl, rfl, rfl, rfl⟩
  | free => exact ⟨rfl, rfl, rfl, rfl⟩
  | search query => exact ⟨rfl, rfl, rfl, rfl⟩
  | searchWith query i => exact ⟨rfl, rfl, rfl, rfl⟩

theorem latest_run (st : Sitting) (actions : List Action) :
    Latest st.session actions (st.run actions).session := by
  induction actions generalizing st with
  | nil => exact ⟨rfl, rfl, rfl, rfl⟩
  | cons a rest ih =>
    have hact := st.latest_act a
    have hrest := ih (st.act a)
    exact ⟨eq_lastOf_cons hact.table hrest.table,
      eq_lastOf_cons hact.matchesColumn hrest.matchesColumn,
      eq_lastOf_cons hact.options hrest.options, eq_lastOf_cons hact.style hrest.style⟩

end Sitting

/-- **Nothing stale.** Over tables with distinct keys a search with a live ticket, or in a
generation of its own, has the outcome that it has in a session begun anew with the same table and
settings; the grid is that of the table, and the selection names columns of it. Table and settings
are the ones that were set last. -/
theorem search_eq_search_afresh {start : Session} {actions : List Sitting.Action}
    (hstart : start.Begins) (hkeys : start.table.keys.Nodup)
    (hactions : ∀ a ∈ actions, a.Distinct) (query : String) :
    let s := ((Sitting.ofSession start).run actions).session
    (∀ live fresh : Ticket, live.isStale s.generation = false →
      fresh.isStale s.afresh.generation = false →
      s.searchWith query live = s.afresh.searchWith query fresh) ∧
    (s.search query).1 = (s.afresh.search query).1 ∧
    s.grid = .ofTable s.table ∧ (∀ i ∈ s.selection.restriction, i < s.table.columnCount) ∧
    Sitting.Latest start actions s := by
  intro s
  have hs : s.Sound := Session.Sound.run hstart actions
  have hk : s.table.keys.Nodup := (Session.Keyed.run hstart hkeys hactions).distinct
  have hanswer := Session.answer_afresh hs hk query
  refine ⟨fun live fresh hlive hfresh => ?_, ?_, hs.grid, hs.normal.lt_of_mem_restriction,
    (Sitting.ofSession start).latest_run actions⟩
  · rw [Session.searchWith_of_live hlive, Session.searchWith_of_live hfresh, hanswer]
  · rw [Session.search_eq_answer, Session.search_eq_answer, hanswer]

/-- A comparison, a column unticked, two generations begun, then another table and other columns. -/
theorem search_eq_search_afresh_replaced :
    let reference := Table.ofRows [.single "A", .single "B"] [["x", "y"]]
    let start := Session.ofComparison reference (.ofRows [.single "A"] [["Y"], ["z"]])
    let actions := [Sitting.Action.toggle "ref.A" false, .begin, .setOptions ⟨true, false⟩,
      .search "x", .replace reference true, .select ["col.B", "col.C"]]
    let s := ((Sitting.ofSession start).run actions).session
    start.Begins ∧ start.table.keys.Nodup ∧ (∀ a ∈ actions, a.Distinct) ∧
      Ticket.isStale ⟨2, true⟩ s.generation = false ∧
      Ticket.free.isStale s.afresh.generation = false ∧
      s.searchWith "x OR y" ⟨2, true⟩ = s.afresh.searchWith "x OR y" .free ∧
      s.selection = .only [1] ∧ s.grid = .ofTable reference ∧ s.options = ⟨true, false⟩ ∧
      s.style = .page ∧ s.matchesColumn = true := by
  intro reference start actions s
  have hkeys : start.table.keys.Nodup :=
    (nodup_keys_sideBySide _ _).mpr ⟨by decide, by decide⟩
  have hactions : ∀ a ∈ actions, a.Distinct := by decide
  have hlive : Ticket.isStale ⟨2, true⟩ s.generation = false := by decide
  have hfree : Ticket.free.isStale s.afresh.generation = false := rfl
  obtain ⟨hsearch, -, hgrid, -, hlatest⟩ :=
    search_eq_search_afresh (.comparison _ _) hkeys hactions "x OR y"
  refine ⟨.comparison _ _, hkeys, hactions, hlive, hfree, hsearch _ _ hlive hfree, ?_, hgrid,
    hlatest.options, hlatest.style, hlatest.matchesColumn⟩
  decide

end CellQuery
