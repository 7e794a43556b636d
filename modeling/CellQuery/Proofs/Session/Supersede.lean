import CellQuery.Proofs.Session.Result

/-!
# Superseded searches

A search is for a ticket. Its outcome has all the rows if the ticket is live when it is made and
none if the ticket is stale, and whether it is an error depends on the query alone
(`searchWith_of_ok`, `searchWith_of_error`). Over the life of a session the generation does not move
back and no ticket is ahead of it (`Sitting.run_spec`), so a ticket without rows has none ever
after.
-/

namespace CellQuery

open Text

/-! ### One search -/

namespace Session

variable {s : Session} {query : String}

theorem searchWith_of_error {e : QueryError}
    (h : evaluate s.grid (tokenize (trim query)) s.options s.selection = .error e)
    (ticket : Ticket) : s.searchWith query ticket = .error e := by
  have hanswer := answer_of_error h
  cases hstale : ticket.isStale s.generation with
  | false => rw [searchWith_of_live hstale, hanswer]
  | true =>
    rw [searchWith_of_stale hstale, hanswer]
    rfl

theorem rows_eq_none_iff {ticket : Ticket} {outcome : Outcome}
    (h : s.searchWith query ticket = .ok outcome) :
    outcome.rows = none ↔ ticket.isStale s.generation = true := by
  cases hfound : evaluate s.grid (tokenize (trim query)) s.options s.selection with
  | error e =>
    rw [searchWith_of_error hfound] at h
    cases h
  | ok indexes =>
    have hanswer := answer_of_ok hfound
    cases hstale : ticket.isStale s.generation with
    | false =>
      rw [searchWith_of_live hstale, hanswer] at h
      obtain rfl := Except.ok.inj h
      exact iff_of_false nofun Bool.false_ne_true
    | true =>
      rw [searchWith_of_stale hstale, hanswer] at h
      obtain rfl := Except.ok.inj h
      exact iff_of_true rfl rfl

/-- A query that can be evaluated has an outcome, and if it has rows, then all of them. -/
theorem Sound.searchWith_of_ok (hs : s.Sound) {indexes : List Nat}
    (h : evaluate s.grid (tokenize (trim query)) s.options s.selection = .ok indexes)
    (ticket : Ticket) :
    ∃ outcome, s.searchWith query ticket = .ok outcome ∧
      outcome.operands = operands (tokenize (trim query)) ∧
      ∀ rows, outcome.rows = some rows →
        s.Lists (operands (tokenize (trim query))) indexes rows := by
  have hanswer := answer_of_ok h
  cases hstale : ticket.isStale s.generation with
  | false =>
    refine ⟨_, (searchWith_of_live hstale query).trans hanswer, rfl, fun rows hrows => ?_⟩
    rw [← Option.some.inj hrows]
    exact hs.lists_filterMap (hs.indexes_spec h).2 _
  | true =>
    refine ⟨⟨none, operands (tokenize (trim query))⟩, ?_, rfl, nofun⟩
    rw [searchWith_of_stale hstale, hanswer]
    rfl

end Session

/-! ### Tickets in a session's life -/

namespace Sitting

variable {st st' : Sitting}

/-- The action does not begin a generation after the last number. -/
def Fits (st : Sitting) : Action → Prop
  | .begin => st.session.generation.HasNext
  | .search _ => st.session.generation.HasNext
  | _ => True

instance (st : Sitting) (a : Action) : Decidable (st.Fits a) :=
  match a with
  | .begin | .search _ => inferInstanceAs (Decidable st.session.generation.HasNext)
  | .replace _ _ | .setOptions _ | .setStyle _ | .select _ | .toggle _ _ | .ticketFor _ | .free
  | .searchWith _ _ => inferInstanceAs (Decidable True)

/-- Each of the actions fits when it is taken. -/
def RunFits (st : Sitting) : List Action → Prop
  | [] => True
  | a :: rest => st.Fits a ∧ (st.act a).RunFits rest

instance decidableRunFits (st : Sitting) : (actions : List Action) → Decidable (st.RunFits actions)
  | [] => inferInstanceAs (Decidable True)
  | a :: rest =>
    have := decidableRunFits (st.act a) rest
    inferInstanceAs (Decidable (st.Fits a ∧ (st.act a).RunFits rest))

/-- No ticket is ahead of the generation. -/
def UpToDate (st : Sitting) : Prop :=
  ∀ t ∈ st.tickets, t.UpTo st.session.generation

/-- What stays: the generation has not moved back, and the tickets keep their numbers. The new
tickets are not ahead of the generation. -/
structure Extends (st st' : Sitting) : Prop where
  le : st.session.generation.current ≤ st'.session.generation.current
  tickets : ∃ more, st'.tickets = st.tickets ++ more ∧ ∀ t ∈ more, t.UpTo st'.session.generation

theorem Extends.upToDate (h : st.Extends st') (hst : st.UpToDate) : st'.UpToDate := by
  intro t ht
  obtain ⟨more, htickets, hmore⟩ := h.tickets
  rw [htickets] at ht
  rcases List.mem_append.mp ht with ht | ht
  · exact (hst t ht).mono h.le
  · exact hmore t ht

theorem Extends.of_same (hsession : st'.session.generation = st.session.generation)
    (htickets : st'.tickets = st.tickets) : st.Extends st' := by
  refine ⟨?_, [], ?_, nofun⟩
  · rw [hsession]
    exact UInt64.le_refl _
  · rw [htickets, List.append_nil]

theorem extends_keep {issued : Ticket × Session}
    (h : st.session.generation.Issues (issued.1, issued.2.generation)) :
    st.Extends (st.keep issued) := by
  refine ⟨h.le, [issued.1], rfl, fun t ht => ?_⟩
  obtain rfl := List.mem_singleton.mp ht
  exact h.upTo

theorem extends_act {a : Action} (h : st.Fits a) : st.Extends (st.act a) := by
  cases a with
  | begin => exact extends_keep (Generation.issues_bump h)
  | ticketFor v => exact extends_keep (Generation.issues_ticketFor _ v)
  | free => exact extends_keep (Generation.issues_free _)
  | search query =>
    -- a search keeps its own ticket to itself
    exact ⟨(Generation.issues_bump h).le, [], (List.append_nil _).symm, nofun⟩
  | toggle key on =>
    refine .of_same ?_ rfl
    cases ht : st.session.toggle? key on with
    | none => rw [act, ht, Option.getD_none]
    | some s =>
      obtain ⟨i, -, rfl⟩ := Session.toggle?_eq_some.mp ht
      rw [act, ht, Option.getD_some]
  | replace t m => exact .of_same rfl rfl
  | setOptions o => exact .of_same rfl rfl
  | setStyle style => exact .of_same rfl rfl
  | select keys => exact .of_same rfl rfl
  | searchWith query i => exact .of_same rfl rfl

theorem run_spec {actions : List Action} (hfits : st.RunFits actions) (hst : st.UpToDate) :
    (st.run actions).UpToDate ∧
      st.session.generation.current ≤ (st.run actions).session.generation.current := by
  induction actions generalizing st with
  | nil => exact ⟨hst, UInt64.le_refl _⟩
  | cons a rest ih =>
    obtain ⟨ha, hrest⟩ := hfits
    have hact := extends_act ha
    obtain ⟨hdate, hle⟩ := ih hrest (hact.upToDate hst)
    exact ⟨hdate, UInt64.le_trans hact.le hle⟩

/-- A ticket that is stale stays so, whatever is done. -/
theorem isStale_run {later : List Action} (hfits : st.RunFits later) (hst : st.UpToDate) {t : Ticket}
    (ht : t ∈ st.tickets) (hstale : t.isStale st.session.generation = true) :
    t.isStale (st.run later).session.generation = true :=
  Ticket.isStale_mono (hst t ht) (run_spec hfits hst).2 hstale

end Sitting

/-- **A newer search supersedes the older ones.** In every session a search with a ticket is an
error exactly if the query cannot be evaluated, with the same error. Otherwise it gives the
operands, with all rows, in line with the headers, for a live ticket and without any for a stale
one, and it leaves everything as it was. A search in a generation of its own has all rows whenever
the query can be evaluated. It makes every ticket stale that the session has issued, even if the
query cannot be; and a ticket with which a search once had no rows has none from then on. -/
theorem search_supersedes {start : Session} (hstart : start.Begins) {actions : List Sitting.Action}
    (hfits : (Sitting.ofSession start).RunFits actions) :
    let st := (Sitting.ofSession start).run actions
    let s := st.session
    (∀ query,
      let tokens := tokenize (trim query)
      let found := evaluate s.grid tokens s.options s.selection
      (∀ ticket e, s.searchWith query ticket = .error e ↔ found = .error e) ∧
      ∀ indexes, found = .ok indexes →
        (∀ ticket, ∃ outcome, s.searchWith query ticket = .ok outcome ∧
          outcome.operands = operands tokens ∧
          (outcome.rows = none ↔ ticket.isStale s.generation = true) ∧
          ∀ rows, outcome.rows = some rows → s.Lists (operands tokens) indexes rows) ∧
        ∃ rows, (s.search query).1 = .ok ⟨some rows, operands tokens⟩ ∧
          s.Lists (operands tokens) indexes rows) ∧
    (∀ query i, st.act (.searchWith query i) = st) ∧
    (∀ query, s.generation.HasNext → ∀ ticket ∈ st.tickets, ticket.bound = true →
      ticket.isStale (st.act (.search query)).session.generation = true) ∧
    ∀ query, ∀ ticket ∈ st.tickets, ∀ outcome, s.searchWith query ticket = .ok outcome →
      outcome.rows = none → ∀ later, st.RunFits later → ∀ query' outcome',
        (st.run later).session.searchWith query' ticket = .ok outcome' → outcome'.rows = none := by
  intro st s
  have hs : s.Sound := Session.Sound.run hstart actions
  have hnone : (Sitting.ofSession start).UpToDate := nofun
  have hdate : st.UpToDate := (Sitting.run_spec hfits hnone).1
  refine ⟨fun query => ?_, fun _ _ => rfl, fun query hnext ticket hticket hbound => ?_,
    fun query ticket hticket outcome hsearch hrows later hlater query' outcome' hsearch' => ?_⟩
  · intro tokens found
    refine ⟨fun ticket e => ⟨fun h => ?_, fun h => Session.searchWith_of_error h ticket⟩,
      fun indexes h => ⟨fun ticket => ?_, ?_⟩⟩
    -- a search that has an outcome is no error, whether its ticket is live or stale
    · cases hfound : found with
      | error e' =>
        rw [Session.searchWith_of_error hfound] at h
        rw [Except.error.inj h]
      | ok indexes =>
        obtain ⟨outcome, hok, -⟩ := hs.searchWith_of_ok hfound ticket
        rw [hok] at h
        cases h
    · obtain ⟨outcome, hok, hoperands, hlists⟩ := hs.searchWith_of_ok h ticket
      exact ⟨outcome, hok, hoperands, Session.rows_eq_none_iff hok, hlists⟩
    · refine ⟨_, (s.search_eq_answer query).trans (Session.answer_of_ok h), ?_⟩
      exact hs.lists_filterMap (hs.indexes_spec h).2 _
  · exact Generation.isStale_of_upTo hnext (hdate ticket hticket) hbound
  · have hstale := (Session.rows_eq_none_iff hsearch).mp hrows
    exact (Session.rows_eq_none_iff hsearch').mpr (Sitting.isStale_run hlater hdate hticket hstale)

/-- A search without an answer has made a ticket with a number from outside stale. The next one has
its rows, with what was found marked. -/
theorem search_supersedes_unanswered :
    let t := Table.ofRows [.single "A", .single "B"] [["ab", "x"], ["c", "d"], ["B", "b"]]
    let start := Session.ofTable t
    let actions := [Sitting.Action.begin, .ticketFor 7, .free, .search "("]
    let later := [Sitting.Action.ticketFor 3, .begin, .replace .empty true]
    let st := (Sitting.ofSession start).run actions
    let rows := [
      ResultRow.mk 0 ["ab", "x"] [some "a<mark>b</mark>", none] "b (A)",
      ⟨2, ["B", "b"], [some "<mark>B</mark>", some "<mark>b</mark>"], "b (A, B)"⟩]
    start.Begins ∧ (Sitting.ofSession start).RunFits actions ∧ st.RunFits later ∧
      st.session.searchWith "b" ⟨7, true⟩ = .ok ⟨none, ["b"]⟩ ∧
      (∀ outcome, (st.run later).session.searchWith "c" ⟨7, true⟩ = .ok outcome →
        outcome.rows = none) ∧
      (st.session.search "b").1 = .ok ⟨some rows, ["b"]⟩ ∧
      st.session.Lists ["b"] [0, 2] rows := by
  intro t start actions later st rows
  have hbegins : start.Begins := .single t
  have hfits : (Sitting.ofSession start).RunFits actions := by decide
  have hlater : st.RunFits later := by decide
  have hticket : (⟨7, true⟩ : Ticket) ∈ st.tickets := by decide
  have hsearch : st.session.searchWith "b" ⟨7, true⟩ = .ok ⟨none, ["b"]⟩ := by decide +kernel
  have htokens : tokenize (trim "b") = [.operand "b"] := by decide +kernel
  have hfound : evaluate st.session.grid (tokenize (trim "b")) st.session.options
      st.session.selection = .ok [0, 2] := by
    rw [htokens]
    decide
  have hshown : (st.session.search "b").1 = .ok ⟨some rows, ["b"]⟩ := by decide +kernel
  obtain ⟨hanswers, -, -, hnever⟩ := search_supersedes hbegins hfits
  obtain ⟨-, rows', hrows, hlists⟩ := (hanswers "b").2 [0, 2] hfound
  rw [htokens] at hrows hlists
  -- the rows that are shown are those that the theorem speaks of
  rw [hshown, Except.ok.injEq, Outcome.mk.injEq, Option.some.injEq] at hrows
  obtain ⟨rfl, -⟩ := hrows
  exact ⟨hbegins, hfits, hlater, hsearch,
    hnever "b" _ hticket _ hsearch rfl later hlater "c", hshown, hlists⟩

end CellQuery
