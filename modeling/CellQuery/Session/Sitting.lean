import CellQuery.Session.Search

/-!
# Sittings

A session in use: every action that can be taken on it, in any order, and the tickets that it has
issued on the way. The tickets are numbered in the order in which they are issued.
-/

namespace CellQuery

/-- A session and the tickets it has issued. -/
structure Sitting where
  session : Session
  tickets : List Ticket
  deriving DecidableEq, Repr

namespace Sitting

/-- What can be done in a sitting. -/
inductive Action where
  | replace (t : Table) (matchesColumn : Bool)
  | setOptions (o : Options)
  | setStyle (style : Style)
  | select (keys : List String)
  | toggle (key : String) (on : Bool)
  /-- Begins a generation and keeps its ticket. -/
  | begin
  | ticketFor (version : UInt64)
  | free
  /-- Searches in a generation of its own. -/
  | search (query : String)
  /-- Searches for the ticket with a number. -/
  | searchWith (query : String) (ticket : Nat)
  deriving DecidableEq, Repr

/-- A sitting in which nothing has been done. -/
def ofSession (s : Session) : Sitting :=
  ⟨s, []⟩

/-- A sitting in which a ticket has been issued. -/
def keep (st : Sitting) (issued : Ticket × Session) : Sitting :=
  ⟨issued.2, st.tickets ++ [issued.1]⟩

/-- The sitting after an action. What cannot be done (a key that no column has, a number that no
ticket has) changes nothing. -/
def act (st : Sitting) : Action → Sitting
  | .replace t m => { st with session := st.session.replace t m }
  | .setOptions o => { st with session := st.session.setOptions o }
  | .setStyle style => { st with session := st.session.setStyle style }
  | .select keys => { st with session := st.session.select keys }
  | .toggle key on => { st with session := (st.session.toggle? key on).getD st.session }
  | .begin => st.keep st.session.bump
  | .ticketFor v => st.keep (st.session.ticketFor v)
  | .free => st.keep (.free, st.session)
  | .search query => { st with session := (st.session.search query).2 }
  | .searchWith _ _ => st

/-- What a search answers, if the action is one. -/
def answer? (st : Sitting) : Action → Option (Except QueryError Outcome)
  | .search query => some (st.session.search query).1
  | .searchWith query i => st.tickets[i]?.map (st.session.searchWith query)
  | _ => none

/-- The sitting after actions, in order. -/
def run (st : Sitting) (actions : List Action) : Sitting :=
  actions.foldl act st

end Sitting

end CellQuery
