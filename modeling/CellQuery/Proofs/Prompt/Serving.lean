import CellQuery.Prompt.Exchange
import CellQuery.Proofs.Prompt.Settings
import CellQuery.Proofs.Session.Result

/-!
# Requests on their way

What the prompt has asked for and the worker has not done yet can be done at once, without the
queues: that is the settled session of an exchange, which the worker leaves as it is
(`WorkerStep.frame`). As the prompt waits for every answer, the worker has one of three things
before it: options at most (`Idle`), one request with an answer (`Serving`), or the end
(`Stopping`). It never goes from one of them to another by itself.
-/

namespace CellQuery

open Text

/-! ### Requests -/

namespace Session

/-- The answer to a request, in the session that has not taken it in yet. -/
def answerFor? (s : Session) : Request → Option Answer
  | .search query _ => some (.outcome (s.answer query))
  | .options _ => none
  | .columns keys =>
    let s := s.select keys
    some (.columns (s.selection.describe s.table.columns))

theorem answerFor?_inGeneration (s : Session) (g : Generation) (r : Request) :
    (s.inGeneration g).answerFor? r = s.answerFor? r := by
  cases r <;> rfl

theorem serve_bump (s : Session) (r : Request) : s.bump.2.serve r = (s.serve r).bump.2 := by
  cases r <;> rfl

theorem foldl_serve_bump (s : Session) (rs : List Request) :
    rs.foldl serve s.bump.2 = (rs.foldl serve s).bump.2 := by
  induction rs generalizing s with
  | nil => rfl
  | cons r rs ih => rw [List.foldl_cons, serve_bump, ih, List.foldl_cons]

theorem generation_foldl_serve (s : Session) (rs : List Request) :
    (rs.foldl serve s).generation = s.generation := by
  induction rs generalizing s with
  | nil => rfl
  | cons r rs ih =>
    rw [List.foldl_cons, ih]
    cases r <;> rfl

end Session

/-! ### What is left to do -/

/-- What the prompt is about to do to the session. -/
def Prompt.settle : Prompt → Session → Session
  | .asking _, s => s.bump.2
  | .sending r, s => s.serve r
  | _, s => s

namespace Exchange

/-- The session once everything is done that has been asked for. -/
def settled (x : Exchange) : Session :=
  x.prompt.settle (x.requests.foldl Session.serve x.session)

variable {x y : Exchange} {e : Event}

theorem settled_hear (hprompt : x.prompt = .reading) (hoptions : x.options = x.settled.options)
    (c : Command) : (x.hear c).settled = (x.settled.perform c).2 ∧
      (x.hear c).options = (x.hear c).settled.options := by
  have hsettled : x.settled = x.requests.foldl Session.serve x.session := by
    rw [settled, hprompt]
    rfl
  rw [hsettled] at hoptions ⊢
  -- only a search waits for its answer before it is settled, and it changes no setting
  cases c with
  | search query =>
    rw [Session.perform_search_snd]
    exact ⟨rfl, hoptions⟩
  | nothing =>
    simp only [settled, hear, hprompt]
    exact ⟨rfl, hoptions⟩
  | leave => exact ⟨rfl, hoptions⟩
  | toggleCase =>
    simp only [settled, hear, switch, hoptions]
    exact ⟨rfl, rfl⟩
  | toggleExact =>
    simp only [settled, hear, switch, hoptions]
    exact ⟨rfl, rfl⟩
  | columns keys => exact ⟨rfl, hoptions⟩

/-- The work of the worker, on the requests in their order, settles nothing anew. -/
theorem WorkerStep.frame (h : WorkerStep x e y) :
    y.settled = x.settled ∧ y.prompt = x.prompt ∧ y.lines = x.lines ∧ y.options = x.options ∧
      y.headers = x.headers ∧ y.style = x.style ∧ y.replies = x.replies := by
  cases h with
  | takes hworker hrequests => simp only [settled, hrequests, List.foldl_cons, and_self]
  | _ => exact ⟨rfl, rfl, rfl, rfl, rfl, rfl, rfl⟩

/-! ### Work -/

/-- The work on a request that has been taken in, as far as it has come. -/
inductive Works (s : Session) : Request → Worker → Prop
  | searching (query : String) (ticket : Ticket) :
    Works s (.search query ticket) (.searching query ticket)
  | found {query : String} {indexes : List Nat} (ticket : Ticket) :
    evaluate s.grid (tokenize (trim query)) s.options s.selection = .ok indexes →
    Works s (.search query ticket) (.found indexes (operands (tokenize (trim query))) ticket)
  | built {query : String} {indexes : List Nat} (ticket : Ticket) :
    evaluate s.grid (tokenize (trim query)) s.options s.selection = .ok indexes →
    Works s (.search query ticket)
      (.built (indexes.filterMap (s.result? (operands (tokenize (trim query)))))
        (operands (tokenize (trim query))) ticket)
  | answering {r : Request} {a : Answer} : s.answerFor? r = some a → Works s r (.answering a)

theorem Works.ofRequest (s : Session) {r : Request} (h : r.awaited = true) :
    Works (s.serve r) r (.ofRequest (s.serve r) r) := by
  cases r with
  | search query ticket => exact .searching query ticket
  | options o => cases h
  | columns keys => exact .answering rfl

theorem Works.ne_waiting {s : Session} {r : Request} {w : Worker} (h : Works s r w) :
    w ≠ .waiting := by
  cases h <;> exact nofun

theorem Works.ne_exited {s : Session} {r : Request} {w : Worker} (h : Works s r w) :
    w ≠ .exited := by
  cases h <;> exact nofun

/-- The work goes on as long as the ticket is live, and leads to the answer. -/
theorem Works.advance {s : Session} {r : Request} {w : Worker} (h : Works s r w)
    (hlive : ∀ query ticket, r = .search query ticket → ticket.isStale s.generation = false) :
    Works s r (w.advance s) := by
  -- one step of the worker for each constructor, until it has the answer in its hands
  cases h with
  | searching query ticket =>
    cases heval : evaluate s.grid (tokenize (trim query)) s.options s.selection with
    | error e =>
      have hnext : (Worker.searching query ticket).advance s = .answering (.outcome (.error e)) := by
        simp only [Worker.advance, heval]
      rw [hnext]
      refine .answering ?_
      rw [Session.answerFor?, Session.answer_of_error heval]
    | ok indexes =>
      have hnext : (Worker.searching query ticket).advance s =
          .found indexes (operands (tokenize (trim query))) ticket := by
        simp only [Worker.advance, heval]
      rw [hnext]
      exact .found ticket heval
  | found ticket heval =>
    rw [Worker.advance, if_neg (Bool.eq_false_iff.mp (hlive _ ticket rfl))]
    exact .built ticket heval
  | built ticket heval =>
    rw [Worker.advance, Ticket.guard, if_neg (Bool.eq_false_iff.mp (hlive _ ticket rfl))]
    refine .answering ?_
    rw [Session.answerFor?, Session.answer_of_ok heval]
  | answering ha => exact .answering ha

theorem Works.eq_search {s : Session} {r : Request} {w : Worker} (h : Works s r w) {ticket : Ticket}
    (hticket : w.ticket? = some ticket) : ∃ query, r = .search query ticket := by
  cases h with
  | searching => cases hticket
  | found t _ =>
    obtain rfl := Option.some.inj hticket
    exact ⟨_, rfl⟩
  | built t _ =>
    obtain rfl := Option.some.inj hticket
    exact ⟨_, rfl⟩
  | answering => cases hticket

theorem Worker.ofRequest_of_not_awaited (s : Session) {r : Request} (h : r.awaited = false) :
    Worker.ofRequest s r = .waiting := by
  cases r with
  | options o => rfl
  | search query ticket => cases h
  | columns keys => cases h

/-- A worker that waits can take in a request or exit. -/
theorem WorkerStep.of_waiting (h : WorkerStep x e y) (hworker : x.worker = .waiting) :
    (∃ r rest, x.requests = r :: rest ∧ y = { x with
      requests := rest
      session := x.session.serve r
      worker := .ofRequest (x.session.serve r) r }) ∨
    (x.finish = true ∨ x.prompt.gone = true) ∧ y.worker = .exited ∧ y.answers = x.answers ∧
      y.requests = x.requests := by
  cases h with
  | takes _ hrequests => exact .inl ⟨_, _, hrequests, rfl⟩
  | exitsTold _ hfinish => exact .inr ⟨.inl hfinish, rfl, rfl, rfl⟩
  | exitsAlone _ hgone => exact .inr ⟨.inr hgone, rfl, rfl, rfl⟩
  | exitsUnheard hanswering => cases hworker.symm.trans hanswering
  | evaluates hsearching => cases hworker.symm.trans hsearching
  | answers hanswering => cases hworker.symm.trans hanswering
  | checks hticket =>
    rw [hworker] at hticket
    cases hticket

theorem WorkerStep.not_exited (h : WorkerStep x e y) : x.worker ≠ .exited := by
  intro hexited
  cases h with
  | checks hticket =>
    rw [hexited] at hticket
    cases hticket
  | takes hworker => cases hexited.symm.trans hworker
  | evaluates hworker => cases hexited.symm.trans hworker
  | answers hworker => cases hexited.symm.trans hworker
  | exitsTold hworker => cases hexited.symm.trans hworker
  | exitsAlone hworker => cases hexited.symm.trans hworker
  | exitsUnheard hworker => cases hexited.symm.trans hworker

/-! ### What is before the worker -/

/-- Nothing is asked for or said, but that options may be on their way. -/
structure Idle (x : Exchange) : Prop where
  worker : x.worker = .waiting
  finish : x.finish = false
  answers : x.answers = []
  requests : ∀ r ∈ x.requests, r.awaited = false

/-- The request `r` is on its way, or its answer is. -/
inductive Serving (x : Exchange) (r : Request) : Prop
  | queued {os : List Request} (hworker : x.worker = .waiting) (hrequests : x.requests = os ++ [r])
    (hos : ∀ o ∈ os, o.awaited = false) (hanswers : x.answers = [])
  | working (hworks : Works x.session r x.worker) (hrequests : x.requests = [])
    (hanswers : x.answers = [])
  | answered {a : Answer} (hworker : x.worker = .waiting) (hrequests : x.requests = [])
    (hanswers : x.answers = [a]) (ha : x.session.answerFor? r = some a)

/-- The worker has been told to finish. -/
structure Stopping (x : Exchange) : Prop where
  worker : x.worker = .waiting ∧ x.finish = true ∨ x.worker = .exited
  answers : x.answers = []
  requests : ∀ r ∈ x.requests, r.awaited = false

theorem Idle.step (h : Idle x) (hgone : x.prompt.gone = false) (hstep : WorkerStep x e y) :
    Idle y := by
  rcases hstep.of_waiting h.worker with ⟨r, rest, hrequests, rfl⟩ | ⟨hfinish | hgone', -⟩
  · obtain ⟨hr, hrest⟩ := List.forall_mem_cons.mp (hrequests ▸ h.requests)
    exact ⟨Worker.ofRequest_of_not_awaited _ hr, h.finish, h.answers, hrest⟩
  · cases h.finish.symm.trans hfinish
  · cases hgone.symm.trans hgone'

theorem Stopping.step (h : Stopping x) (hstep : WorkerStep x e y) : Stopping y := by
  obtain ⟨hworker, hfinish⟩ := h.worker.resolve_right hstep.not_exited
  rcases hstep.of_waiting hworker with ⟨r, rest, hrequests, rfl⟩ | ⟨-, hexited, hanswers, hsame⟩
  · obtain ⟨hr, hrest⟩ := List.forall_mem_cons.mp (hrequests ▸ h.requests)
    exact ⟨.inl ⟨Worker.ofRequest_of_not_awaited _ hr, hfinish⟩, h.answers, hrest⟩
  · exact ⟨.inr hexited, hanswers.trans h.answers, hsame ▸ h.requests⟩

theorem Serving.ne_exited {r : Request} (h : Serving x r) : x.worker ≠ .exited := by
  intro hexited
  cases h with
  | queued hworker => cases hworker.symm.trans hexited
  | working hworks => exact hworks.ne_exited hexited
  | answered hworker => cases hworker.symm.trans hexited

theorem Serving.step {r : Request} (h : Serving x r) (hr : r.awaited = true)
    (hfinish : x.finish = false) (hgone : x.prompt.gone = false)
    (hlive : ∀ query ticket, r = .search query ticket →
      ticket.isStale x.session.generation = false)
    (hstep : WorkerStep x e y) : Serving y r ∧ y.finish = false := by
  -- neither reason to exit is there, so the steps that exit drop out below
  have hstays : ¬(x.finish = true ∨ x.prompt.gone = true) := by simp [hfinish, hgone]
  cases h with
  | @queued os hworker hqueue hos hanswers =>
    rcases hstep.of_waiting hworker with ⟨r', rest, hrequests, rfl⟩ | ⟨hstop, -⟩
    · cases os with
      | nil =>
        obtain ⟨rfl, rfl⟩ := List.cons_eq_cons.mp (hqueue.symm.trans hrequests)
        exact ⟨.working (.ofRequest _ hr) rfl hanswers, hfinish⟩
      | cons o os =>
        -- options that were sent before come first
        obtain ⟨rfl, rfl⟩ := List.cons_eq_cons.mp (hqueue.symm.trans hrequests)
        obtain ⟨ho, hrest⟩ := List.forall_mem_cons.mp hos
        exact ⟨.queued (Worker.ofRequest_of_not_awaited _ ho) rfl hrest hanswers, hfinish⟩
    · exact absurd hstop hstays
  | answered hworker hnone hanswers ha =>
    rcases hstep.of_waiting hworker with ⟨r', rest, hrequests, -⟩ | ⟨hstop, -⟩
    · cases hnone.symm.trans hrequests
    · exact absurd hstop hstays
  -- the work advances by itself; only with an answer in hand does the worker turn to the queue
  | working hworks hrequests hanswers =>
    cases hstep with
    | evaluates => exact ⟨.working (hworks.advance hlive) hrequests hanswers, hfinish⟩
    | checks => exact ⟨.working (hworks.advance hlive) hrequests hanswers, hfinish⟩
    | answers hworker =>
      rw [hworker] at hworks
      cases hworks with
      | answering ha => exact ⟨.answered rfl hrequests (by rw [hanswers]; rfl) ha, hfinish⟩
    | takes hworker => exact absurd hworker hworks.ne_waiting
    | exitsTold hworker => exact absurd hworker hworks.ne_waiting
    | exitsAlone hworker => exact absurd hworker hworks.ne_waiting
    | exitsUnheard _ hprompt => exact absurd (.inr hprompt) hstays

end Exchange

end CellQuery
