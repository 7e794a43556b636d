import CellQuery.Proofs.Prompt.Serving

/-!
# The prompt and the worker in step

What can be seen of a run so far says where the exchange is. Its settled session is the session
after the lines that have been read (`InStep.session`), and it is at one of a few stages, by what
the prompt does next (`Stage`). Both stay so with every step of the prompt and of the worker
(`InStep.prompt`, `InStep.worker`), and hence in every run (`InStep.run`).
-/

namespace CellQuery

open Text

/-! ### Lines that ask -/

/-- The request that a line comes to after the lines `before`, if it is one with an answer. -/
inductive Asks (c : Session) (before : List String) (line : String) : Request → Prop
  | search : IsQuery line → Asks c before line (.search (trim line) (c.afterLines before).bump.1)
  | columns {keys : List String} : columnsOf? line = some keys → Asks c before line (.columns keys)

namespace Asks

variable {c : Session} {before : List String} {line : String} {r : Request}

theorem awaited (h : Asks c before line r) : r.awaited = true := by
  cases h <;> rfl

theorem not_leave (h : Asks c before line r) : trim line ≠ "/bye" := by
  cases h with
  | search hquery => exact hquery.not_leave
  | columns hkeys =>
    intro ht
    rw [columnsOf?_of_trim ht (by decide)] at hkeys
    cases hkeys

/-- Taking in the request is all that the line does to the session. -/
theorem answerFor?_snoc (h : Asks c before line r) :
    (c.afterLines (before ++ [line])).answerFor? r = (c.afterLines before).answerFor? r := by
  rw [Session.afterLines_snoc]
  cases h with
  | search hquery =>
    rw [ofLine_eq_iff.mpr (.search hquery), Session.perform_search_snd]
    rfl
  | columns hkeys =>
    rw [ofLine_eq_iff.mpr (.columns hkeys)]
    rfl

/-- The ticket of a query is live as long as no further line has been read. -/
theorem isStale_eq_false {query : String} {ticket : Ticket}
    (h : Asks c before line (.search query ticket)) :
    ticket.isStale (c.afterLines (before ++ [line])).generation = false := by
  cases h with
  | search hquery =>
    rw [Session.afterLines_snoc, ofLine_eq_iff.mpr (.search hquery), Session.perform_search_snd]
    exact Generation.isStale_bump _

theorem reply_eq (h : Asks c before line r) {a : Answer}
    (ha : (c.afterLines before).answerFor? r = some a) :
    ((c.afterLines before).perform (.ofLine line)).1 = a.reply (c.afterLines before).headers
      (c.afterLines before).style := by
  cases h with
  | search hquery =>
    obtain rfl := Option.some.inj ha
    rw [ofLine_eq_iff.mpr (.search hquery)]
    cases hresult : (c.afterLines before).answer (trim line) with
    | ok outcome => rw [Session.perform_search_of_ok hresult]; rfl
    | error e => rw [Session.perform_search_of_error hresult]; rfl
  | columns hkeys =>
    obtain rfl := Option.some.inj ha
    rw [ofLine_eq_iff.mpr (.columns hkeys)]
    rfl

end Asks

namespace Exchange

variable {c : Session} {lines : List String} {trace : List Event} {x y : Exchange} {e : Event}

/-! ### Traces -/

/-- The line that is read. -/
def Event.line? : Event → Option String
  | .reads line => some line
  | _ => none

/-- The request that is sent, if an answer follows. -/
def Event.asked? : Event → Option Request
  | .sends r => if r.awaited then some r else none
  | _ => none

/-- The answer that is received. -/
def Event.received? : Event → Option Answer
  | .receives a => some a
  | _ => none

/-- The lines that have been read. -/
def linesRead (trace : List Event) : List String :=
  trace.filterMap Event.line?

/-- The requests that have been sent, but for those without an answer. -/
def asked (trace : List Event) : List Request :=
  trace.filterMap Event.asked?

/-- The answers that have been received. -/
def received (trace : List Event) : List Answer :=
  trace.filterMap Event.received?

theorem linesRead_reads (line : String) :
    linesRead (trace ++ [.reads line]) = linesRead trace ++ [line] := by
  rw [linesRead, List.filterMap_append]
  rfl

theorem linesRead_of_none (h : e.line? = none) : linesRead (trace ++ [e]) = linesRead trace := by
  simp [linesRead, h]

theorem asked_of_none (h : e.asked? = none) : asked (trace ++ [e]) = asked trace := by
  simp [asked, h]

theorem received_of_none (h : e.received? = none) : received (trace ++ [e]) = received trace := by
  simp [received, h]

/-- The steps of the worker are not among those of the prompt. -/
theorem WorkerStep.unseen (h : WorkerStep x e y) :
    e.line? = none ∧ e.asked? = none ∧ e.received? = none := by
  cases h <;> exact ⟨rfl, rfl, rfl⟩

/-! ### Stages -/

/-- Every request has been answered, and the replies are those to `lines`. -/
structure Replied (c : Session) (lines : List String) (trace : List Event) (x : Exchange) : Prop where
  replies : x.replies = c.replies lines
  even : (asked trace).length = (received trace).length

theorem Replied.step (h : Replied c lines trace x) (hreplies : y.replies = x.replies)
    (hasked : e.asked? = none) (hreceived : e.received? = none) :
    Replied c lines (trace ++ [e]) y := by
  refine ⟨hreplies.trans h.replies, ?_⟩
  rw [asked_of_none hasked, received_of_none hreceived]
  exact h.even

/-- How the two stand to each other, by what the prompt does next. -/
inductive Stage (c : Session) (lines : List String) (trace : List Event) (x : Exchange) :
    Prompt → Prop
  | reading : Idle x → (∀ l ∈ linesRead trace, trim l ≠ "/bye") →
    Replied c (linesRead trace) trace x → Stage c lines trace x .reading
  | switching (o : Options) : Idle x → (∀ l ∈ linesRead trace, trim l ≠ "/bye") →
    Replied c (linesRead trace) trace x → Stage c lines trace x (.sending (.options o))
  | asking {before : List String} {line : String} : linesRead trace = before ++ [line] →
    IsQuery line → (∀ l ∈ before, trim l ≠ "/bye") → Idle x → Replied c before trace x →
    Stage c lines trace x (.asking (trim line))
  | sending {before : List String} {line : String} {r : Request} :
    linesRead trace = before ++ [line] → Asks c before line r →
    (∀ l ∈ before, trim l ≠ "/bye") → Idle x → Replied c before trace x →
    Stage c lines trace x (.sending r)
  | awaiting {before : List String} {line : String} {r : Request} {earlier : List Request} :
    linesRead trace = before ++ [line] → Asks c before line r →
    (∀ l ∈ before, trim l ≠ "/bye") → Serving x r → x.finish = false →
    x.replies = c.replies before → asked trace = earlier ++ [r] →
    earlier.length = (received trace).length → Stage c lines trace x .awaiting
  | finishing : Idle x → Replied c lines trace x → Stage c lines trace x .finishing
  | joining : Stopping x → Replied c lines trace x → Stage c lines trace x .joining
  | left : x.worker = .exited → x.answers = [] → Replied c lines trace x →
    Stage c lines trace x .left

/-- The exchange after a trace, over a session and the lines of the input. -/
structure InStep (c : Session) (lines : List String) (trace : List Event) (x : Exchange) :
    Prop where
  input : linesRead trace ++ x.lines = lines
  headers : x.headers = c.headers
  style : x.style = c.style
  options : x.options = x.settled.options
  session : x.settled = c.afterLines (linesRead trace)
  stage : Stage c lines trace x x.prompt

theorem inStep_start (c : Session) (lines : List String) : InStep c lines [] (start c lines) := by
  refine ⟨rfl, rfl, rfl, rfl, rfl, ?_⟩
  exact .reading ⟨rfl, rfl, rfl, nofun⟩ nofun ⟨rfl, rfl⟩

/-! ### Steps of the worker -/

theorem Stage.worker {p : Prompt} (h : Stage c lines trace x p) (hprompt : x.prompt = p)
    (hsession : x.settled = c.afterLines (linesRead trace)) (hstep : WorkerStep x e y) :
    Stage c lines (trace ++ [e]) y p := by
  obtain ⟨hline, hasked, hreceived⟩ := hstep.unseen
  obtain ⟨-, -, -, -, -, -, hreplies⟩ := hstep.frame
  have hread : linesRead (trace ++ [e]) = linesRead trace := linesRead_of_none hline
  have hstill : ∀ {ls}, Replied c ls trace x → Replied c ls (trace ++ [e]) y :=
    fun hreplied => hreplied.step hreplies hasked hreceived
  have hrest : x.prompt.gone = false → Idle x → Idle y := fun hgone hidle => hidle.step hgone hstep
  rw [hprompt] at hrest
  -- a step of the worker leaves the prompt where it is, so the stage stays the same
  cases h with
  | reading hidle hopen hreplied =>
    rw [← hread] at hopen hreplied
    exact .reading (hrest rfl hidle) hopen (hstill hreplied)
  | switching o hidle hopen hreplied =>
    rw [← hread] at hopen hreplied
    exact .switching o (hrest rfl hidle) hopen (hstill hreplied)
  | asking hlast hquery hopen hidle hreplied =>
    exact .asking (hread.trans hlast) hquery hopen (hrest rfl hidle) (hstill hreplied)
  | sending hlast hasks hopen hidle hreplied =>
    exact .sending (hread.trans hlast) hasks hopen (hrest rfl hidle) (hstill hreplied)
  | finishing hidle hreplied => exact .finishing (hrest rfl hidle) (hstill hreplied)
  | joining hstopping hreplied => exact .joining (hstopping.step hstep) (hstill hreplied)
  | left hexited => exact absurd hexited hstep.not_exited
  | @awaiting before line r earlier hlast hasks hopen hserving hfinish hreplied hsent heven =>
    -- no line has been read since the query, so its ticket is live
    have hlive : ∀ query ticket, r = Request.search query ticket →
        ticket.isStale x.session.generation = false := by
      rintro query ticket rfl
      have hstale := hasks.isStale_eq_false
      rw [← hlast, ← hsession, settled, hprompt] at hstale
      rwa [← x.session.generation_foldl_serve x.requests]
    obtain ⟨hserving', hfinish'⟩ :=
      hserving.step hasks.awaited hfinish (by rw [hprompt]; rfl) hlive hstep
    refine .awaiting (hread.trans hlast) hasks hopen hserving' hfinish' (hreplies.trans hreplied)
      ((asked_of_none hasked).trans hsent) ?_
    rw [received_of_none hreceived]
    exact heven

/-- A step without a new line has the stage to look after only. -/
theorem InStep.of_unread (h : InStep c lines trace x)
    (hline : e.line? = none)
    (hshown : y.lines = x.lines ∧ y.options = x.options ∧ y.headers = x.headers ∧ y.style = x.style)
    (hsettled : y.settled = x.settled) (hstage : Stage c lines (trace ++ [e]) y y.prompt) :
    InStep c lines (trace ++ [e]) y := by
  obtain ⟨hlines, hoptions, hheaders, hstyle⟩ := hshown
  have hread : linesRead (trace ++ [e]) = linesRead trace := linesRead_of_none hline
  refine ⟨?_, hheaders.trans h.headers, hstyle.trans h.style, ?_, ?_, hstage⟩
  · rw [hread, hlines]
    exact h.input
  · rw [hoptions, hsettled]
    exact h.options
  · rw [hsettled, hread]
    exact h.session

theorem InStep.worker (h : InStep c lines trace x) (hstep : WorkerStep x e y) :
    InStep c lines (trace ++ [e]) y := by
  obtain ⟨hline, -, -⟩ := hstep.unseen
  obtain ⟨hsettled, hprompt, hlines, hoptions, hheaders, hstyle, -⟩ := hstep.frame
  refine h.of_unread hline ⟨hlines, hoptions, hheaders, hstyle⟩ hsettled ?_
  rw [hprompt]
  exact h.stage.worker rfl h.session hstep

/-! ### Steps of the prompt -/

theorem idle_hear (h : Idle x) (rest : List String) (c : Command) :
    Idle ({ x with lines := rest }.hear c) := by
  cases c <;> exact ⟨h.worker, h.finish, h.answers, h.requests⟩

theorem stage_reads {line : String} {rest : List String} (hprompt : x.prompt = .reading)
    (hinput : linesRead trace ++ line :: rest = lines) (hidle : Idle x)
    (hopen : ∀ l ∈ linesRead trace, trim l ≠ "/bye") (hreplied : Replied c (linesRead trace) trace x)
    (hoptions : x.options = (c.afterLines (linesRead trace)).options) :
    Stage c lines (trace ++ [.reads line]) ({ x with lines := rest }.hear (.ofLine line))
      ({ x with lines := rest }.hear (.ofLine line)).prompt := by
  -- the line counts as read from now on, but only a reply to it makes up for it
  have hread : linesRead (trace ++ [.reads line]) = linesRead trace ++ [line] := linesRead_reads line
  obtain ⟨-, heven⟩ : Replied c (linesRead trace) (trace ++ [.reads line]) x :=
    hreplied.step rfl rfl rfl
  have hidle' := idle_hear hidle rest (.ofLine line)
  have hopen' : trim line ≠ "/bye" → ∀ l ∈ linesRead (trace ++ [.reads line]), trim l ≠ "/bye" := by
    intro hline
    rw [hread, List.forall_mem_append]
    exact ⟨hopen, List.forall_mem_singleton.mpr hline⟩
  have hreplies : trim line ≠ "/bye" → _ := fun hline => c.replies_snoc hopen hline
  -- the command is taken apart by what the line means, not by the tests that find it out
  have hmeans := means_ofLine line
  generalize Command.ofLine line = command at hmeans hreplies hidle' ⊢
  cases hmeans with
  | nothing ht =>
    have hline : trim line ≠ "/bye" := by rw [ht]; decide
    have hreading : ({ x with lines := rest }.hear .nothing).prompt = .reading := hprompt
    rw [hreading]
    refine .reading hidle' (hopen' hline) ⟨?_, heven⟩
    rw [hread, hreplies hline, ← hreplied.replies]
    rfl
  -- nothing behind this line is read, so the replies so far are all there will be
  | leave ht =>
    refine .finishing hidle' ⟨?_, heven⟩
    rw [← hinput, c.replies_append_leave hopen ht]
    exact hreplied.replies
  | toggleCase ht | toggleExact ht =>
    have hline : trim line ≠ "/bye" := by rw [ht]; decide
    refine .switching _ hidle' (hopen' hline) ⟨?_, heven⟩
    rw [hread, hreplies hline, ← hreplied.replies, hear, switch, hoptions]
    rfl
  | columns hkeys =>
    exact .sending hread (.columns hkeys) hopen hidle' ⟨hreplied.replies, heven⟩
  | search hquery => exact .asking hread hquery hopen hidle' ⟨hreplied.replies, heven⟩

theorem InStep.reads {line : String} {rest : List String} (h : InStep c lines trace x)
    (hprompt : x.prompt = .reading) (hlines : x.lines = line :: rest) (hidle : Idle x)
    (hopen : ∀ l ∈ linesRead trace, trim l ≠ "/bye")
    (hreplied : Replied c (linesRead trace) trace x) :
    InStep c lines (trace ++ [.reads line]) ({ x with lines := rest }.hear (.ofLine line)) := by
  have hread : linesRead (trace ++ [.reads line]) = linesRead trace ++ [line] := linesRead_reads line
  have hinput := h.input
  rw [hlines] at hinput
  have hoptions := h.options
  obtain ⟨hsettled, hoptions'⟩ := settled_hear (x := { x with lines := rest }) hprompt hoptions
    (.ofLine line)
  rw [h.session] at hoptions
  have hshown : ∀ c : Command, ({ x with lines := rest }.hear c).lines = rest ∧
      ({ x with lines := rest }.hear c).headers = x.headers ∧
      ({ x with lines := rest }.hear c).style = x.style := by
    intro c
    cases c <;> exact ⟨rfl, rfl, rfl⟩
  obtain ⟨hrest, hheaders, hstyle⟩ := hshown (.ofLine line)
  refine ⟨?_, hheaders.trans h.headers, hstyle.trans h.style, hoptions', ?_,
    stage_reads hprompt hinput hidle hopen hreplied hoptions⟩
  · rw [hread, hrest, List.append_assoc]
    exact hinput
  · have hsame : settled { x with lines := rest } = x.settled := rfl
    rw [hsettled, hread, Session.afterLines_snoc, hsame, h.session]

/-- The ticket for a query is the one that the session after the line is in the generation of. -/
theorem stage_begins {query : String} (h : InStep c lines trace x)
    (hprompt : x.prompt = .asking query) :
    Stage c lines (trace ++ [.begins x.session.bump.1])
      { x with session := x.session.bump.2, prompt := .sending (.search query x.session.bump.1) }
      (.sending (.search query x.session.bump.1)) := by
  have hread : linesRead (trace ++ [.begins x.session.bump.1]) = linesRead trace :=
    linesRead_of_none rfl
  have hstage := h.stage
  rw [hprompt] at hstage
  cases hstage with
  | @asking before line hlast hquery hopen hidle hreplied =>
    -- options and columns do not move the generation, so both sessions begin the same one
    have hticket : x.session.bump.1 = (c.afterLines before).bump.1 := by
      have hnumber : ∀ t : Session, t.bump.1 = ⟨t.bump.2.generation.current, true⟩ := fun _ => rfl
      have hsettled := congrArg Session.generation h.session
      rw [settled, hprompt, hlast, Session.afterLines_snoc, ofLine_eq_iff.mpr (.search hquery),
        Session.perform_search_snd, Prompt.settle, ← Session.foldl_serve_bump,
        Session.generation_foldl_serve] at hsettled
      rw [hnumber, hsettled, ← hnumber]
    refine .sending (hread.trans hlast) ?_ hopen ⟨hidle.worker, hidle.finish, hidle.answers,
      hidle.requests⟩ (hreplied.step rfl rfl rfl)
    rw [hticket]
    exact .search hquery

theorem stage_sends {r : Request} (h : InStep c lines trace x) (hprompt : x.prompt = .sending r) :
    Stage c lines (trace ++ [.sends r])
      { x with
        requests := x.requests ++ [r]
        prompt := if r.awaited then .awaiting else .reading }
      (if r.awaited then .awaiting else .reading) := by
  have hread : linesRead (trace ++ [.sends r]) = linesRead trace := linesRead_of_none rfl
  have hstage := h.stage
  rw [hprompt] at hstage
  -- options are sent and forgotten; anything else is an open request from now on
  cases hstage with
  | switching o hidle hopen hreplied =>
    have hall : ∀ r ∈ x.requests ++ [.options o], r.awaited = false :=
      List.forall_mem_append.mpr ⟨hidle.requests, List.forall_mem_singleton.mpr rfl⟩
    rw [← hread] at hopen hreplied
    exact .reading ⟨hidle.worker, hidle.finish, hidle.answers, hall⟩ hopen
      (hreplied.step rfl rfl rfl)
  | sending hlast hasks hopen hidle hreplied =>
    have hasked : asked (trace ++ [.sends r]) = asked trace ++ [r] := by
      simp [asked, Event.asked?, hasks.awaited]
    rw [if_pos hasks.awaited]
    refine .awaiting (hread.trans hlast) hasks hopen
      (.queued hidle.worker rfl hidle.requests hidle.answers) hidle.finish hreplied.replies hasked ?_
    rw [received_of_none rfl]
    exact hreplied.even

/-- What is received is the answer to the last request, which no answer has been received to. -/
theorem InStep.receives {a : Answer} {rest : List Answer} (h : InStep c lines trace x)
    (hprompt : x.prompt = .awaiting) (hanswers : x.answers = a :: rest) :
    ∃ before line r earlier, linesRead trace = before ++ [line] ∧ Asks c before line r ∧
      (c.afterLines before).answerFor? r = some a ∧ asked trace = earlier ++ [r] ∧
      earlier.length = (received trace).length ∧ (∀ l ∈ before, trim l ≠ "/bye") ∧
      x.replies = c.replies before ∧ rest = [] ∧ x.worker = .waiting ∧ x.requests = [] ∧
      x.finish = false := by
  have hstage := h.stage
  rw [hprompt] at hstage
  cases hstage with
  | @awaiting before line r earlier hlast hasks hopen hserving hfinish hreplied hsent heven =>
    -- the queue has an answer in it, so the worker is through with the request
    cases hserving with
    | queued _ _ _ hnone => cases hnone.symm.trans hanswers
    | working _ _ hnone => cases hnone.symm.trans hanswers
    | answered hworker hrequests hone ha =>
      obtain ⟨rfl, rfl⟩ := List.cons_eq_cons.mp (hone.symm.trans hanswers)
      have hsession : x.session = c.afterLines (before ++ [line]) := by
        have hsettled := h.session
        rwa [settled, hprompt, hrequests, hlast] at hsettled
      rw [hsession, hasks.answerFor?_snoc] at ha
      exact ⟨before, line, r, earlier, hlast, hasks, ha, hsent, heven, hopen, hreplied, rfl, hworker,
        hrequests, hfinish⟩

theorem stage_receives {a : Answer} {rest : List Answer} (h : InStep c lines trace x)
    (hprompt : x.prompt = .awaiting) (hanswers : x.answers = a :: rest) :
    Stage c lines (trace ++ [.receives a])
      { x with
        answers := rest
        replies := x.replies ++ [a.reply x.headers x.style]
        prompt := .reading } .reading := by
  obtain ⟨before, line, r, earlier, hlast, hasks, ha, hsent, heven, hopen, hreplies, rfl, hworker,
    hrequests, hfinish⟩ := h.receives hprompt hanswers
  have hread : linesRead (trace ++ [.receives a]) = before ++ [line] :=
    (linesRead_of_none rfl).trans hlast
  refine .reading ⟨hworker, hfinish, rfl, hrequests ▸ nofun⟩ ?_ ⟨?_, ?_⟩
  · rw [hread, List.forall_mem_append]
    exact ⟨hopen, List.forall_mem_singleton.mpr hasks.not_leave⟩
  -- the reply is made with the headers and the style that the prompt was started with
  · obtain ⟨hheaders, hstyle⟩ := c.shown_afterLines before
    rw [hread, c.replies_snoc hopen hasks.not_leave, hasks.reply_eq ha, hheaders, hstyle,
      ← h.headers, ← h.style, ← hreplies]
  · have hheard : received (trace ++ [.receives a]) = received trace ++ [a] := by
      simp [received, Event.received?]
    rw [asked_of_none rfl, hheard, hsent, List.length_append, List.length_append, heven]
    rfl

/-- The worker exits in the end only. -/
theorem InStep.of_exited (h : InStep c lines trace x) (hworker : x.worker = .exited) :
    x.prompt = .joining ∨ x.prompt = .left := by
  have hstage := h.stage
  generalize x.prompt = p at hstage
  cases hstage with
  | reading hidle => cases hidle.worker.symm.trans hworker
  | switching o hidle => cases hidle.worker.symm.trans hworker
  | asking _ _ _ hidle => cases hidle.worker.symm.trans hworker
  | sending _ _ _ hidle => cases hidle.worker.symm.trans hworker
  | awaiting _ _ _ hserving => exact absurd hworker hserving.ne_exited
  | finishing hidle => cases hidle.worker.symm.trans hworker
  | joining => exact .inl rfl
  | left => exact .inr rfl

theorem InStep.prompt (h : InStep c lines trace x) (hstep : PromptStep x e y) :
    InStep c lines (trace ++ [e]) y := by
  have hstage := h.stage
  -- each step has its stage to itself, and a failing one has none
  cases hstep with
  | @reads line rest hprompt hlines =>
    rw [hprompt] at hstage
    cases hstage with
    | reading hidle hopen hreplied => exact h.reads hprompt hlines hidle hopen hreplied
  | ends hprompt hlines =>
    have hinput := h.input
    rw [hlines, List.append_nil] at hinput
    rw [hprompt] at hstage
    cases hstage with
    | reading hidle hopen hreplied =>
      refine h.of_unread rfl ⟨rfl, rfl, rfl, rfl⟩ ?_
        (.finishing ⟨hidle.worker, hidle.finish, hidle.answers, hidle.requests⟩ ?_)
      · rw [settled, settled, hprompt]
        rfl
      · rw [← hinput]
        exact hreplied.step rfl rfl rfl
  | begins hprompt =>
    refine h.of_unread rfl ⟨rfl, rfl, rfl, rfl⟩ ?_ (stage_begins h hprompt)
    rw [settled, settled, hprompt]
    exact Session.foldl_serve_bump _ _
  | @sends r hprompt hworker =>
    refine h.of_unread rfl ⟨rfl, rfl, rfl, rfl⟩ ?_ (stage_sends h hprompt)
    rw [settled, settled, hprompt, List.foldl_append]
    cases r <;> rfl
  | receives hprompt hanswers =>
    refine h.of_unread rfl ⟨rfl, rfl, rfl, rfl⟩ ?_
      (stage_receives h hprompt hanswers)
    rw [settled, settled, hprompt]
    rfl
  | finishes hprompt hworker hfinish =>
    rw [hprompt] at hstage
    cases hstage with
    | finishing hidle hreplied =>
      refine h.of_unread rfl ⟨rfl, rfl, rfl, rfl⟩ ?_
        (.joining ⟨.inl ⟨hidle.worker, rfl⟩, hidle.answers, hidle.requests⟩
          (hreplied.step rfl rfl rfl))
      rw [settled, settled, hprompt]
      rfl
  | joins hprompt hworker =>
    rw [hprompt] at hstage
    cases hstage with
    | joining hstopping hreplied =>
      refine h.of_unread rfl ⟨rfl, rfl, rfl, rfl⟩ ?_
        (.left hworker hstopping.answers (hreplied.step rfl rfl rfl))
      rw [settled, settled, hprompt]
      rfl
  -- the worker exits only once the prompt is joining, and then nothing is sent or awaited
  | failsToSend hprompt hworker =>
    rcases h.of_exited hworker with hend | hend <;> cases hprompt.symm.trans hend
  | failsToReceive hprompt hworker hanswers =>
    rcases h.of_exited hworker with hend | hend <;> cases hprompt.symm.trans hend
  | failsToFinish hprompt hworker =>
    rcases h.of_exited hworker with hend | hend <;> cases hprompt.symm.trans hend

theorem InStep.run {trace : List Event} {x : Exchange} (h : Run (start c lines) trace x) :
    InStep c lines trace x := by
  induction h with
  | nil => exact inStep_start c lines
  | snoc hrun hstep ih =>
    cases hstep with
    | prompt hstep => exact ih.prompt hstep
    | worker hstep => exact ih.worker hstep

end Exchange

end CellQuery
