import CellQuery.Proofs.Prompt.InStep

/-!
# Every schedule

Runs of an exchange, in whatever order the prompt and the worker take their steps. What holds of an
exchange in step can be read off at every moment of a run (`Run.split`). Every step uses up one of
those that are left (`Step.stepsLeft_lt`), and until the prompt has left there is always one to take
(`InStep.progress`), so that every run comes to an end (`exists_left`).
-/

namespace CellQuery

open Text

/-! ### The text of a superseded search -/

theorem ne_superseded_of_head {text : String} (h : text.toList.head? ≠ some '(') :
    text ≠ "(superseded)\n" := by
  rintro rfl
  exact h rfl

theorem report_ne_superseded (headers : List String) (style : Style) {o : Outcome}
    (h : o.rows ≠ none) : o.report headers style ≠ "(superseded)\n" := by
  obtain ⟨rows, hrows⟩ := Option.ne_none_iff_exists'.mp h
  intro heq
  have hend : " row(s)\n".toList <:+ (o.report headers style).toList := by
    rw [Outcome.report, hrows]
    simp only [String.toList_append]
    exact ⟨_, by rw [List.append_assoc]; rfl⟩
  rw [heq] at hend
  revert hend
  decide

namespace Session

theorem rows_of_answer {s : Session} {query : String} {o : Outcome} (h : s.answer query = .ok o) :
    o.rows ≠ none := by
  obtain ⟨indexes, -, rfl⟩ := exists_indexes_of_answer h
  exact Option.some_ne_none _

theorem printed_perform_ne (s : Session) (c : Command) :
    (s.perform c).1.printed ≠ "(superseded)\n" := by
  cases c with
  | nothing =>
    show "" ≠ "(superseded)\n"
    decide
  | leave =>
    show "" ≠ "(superseded)\n"
    decide
  | toggleCase => exact ne_superseded_of_head (by simp [perform, switchLine])
  | toggleExact => exact ne_superseded_of_head (by simp [perform, switchLine])
  | columns keys => exact ne_superseded_of_head (by simp [perform])
  | search query =>
    cases h : s.answer query with
    | ok outcome =>
      rw [perform_search_of_ok h]
      exact report_ne_superseded _ _ (rows_of_answer h)
    | error e =>
      rw [perform_search_of_error h]
      show "" ≠ "(superseded)\n"
      decide

theorem printed_ne_of_mem_replies {s : Session} {lines : List String} :
    ∀ reply ∈ s.replies lines, reply.printed ≠ "(superseded)\n" := by
  induction lines generalizing s with
  | nil =>
    intro reply hreply
    cases hreply
  | cons line rest ih =>
    by_cases hline : trim line = "/bye"
    · rw [replies, ofLine_eq_leave_iff.mpr hline]
      intro reply hreply
      cases hreply
    · rw [replies_cons hline, List.forall_mem_cons]
      exact ⟨s.printed_perform_ne _, ih⟩

end Session

/-! ### Moments of a run -/

/-- The answer that the worker has in its hands. -/
def Worker.held : Worker → List Answer
  | .answering a => [a]
  | _ => []

namespace Exchange

variable {c : Session} {lines : List String} {trace : List Event} {x y z : Exchange} {e : Event}

/-- A run passes through every moment of its trace. -/
theorem Run.split {early later : List Event} (h : Run x (early ++ e :: later) z) :
    ∃ y y', Run x early y ∧ Step y e y' := by
  generalize htrace : early ++ e :: later = trace at h
  induction h generalizing later with
  | nil => simp at htrace
  | @snoc trace e' y z hrun hstep ih =>
    -- the step asked for is the last one, or it lies in the run before that
    rcases List.eq_nil_or_concat later with rfl | ⟨later, e'', rfl⟩
    · obtain ⟨rfl, hlast⟩ := List.append_inj' htrace rfl
      obtain rfl := List.singleton_inj.mp hlast
      exact ⟨y, z, hrun, hstep⟩
    · rw [List.concat_eq_append, ← List.cons_append, ← List.append_assoc] at htrace
      exact ih (List.append_inj' htrace rfl).1

/-- Unless an answer is awaited, none is under way, and the worker has nothing to do. -/
theorem Stage.quiet {p : Prompt} (h : Stage c lines trace x p) (hp : p ≠ .awaiting) :
    (x.worker = .waiting ∨ x.worker = .exited) ∧ x.answers = [] ∧
      (asked trace).length = (received trace).length := by
  cases h with
  | reading hidle _ hreplied => exact ⟨.inl hidle.worker, hidle.answers, hreplied.even⟩
  | switching _ hidle _ hreplied => exact ⟨.inl hidle.worker, hidle.answers, hreplied.even⟩
  | asking _ _ _ hidle hreplied => exact ⟨.inl hidle.worker, hidle.answers, hreplied.even⟩
  | sending _ _ _ hidle hreplied => exact ⟨.inl hidle.worker, hidle.answers, hreplied.even⟩
  | awaiting => exact absurd rfl hp
  | finishing hidle hreplied => exact ⟨.inl hidle.worker, hidle.answers, hreplied.even⟩
  | joining hstopping hreplied =>
    exact ⟨hstopping.worker.imp_left And.left, hstopping.answers, hreplied.even⟩
  | left hexited hanswers hreplied => exact ⟨.inr hexited, hanswers, hreplied.even⟩

/-- While the worker is at work, the prompt is waiting for it, and the session is the one after the
last line read. -/
theorem InStep.of_busy (h : InStep c lines trace x) (hwaiting : x.worker ≠ .waiting)
    (hexited : x.worker ≠ .exited) :
    ∃ before line r, linesRead trace = before ++ [line] ∧ Asks c before line r ∧
      Works x.session r x.worker ∧ x.session = c.afterLines (before ++ [line]) := by
  have hstage := h.stage
  -- only a prompt that waits for an answer has set the worker to work
  by_cases hprompt : x.prompt = .awaiting
  · rw [hprompt] at hstage
    cases hstage with
    | @awaiting before line r earlier hlast hasks hopen hserving =>
      cases hserving with
      | queued hidle => exact absurd hidle hwaiting
      | answered hidle => exact absurd hidle hwaiting
      | working hworks hrequests hanswers =>
        have hsession := h.session
        rw [settled, hprompt, hrequests, hlast] at hsession
        exact ⟨before, line, r, hlast, hasks, hworks, hsession⟩
  · obtain ⟨hidle | hgone, -⟩ := hstage.quiet hprompt
    · exact absurd hidle hwaiting
    · exact absurd hgone hexited

theorem InStep.of_evaluates (h : InStep c lines trace x) {query : String} {o : Options}
    {selection : Selection} (hstep : Step x (.evaluates query o selection) y) :
    ∃ before line, linesRead trace = before ++ [line] ∧ IsQuery line ∧ query = trim line ∧
      o = (c.afterLines before).options ∧ selection = (c.afterLines before).selection := by
  rcases hstep with ⟨⟨⟩⟩ | hstep
  cases hstep with
  | evaluates hworker =>
    obtain ⟨before, line, r, hlast, hasks, hworks, hsession⟩ :=
      h.of_busy (by simp [hworker]) (by simp [hworker])
    rw [hworker] at hworks
    cases hworks with
    | searching =>
      cases hasks with
      | search hquery =>
        rw [Session.afterLines_snoc, ofLine_eq_iff.mpr (.search hquery),
          Session.perform_search_snd] at hsession
        exact ⟨before, line, hlast, hquery, rfl, by rw [hsession]; rfl, by rw [hsession]; rfl⟩

/-- The worker looks at live tickets only. -/
theorem InStep.of_checks (h : InStep c lines trace x) {ticket : Ticket} {stale : Bool}
    (hstep : Step x (.checks ticket stale) y) : stale = false := by
  rcases hstep with ⟨⟨⟩⟩ | hstep
  cases hstep with
  | checks hworker =>
    obtain ⟨before, line, r, hlast, hasks, hworks, hsession⟩ :=
      h.of_busy (by intro hw; simp [hw, Worker.ticket?] at hworker)
        (by intro hw; simp [hw, Worker.ticket?] at hworker)
    obtain ⟨query, rfl⟩ := hworks.eq_search hworker
    rw [hsession]
    exact hasks.isStale_eq_false

/-- At most one answer is under way, and at most one request is without an answer. -/
theorem InStep.in_flight (h : InStep c lines trace x) :
    (x.worker.held ++ x.answers).length ≤ 1 ∧
      (asked trace).length ≤ (received trace).length + 1 := by
  have hnone : x.worker = .waiting ∨ x.worker = .exited → x.answers = [] →
      (x.worker.held ++ x.answers).length ≤ 1 := by
    rintro (hw | hw) ha <;> rw [hw, ha] <;> exact Nat.zero_le 1
  have hstage := h.stage
  by_cases hprompt : x.prompt = .awaiting
  -- an answer under way is either in the hands of the worker or in the queue, never both
  · rw [hprompt] at hstage
    cases hstage with
    | awaiting _ _ _ hserving _ _ hsent heven =>
      refine ⟨?_, by rw [hsent, List.length_append, List.length_singleton, heven]⟩
      cases hserving with
      | queued hworker _ _ hanswers => exact hnone (.inl hworker) hanswers
      | answered hworker _ hanswers =>
        rw [hworker, hanswers]
        exact Nat.le_refl 1
      | working hworks _ hanswers =>
        rw [hanswers, List.append_nil]
        cases x.worker <;> simp [Worker.held]
  · obtain ⟨hworker, hanswers, heven⟩ := hstage.quiet hprompt
    exact ⟨hnone hworker hanswers, by omega⟩

/-- Until the prompt has left, one of the two can take a step. -/
theorem InStep.progress (h : InStep c lines trace x) :
    x.prompt = .left ∨ ∃ e y, Step x e y := by
  have hsend : ∀ {r}, x.prompt = .sending r → Idle x → ∃ e y, Step x e y := by
    intro r hprompt hidle
    exact ⟨_, _, .prompt (.sends hprompt (by simp [hidle.worker]))⟩
  have hstage := h.stage
  -- whose turn it is depends on the stage alone
  generalize hprompt : x.prompt = p at hstage
  cases hstage with
  | reading hidle =>
    right
    cases hlines : x.lines with
    | nil => exact ⟨_, _, .prompt (.ends hprompt hlines)⟩
    | cons line rest => exact ⟨_, _, .prompt (.reads hprompt hlines)⟩
  | switching o hidle => exact .inr (hsend hprompt hidle)
  | asking => exact .inr ⟨_, _, .prompt (.begins hprompt)⟩
  | sending _ _ _ hidle => exact .inr (hsend hprompt hidle)
  | finishing hidle =>
    exact .inr ⟨_, _, .prompt (.finishes hprompt (by simp [hidle.worker]) hidle.finish)⟩
  | left => exact .inl rfl
  | joining hstopping =>
    right
    rcases hstopping.worker with ⟨hworker, htold⟩ | hexited
    · exact ⟨_, _, .worker (.exitsTold hworker htold)⟩
    · exact ⟨_, _, .prompt (.joins hprompt hexited)⟩
  | awaiting _ _ _ hserving =>
    right
    cases hserving with
    | @queued os hworker hrequests =>
      -- whatever is at the front of the queue, the worker can take it
      cases os with
      | nil => exact ⟨_, _, .worker (.takes hworker hrequests)⟩
      | cons o os => exact ⟨_, _, .worker (.takes hworker hrequests)⟩
    | answered _ _ hanswers => exact ⟨_, _, .prompt (.receives hprompt hanswers)⟩
    | working hworks =>
      generalize hworker : x.worker = w at hworks
      cases hworks with
      | searching => exact ⟨_, _, .worker (.evaluates hworker)⟩
      | found t _ =>
        have hticket : x.worker.ticket? = some t := by rw [hworker]; rfl
        exact ⟨_, _, .worker (.checks hticket)⟩
      | built t _ =>
        have hticket : x.worker.ticket? = some t := by rw [hworker]; rfl
        exact ⟨_, _, .worker (.checks hticket)⟩
      | answering _ => exact ⟨_, _, .worker (.answers hworker (by rw [hprompt]; rfl))⟩

/-- The prompt has come some way in its replies, and to their end when it leaves. -/
theorem InStep.replied (h : InStep c lines trace x) :
    x.replies <+: c.replies lines ∧ (x.prompt = .left → x.replies = c.replies lines) := by
  -- a reply is given to each line before the one that ends the input, in order
  have hpart : ∀ {before rest}, lines = before ++ rest → (∀ l ∈ before, trim l ≠ "/bye") →
      x.replies = c.replies before → x.replies <+: c.replies lines := by
    rintro before rest rfl hopen hreplies
    rw [hreplies, c.replies_append hopen]
    exact List.prefix_append _ _
  have hlast : ∀ {before line}, linesRead trace = before ++ [line] →
      lines = before ++ line :: x.lines := by
    intro before line hread
    rw [← h.input, hread, List.append_assoc]
    rfl
  have hstage := h.stage
  generalize x.prompt = p at hstage
  cases hstage with
  | reading _ hopen hreplied => exact ⟨hpart h.input.symm hopen hreplied.replies, nofun⟩
  | switching _ _ hopen hreplied => exact ⟨hpart h.input.symm hopen hreplied.replies, nofun⟩
  | asking hread _ hopen _ hreplied => exact ⟨hpart (hlast hread) hopen hreplied.replies, nofun⟩
  | sending hread _ hopen _ hreplied => exact ⟨hpart (hlast hread) hopen hreplied.replies, nofun⟩
  | awaiting hread _ hopen _ _ hreplies => exact ⟨hpart (hlast hread) hopen hreplies, nofun⟩
  | finishing _ hreplied => exact ⟨hreplied.replies ▸ List.prefix_rfl, nofun⟩
  | joining _ hreplied => exact ⟨hreplied.replies ▸ List.prefix_rfl, nofun⟩
  | left _ _ hreplied => exact ⟨hreplied.replies ▸ List.prefix_rfl, fun _ => hreplied.replies⟩

end Exchange

/-! ### The end -/

/-- How many steps the prompt can take before the next line, or cause. -/
def Prompt.stepsLeft : Prompt → Nat
  | .asking _ => 11
  | .sending _ => 10
  | .reading | .awaiting => 3
  | .finishing => 2
  | .joining => 1
  | .left | .failed => 0

/-- How many steps the work still takes, until the answer is received. -/
def Worker.stepsLeft : Worker → Nat
  | .searching _ _ => 6
  | .found _ _ _ => 5
  | .built _ _ _ => 4
  | .answering _ => 3
  | .waiting => 1
  | .exited => 0

theorem Worker.stepsLeft_advance_searching (s : Session) (query : String) (ticket : Ticket) :
    ((searching query ticket).advance s).stepsLeft < (searching query ticket).stepsLeft := by
  cases h : evaluate s.grid (tokenize (trim query)) s.options s.selection <;>
    simp [advance, h, stepsLeft]

theorem Worker.stepsLeft_advance_of_ticket (s : Session) {w : Worker} {ticket : Ticket}
    (h : w.ticket? = some ticket) : (w.advance s).stepsLeft < w.stepsLeft := by
  cases w with
  | found indexes operands ticket => by_cases hs : ticket.isStale s.generation <;>
      simp [advance, hs, stepsLeft]
  | built rows operands ticket => simp [advance, stepsLeft]
  | _ => cases h

namespace Exchange

variable {c : Session} {lines : List String} {trace : List Event} {x y : Exchange} {e : Event}

/-- How many steps there can still be. -/
def stepsLeft (x : Exchange) : Nat :=
  10 * x.lines.length + x.prompt.stepsLeft + 6 * x.requests.length + x.worker.stepsLeft +
    x.answers.length

theorem PromptStep.stepsLeft_lt (h : PromptStep x e y) : y.stepsLeft < x.stepsLeft := by
  unfold stepsLeft
  cases h with
  -- a line is worth ten steps, the most that any command can lead to
  | @reads line rest hprompt hlines =>
    rw [hprompt, hlines, List.length_cons]
    cases Command.ofLine line <;> simp [hear, switch, Prompt.stepsLeft] <;> omega
  | @sends r hprompt hworker =>
    rw [hprompt]
    cases r <;> simp [Prompt.stepsLeft, Request.awaited] <;> omega
  | receives hprompt hanswers =>
    rw [hprompt, hanswers]
    exact Nat.lt_succ_self _
  | ends hprompt hlines => simp [hprompt, Prompt.stepsLeft]
  | begins hprompt => simp [hprompt, Prompt.stepsLeft]
  | finishes hprompt hworker hfinish => simp [hprompt, Prompt.stepsLeft]
  | joins hprompt hworker => simp [hprompt, Prompt.stepsLeft]
  | failsToSend hprompt hworker => simp [hprompt, Prompt.stepsLeft]
  | failsToReceive hprompt hworker hanswers => simp [hprompt, Prompt.stepsLeft]
  | failsToFinish hprompt hworker => simp [hprompt, Prompt.stepsLeft]

theorem WorkerStep.stepsLeft_lt (h : WorkerStep x e y) : y.stepsLeft < x.stepsLeft := by
  unfold stepsLeft
  cases h with
  | @takes r rest hworker hrequests =>
    rw [hworker, hrequests, List.length_cons]
    cases r <;> simp [Worker.ofRequest, Worker.stepsLeft] <;> omega
  | @evaluates query ticket hworker =>
    have hlt := Worker.stepsLeft_advance_searching x.session query ticket
    rw [hworker]
    dsimp only
    omega
  | checks hworker =>
    have hlt := Worker.stepsLeft_advance_of_ticket x.session hworker
    dsimp only
    omega
  | answers hworker hprompt =>
    rw [hworker, List.length_append, List.length_singleton]
    simp only [Worker.stepsLeft]
    omega
  | exitsTold hworker hfinish => simp [hworker, Worker.stepsLeft]
  | exitsAlone hworker hprompt => simp [hworker, Worker.stepsLeft]
  | exitsUnheard hworker hprompt => simp [hworker, Worker.stepsLeft]

theorem Step.stepsLeft_lt (h : Step x e y) : y.stepsLeft < x.stepsLeft := by
  cases h with
  | prompt h => exact h.stepsLeft_lt
  | worker h => exact h.stepsLeft_lt

theorem Run.length_add_stepsLeft_le (h : Run x trace y) :
    trace.length + y.stepsLeft ≤ x.stepsLeft := by
  induction h with
  | nil => rw [List.length_nil, Nat.zero_add]
  | @snoc trace e y z hrun hstep ih =>
    have hlt := hstep.stepsLeft_lt
    rw [List.length_append, List.length_singleton]
    omega

/-- Every run can be continued until the prompt has left. -/
theorem exists_left (h : Run (start c lines) trace x) :
    ∃ later y, Run (start c lines) (trace ++ later) y ∧ y.prompt = .left := by
  -- the steps left bound the continuation, and there is always one to take
  induction hn : x.stepsLeft using Nat.strong_induction_on generalizing trace x with
  | _ n ih =>
    rcases (InStep.run h).progress with hleft | ⟨e, y, hstep⟩
    · exact ⟨[], x, by rwa [List.append_nil], hleft⟩
    · obtain ⟨later, z, hz, hleft⟩ := ih _ (hn ▸ hstep.stepsLeft_lt) (h.snoc hstep) rfl
      exact ⟨e :: later, z, by rwa [List.append_cons], hleft⟩

end Exchange

/-- **The prompt and the worker never get out of step.** In every run, whatever the order of the
steps: an answer that is received is the answer to the request of its number, and the very one that
the session gives as the lines before have set it up; a search is evaluated with the options and the
columns that these lines have set; the worker finds its tickets live, so that no reply says that a
search was superseded; the worker is there while an answer is awaited; at most one answer is under
way, and at most one request without its answer; the prompt never finds the worker gone. A run comes
to an end, and not before the prompt has given all replies and left. -/
theorem prompt_and_worker_in_step (s : Session) (o : Options) (keys lines : List String)
    {trace : List Exchange.Event} {x : Exchange}
    (h : Exchange.Run (.start (s.configured o keys) lines) trace x) :
    (∀ early a later, trace = early ++ .receives a :: later →
      ∃ before line r earlier, Exchange.linesRead early = before ++ [line] ∧
        Asks (s.configured o keys) before line r ∧ Exchange.asked early = earlier ++ [r] ∧
        earlier.length = (Exchange.received early).length ∧
        (s.configured (o.after before) (columnsAfter keys before)).answerFor? r = some a) ∧
    (∀ early query o' selection later,
      trace = early ++ .evaluates query o' selection :: later →
      ∃ before line, Exchange.linesRead early = before ++ [line] ∧ IsQuery line ∧
        query = trim line ∧ o' = o.after before ∧
        selection = .ofKeys (columnsAfter keys before) s.table.columns) ∧
    (∀ ticket stale, .checks ticket stale ∈ trace → stale = false) ∧
    (∀ reply ∈ x.replies, reply.printed ≠ "(superseded)\n") ∧
    (x.prompt = .awaiting → x.worker ≠ .exited) ∧
    (x.worker.held ++ x.answers).length ≤ 1 ∧
    (Exchange.asked trace).length ≤ (Exchange.received trace).length + 1 ∧
    x.prompt ≠ .failed ∧
    trace.length ≤ 10 * lines.length + 4 ∧
    (x.prompt = .left ∨ ∃ e y, Exchange.Step x e y) ∧
    x.replies <+: (s.configured o keys).replies lines ∧
    (x.prompt = .left → x.replies = (s.configured o keys).replies lines) := by
  have hx := Exchange.InStep.run h
  obtain ⟨hflight, hasked⟩ := hx.in_flight
  obtain ⟨hpart, hleft⟩ := hx.replied
  refine ⟨?_, ?_, ?_, ?_, ?_, hflight, hasked, ?_, ?_, hx.progress, hpart, hleft⟩
  -- an answer is received at a moment of the run, and the stage there tells whose answer it is
  · rintro early a later rfl
    obtain ⟨y, y', hy, hstep⟩ := h.split
    rcases hstep with hstep | ⟨⟨⟩⟩
    cases hstep with
    | receives hprompt hanswers =>
      obtain ⟨before, line, r, earlier, hlast, hasks, ha, hsent, heven, -⟩ :=
        (Exchange.InStep.run hy).receives hprompt hanswers
      obtain ⟨g, hg⟩ := s.afterLines_configured o keys before
      rw [hg, Session.answerFor?_inGeneration] at ha
      exact ⟨before, line, r, earlier, hlast, hasks, hsent, heven, ha⟩
  -- the worker evaluates in the session after the lines read so far
  · rintro early query o' selection later rfl
    obtain ⟨y, y', hy, hstep⟩ := h.split
    obtain ⟨before, line, hlast, hquery, hq, ho, hselection⟩ :=
      (Exchange.InStep.run hy).of_evaluates hstep
    obtain ⟨g, hg⟩ := s.afterLines_configured o keys before
    rw [hg] at ho hselection
    exact ⟨before, line, hlast, hquery, hq, ho, hselection⟩
  · intro ticket stale hmem
    obtain ⟨early, later, rfl⟩ := List.append_of_mem hmem
    obtain ⟨y, y', hy, hstep⟩ := h.split
    exact (Exchange.InStep.run hy).of_checks hstep
  · intro reply hreply
    exact Session.printed_ne_of_mem_replies reply (hpart.subset hreply)
  · intro hprompt hexited
    rcases hx.of_exited hexited with hend | hend <;> cases hprompt.symm.trans hend
  -- no stage goes with a prompt that has failed
  · intro hfailed
    have hstage := hx.stage
    rw [hfailed] at hstage
    cases hstage
  · have hle := h.length_add_stepsLeft_le
    have hstart : (Exchange.start (s.configured o keys) lines).stepsLeft = 10 * lines.length + 4 :=
      rfl
    omega

/-- With the case switched over, nothing is found. -/
theorem prompt_and_worker_in_step_switched :
    let s := Session.ofTable (.ofRows [.single "A", .single "B"] [["x", "y"], ["X", "z"]])
    let lines := ["/case", "Y"]
    ∃ trace x, Exchange.Run (.start (s.configured {} []) lines) trace x ∧ x.prompt = .left ∧
      x.replies.map Reply.printed = ["Case sensitive: true\n",
        "A | B\n0 row(s)\n"] := by
  intro s lines
  obtain ⟨trace, x, hrun, hleft⟩ := Exchange.exists_left (c := s.configured {} []) .nil
  have hreplies : x.replies = (s.configured {} []).replies lines := by
    obtain ⟨-, -, -, -, -, -, -, -, -, -, -, hreplies⟩ :=
      prompt_and_worker_in_step s {} [] lines hrun
    exact hreplies hleft
  refine ⟨_, x, hrun, hleft, ?_⟩
  rw [hreplies]
  decide +kernel

end CellQuery
