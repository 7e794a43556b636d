import CellQuery.Prompt.Command

/-!
# The prompt and the worker

The prompt does not search by itself. It keeps the options and reads the lines; a worker has the
session. They exchange requests and answers over two queues, and a third one with a single place
tells the worker to finish. They share the generation of the session: the prompt begins one for each
query, and the worker looks twice whether its ticket has become stale.

An exchange is everything that the two have between them. Either of them may take its next step at
any time; while requests are left and the worker has been told to finish, it may turn to either.
-/

namespace CellQuery

/-- What the prompt asks of the worker. -/
inductive Request where
  | search (query : String) (ticket : Ticket)
  | options (o : Options)
  | columns (keys : List String)
  deriving DecidableEq, Repr

/-- Options are taken in without an answer. -/
def Request.awaited : Request → Bool
  | .options _ => false
  | .search _ _ | .columns _ => true

/-- What the worker answers. -/
inductive Answer where
  | outcome (result : Except QueryError Outcome)
  | columns (scope : String)
  deriving Repr

/-- What the prompt makes of an answer. -/
def Answer.reply (headers : List String) (style : Style) : Answer → Reply
  | .outcome (.ok o) => { printed := o.report headers style }
  | .outcome (.error e) => { complaint := some ("Failed to search: " ++ e.message) }
  | .columns scope => { printed := "Columns: " ++ scope ++ "\n" }

/-- What the prompt does next. -/
inductive Prompt where
  | reading
  /-- It begins a generation for a query. -/
  | asking (query : String)
  | sending (r : Request)
  | awaiting
  | finishing
  | joining
  | left
  /-- It has found the worker gone. -/
  | failed
  deriving DecidableEq, Repr

/-- The prompt has given up its ends of the queues. -/
def Prompt.gone : Prompt → Bool
  | .left | .failed => true
  | _ => false

/-- What the worker does next. -/
inductive Worker where
  | waiting
  | searching (query : String) (ticket : Ticket)
  /-- The rows are known, and the ticket is looked at for the first time. -/
  | found (indexes : List Nat) (operands : List String) (ticket : Ticket)
  /-- The results are made, and the ticket is looked at for the second time. -/
  | built (rows : List ResultRow) (operands : List String) (ticket : Ticket)
  | answering (a : Answer)
  | exited
  deriving Repr

namespace Worker

/-- The ticket that is looked at next. -/
def ticket? : Worker → Option Ticket
  | .found _ _ ticket | .built _ _ ticket => some ticket
  | _ => none

/-- The work on a request, in the session in which it has been taken in. -/
def ofRequest (s : Session) : Request → Worker
  | .search query ticket => .searching query ticket
  | .options _ => .waiting
  | .columns _ => .answering (.columns (s.selection.describe s.table.columns))

/-- The work on a query, one step further. -/
def advance (s : Session) : Worker → Worker
  | .searching query ticket =>
    let tokens := tokenize (Text.trim query)
    match evaluate s.grid tokens s.options s.selection with
    | .error e => .answering (.outcome (.error e))
    | .ok indexes => .found indexes (operands tokens) ticket
  | .found indexes operands ticket =>
    if ticket.isStale s.generation then .answering (.outcome (.ok ⟨none, operands⟩))
    else .built (indexes.filterMap (s.result? operands)) operands ticket
  | .built rows operands ticket =>
    .answering (.outcome (.ok ⟨ticket.guard s.generation rows, operands⟩))
  | w => w

end Worker

/-- The session of the worker after it has taken in a request. -/
def Session.serve (s : Session) : Request → Session
  | .search _ _ => s
  | .options o => s.setOptions o
  | .columns keys => s.select keys

/-- Everything that the prompt and the worker have between them. -/
structure Exchange where
  prompt : Prompt
  /-- The lines that are still to be read. -/
  lines : List String
  /-- The options as the prompt knows them. -/
  options : Options
  headers : List String
  style : Style
  /-- What the prompt has replied so far. -/
  replies : List Reply
  worker : Worker
  /-- The session of the worker, with the generation that both share. -/
  session : Session
  requests : List Request
  answers : List Answer
  /-- The worker has been told to finish and has not heard it yet. -/
  finish : Bool
  deriving Repr

namespace Exchange

/-- The exchange before its first step. -/
def start (s : Session) (lines : List String) : Exchange where
  prompt := .reading
  lines := lines
  options := s.options
  headers := s.headers
  style := s.style
  replies := []
  worker := .waiting
  session := s
  requests := []
  answers := []
  finish := false

/-- The prompt switches options over, says so and sends them. -/
def switch (x : Exchange) (name : String) (on : Bool) (o : Options) : Exchange :=
  { x with
    options := o
    replies := x.replies ++ [{ printed := switchLine name on }]
    prompt := .sending (.options o) }

/-- What the prompt does about a line. -/
def hear (x : Exchange) : Command → Exchange
  | .nothing => { x with replies := x.replies ++ [{}] }
  | .leave => { x with prompt := .finishing }
  | .toggleCase =>
    let o := { x.options with caseSensitive := !x.options.caseSensitive }
    x.switch "Case sensitive" o.caseSensitive o
  | .toggleExact =>
    let o := { x.options with exactMatch := !x.options.exactMatch }
    x.switch "Exact match" o.exactMatch o
  | .columns keys => { x with prompt := .sending (.columns keys) }
  | .search query => { x with prompt := .asking query }

/-! ### Steps -/

/-- What can be seen of a step. -/
inductive Event where
  | reads (line : String)
  | ends
  | begins (ticket : Ticket)
  | sends (r : Request)
  | receives (a : Answer)
  | finishes
  | joins
  | fails
  | takes (r : Request)
  | evaluates (query : String) (o : Options) (selection : Selection)
  | checks (ticket : Ticket) (stale : Bool)
  | answers (a : Answer)
  | exits
  deriving Repr

/-- The steps of the prompt. It waits for an answer as long as there is a worker to give one. -/
inductive PromptStep (x : Exchange) : Event → Exchange → Prop
  | reads {line : String} {rest : List String} (hprompt : x.prompt = .reading)
    (hlines : x.lines = line :: rest) :
    PromptStep x (.reads line) ({ x with lines := rest }.hear (.ofLine line))
  | ends (hprompt : x.prompt = .reading) (hlines : x.lines = []) :
    PromptStep x .ends { x with prompt := .finishing }
  | begins {query : String} (hprompt : x.prompt = .asking query) :
    PromptStep x (.begins x.session.bump.1)
      { x with session := x.session.bump.2, prompt := .sending (.search query x.session.bump.1) }
  | sends {r : Request} (hprompt : x.prompt = .sending r) (hworker : x.worker ≠ .exited) :
    PromptStep x (.sends r) { x with
      requests := x.requests ++ [r]
      prompt := if r.awaited then .awaiting else .reading }
  | receives {a : Answer} {rest : List Answer} (hprompt : x.prompt = .awaiting)
    (hanswers : x.answers = a :: rest) :
    PromptStep x (.receives a) { x with
      answers := rest
      replies := x.replies ++ [a.reply x.headers x.style]
      prompt := .reading }
  | finishes (hprompt : x.prompt = .finishing) (hworker : x.worker ≠ .exited)
    (hfinish : x.finish = false) :
    PromptStep x .finishes { x with finish := true, prompt := .joining }
  | joins (hprompt : x.prompt = .joining) (hworker : x.worker = .exited) :
    PromptStep x .joins { x with prompt := .left }
  | failsToSend {r : Request} (hprompt : x.prompt = .sending r) (hworker : x.worker = .exited) :
    PromptStep x .fails { x with prompt := .failed }
  | failsToReceive (hprompt : x.prompt = .awaiting) (hworker : x.worker = .exited)
    (hanswers : x.answers = []) : PromptStep x .fails { x with prompt := .failed }
  | failsToFinish (hprompt : x.prompt = .finishing) (hworker : x.worker = .exited) :
    PromptStep x .fails { x with prompt := .failed }

/-- The steps of the worker. It exits when it is told to finish, and when the prompt is gone. -/
inductive WorkerStep (x : Exchange) : Event → Exchange → Prop
  | takes {r : Request} {rest : List Request} (hworker : x.worker = .waiting)
    (hrequests : x.requests = r :: rest) :
    WorkerStep x (.takes r) { x with
      requests := rest
      session := x.session.serve r
      worker := .ofRequest (x.session.serve r) r }
  | evaluates {query : String} {ticket : Ticket} (hworker : x.worker = .searching query ticket) :
    WorkerStep x (.evaluates query x.session.options x.session.selection)
      { x with worker := x.worker.advance x.session }
  | checks {ticket : Ticket} (hworker : x.worker.ticket? = some ticket) :
    WorkerStep x (.checks ticket (ticket.isStale x.session.generation))
      { x with worker := x.worker.advance x.session }
  | answers {a : Answer} (hworker : x.worker = .answering a) (hprompt : x.prompt.gone = false) :
    WorkerStep x (.answers a) { x with answers := x.answers ++ [a], worker := .waiting }
  | exitsTold (hworker : x.worker = .waiting) (hfinish : x.finish = true) :
    WorkerStep x .exits { x with finish := false, worker := .exited }
  | exitsAlone (hworker : x.worker = .waiting) (hprompt : x.prompt.gone = true) :
    WorkerStep x .exits { x with worker := .exited }
  | exitsUnheard {a : Answer} (hworker : x.worker = .answering a) (hprompt : x.prompt.gone = true) :
    WorkerStep x .exits { x with worker := .exited }

/-- A step of either of the two. -/
inductive Step (x : Exchange) (e : Event) (y : Exchange) : Prop
  | prompt (h : PromptStep x e y)
  | worker (h : WorkerStep x e y)

/-- The exchanges to which steps lead, and what can be seen on the way. -/
inductive Run (x : Exchange) : List Event → Exchange → Prop
  | nil : Run x [] x
  | snoc {trace : List Event} {e : Event} {y z : Exchange} :
    Run x trace y → Step y e z → Run x (trace ++ [e]) z

end Exchange

end CellQuery
