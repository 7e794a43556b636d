import CellQuery.Prompt.Start

/-!
# Transcripts

What a run of the program prints about tables and queries, for given files, arguments and input.
With a query the program answers it and ends. Otherwise it answers line after line until it is told
to leave or the input ends. The texts about the command line itself, which a run prints that asks
for help or is called wrongly, are left out.
-/

namespace CellQuery

/-- What a run leaves behind. -/
structure Transcript where
  exitCode : Nat
  printed : String
  complaints : List String
  deriving DecidableEq, Repr

/-- What the program shows when it waits for a line. -/
def promptSign : String :=
  "> "

/-- The lines of a text. The last one need not be ended. -/
def linesOf : List Char → List (List Char)
  | [] => []
  | '\n' :: rest => [] :: linesOf rest
  | c :: rest =>
    match linesOf rest with
    | [] => [[c]]
    | line :: lines => (c :: line) :: lines

namespace Session

/-- The replies to the lines before the one that says to leave. -/
def replies (s : Session) : List String → List Reply
  | [] => []
  | line :: rest =>
    match Command.ofLine line with
    | .leave => []
    | command => (s.perform command).1 :: (s.perform command).2.replies rest

/-- The sign comes before every reply, and once more before the program leaves. -/
def answerAll (s : Session) (input : String) : Transcript :=
  let replies := s.replies ((linesOf input.toList).map .ofList)
  { exitCode := 0
    printed := s.greeting ++ String.join (replies.map (promptSign ++ ·.printed)) ++ promptSign
    complaints := replies.filterMap Reply.complaint }

/-- Answers a single query. -/
def answerOnce (s : Session) (query : String) : Transcript :=
  match (s.search query).1 with
  | .ok outcome => ⟨0, outcome.report s.headers s.style, []⟩
  | .error e => ⟨1, "", ["Error: " ++ e.message]⟩

end Session

namespace Transcript

/-- A run with given arguments on the files that `readText` finds. -/
def ofArguments (readText : String → Option String) (a : Arguments) (input : String) :
    Transcript :=
  match Id.run (startSession (pure ∘ readText) a) with
  | .error e => ⟨1, "", ["Error: " ++ e.message]⟩
  | .ok s =>
    match a.query with
    | some query => s.answerOnce query
    | none => s.answerAll input

/-- A run with a command line. Of a call for help or a wrong one only the exit code is kept, not the
text that explains the command line. -/
def ofRun (readText : String → Option String) (args : List String) (input : String) :
    Transcript :=
  match Arguments.parse args with
  | .error .help => ⟨0, "", []⟩
  | .error .invalid => ⟨2, "", []⟩
  | .ok a => ofArguments readText a input

end Transcript

end CellQuery
