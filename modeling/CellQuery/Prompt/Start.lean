import CellQuery.Prompt.Arguments
import CellQuery.Prompt.Command
import CellQuery.Table.File

/-!
# Starting

From the command line to a session. Files are read through a function of the caller, in the order in
which they are named, and nothing is read after the first one that is no table.
-/

namespace CellQuery

/-- Why no session can be started: a file cannot be read, or it holds no table. -/
inductive StartError where
  | unreadable (path : String)
  | unparsable (path : String)
  deriving DecidableEq, Repr

/-- The text of a failure, which names the file. -/
def StartError.message : StartError → String
  | unreadable path => "Failed to read dataset " ++ path
  | unparsable path => "Failed to parse dataset " ++ path

section Load

variable {m : Type → Type} [Monad m]

/-- The table in the file at `path`. -/
def loadTable (readText : String → m (Option String)) (path : String) :
    m (Except StartError Table) := do
  match ← readText path with
  | none => return .error (.unreadable path)
  | some text =>
    match Table.parse text with
    | .ok t => return .ok t
    | .error _ => return .error (.unparsable path)

/-- A session over the table of the first file, compared with that of the second one if there is
one. -/
def loadSession (readText : String → m (Option String)) (path : String) (compare : Option String) :
    m (Except StartError Session) := do
  match ← loadTable readText path with
  | .error e => return .error e
  | .ok table =>
    match compare with
    | none => return .ok (.ofTable table)
    | some other => return (← loadTable readText other).map (Session.ofComparison table)

/-- The session that a command line asks for. -/
def startSession (readText : String → m (Option String)) (a : Arguments) :
    m (Except StartError Session) := do
  let loaded ← loadSession readText a.path a.compare
  return loaded.map fun s =>
    ((s.setOptions a.options).select a.columns).setStyle (if a.ansi then .terminal else .page)

end Load

end CellQuery
