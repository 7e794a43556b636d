import CellQuery.Session.Report

/-!
# Commands of the prompt

What a line means that is typed at the prompt, and what it does to the session.
-/

namespace CellQuery

/-! ### Lines -/

/-- What a line asks for. -/
inductive Command where
  | nothing
  | leave
  | toggleCase
  | toggleExact
  | columns (keys : List String)
  | search (query : String)
  deriving DecidableEq, Repr

/-- What is left of `cs` after `start`, if `cs` begins with it. -/
def afterStart? (start cs : List Char) : Option (List Char) :=
  if start.isPrefixOf cs then some (cs.drop start.length) else none

/-- Keys may follow the word `/columns` without a gap. -/
def Command.ofLine (line : String) : Command :=
  let line := Text.trim line
  if line.isEmpty then nothing
  else if line = "/bye" then leave
  else if line = "/case" then toggleCase
  else if line = "/exact" then toggleExact
  else
    match afterStart? "/columns".toList line.toList with
    | some rest => columns (Text.words (.ofList rest))
    | none => search line

/-! ### Replies -/

/-- What a command prints, and what goes wrong with it. -/
structure Reply where
  printed : String := ""
  complaint : Option String := none
  deriving DecidableEq, Repr

/-- A line that says how a switch stands. -/
def switchLine (name : String) (on : Bool) : String :=
  name ++ ": " ++ (if on then "true" else "false") ++ "\n"

namespace Session

/-- The reply to a command and the session after it. -/
def perform (s : Session) : Command → Reply × Session
  | .nothing => ({}, s)
  | .leave => ({}, s)
  | .toggleCase =>
    let o := { s.options with caseSensitive := !s.options.caseSensitive }
    ({ printed := switchLine "Case sensitive" o.caseSensitive }, s.setOptions o)
  | .toggleExact =>
    let o := { s.options with exactMatch := !s.options.exactMatch }
    ({ printed := switchLine "Exact match" o.exactMatch }, s.setOptions o)
  | .columns keys =>
    let s := s.select keys
    ({ printed := "Columns: " ++ s.selection.describe s.table.columns ++ "\n" }, s)
  | .search query =>
    match s.search query with
    | (.ok outcome, s) => ({ printed := outcome.report s.headers s.style }, s)
    | (.error e, s) => ({ complaint := some ("Failed to search: " ++ e.message) }, s)

/-- What the prompt says before the first line. -/
def greeting (s : Session) : String :=
  s!"{s.table.size} rows, columns: " ++ String.intercalate ", " s.table.keys ++ "\n" ++
    if s.referenceKeywords.isEmpty then ""
    else "Reference keywords: " ++ String.intercalate ", " s.referenceKeywords ++ "\n"

end Session

end CellQuery
