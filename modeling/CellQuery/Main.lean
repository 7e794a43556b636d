import CellQuery.Prompt.Transcript

/-!
# The program

Reads the command line and the files, then answers one query or prompts for queries line by line.
-/

namespace CellQuery

/-- The text that explains the command line. -/
def usage : String :=
  "Usage: cellquery [OPTIONS] <PATH>\n\n" ++
  "  --compare <PATH>   search this table against the keywords of the first one\n" ++
  "  --case-sensitive   tell upper and lower case apart\n" ++
  "  --exact            match whole cells only\n" ++
  "  --column <KEY>     look at this column only, may be repeated\n" ++
  "  --query <QUERY>    answer one query and exit\n" ++
  "  --ansi             mark matches for a terminal\n" ++
  "  -h, --help         print this text\n"

/-- The text of a file, if it can be read. -/
def readText (path : String) : IO (Option String) := do
  try
    return some (← IO.FS.readFile path)
  catch _ =>
    return none

/-- Shows a reply on the two outputs. -/
def printReply (reply : Reply) : IO Unit := do
  IO.print reply.printed
  match reply.complaint with
  | some text => IO.eprintln text
  | none => pure ()

/-- Answers lines until the input ends or one of them says to leave. -/
partial def answer (input : IO.FS.Stream) (s : Session) : IO Unit := do
  IO.print promptSign
  (← IO.getStdout).flush
  let line ← input.getLine
  unless line.isEmpty do
    match Command.ofLine line with
    | .leave => pure ()
    | command =>
      let (reply, s) := s.perform command
      printReply reply
      answer input s

end CellQuery

open CellQuery in
/-- The program. It exits with 1 if a file or the single query fails and with 2 on a wrong command
line. -/
def main (args : List String) : IO UInt32 := do
  match Arguments.parse args with
  | .error .help =>
    IO.print usage
    return 0
  | .error .invalid =>
    IO.eprint usage
    return 2
  | .ok a =>
    match ← startSession readText a with
    | .error e =>
      IO.eprintln ("Error: " ++ e.message)
      return 1
    | .ok s =>
      match a.query with
      | some query =>
        let t := s.answerOnce query
        IO.print t.printed
        t.complaints.forM IO.eprintln
        return t.exitCode.toUInt32
      | none =>
        IO.print s.greeting
        answer (← IO.getStdin) s
        return 0
