import CellQuery.Search.Options

/-!
# Command line arguments

The arguments are read from left to right. What begins with a hyphen and is more than a hyphen is an
option, and never the value of another one, unless `--` stands before it. Each option but
`--column` may be given once.
-/

namespace CellQuery

/-- Why a command line does not start the program. -/
inductive Usage where
  /-- It asks for help. -/
  | help
  /-- It is not a command line of this program. -/
  | invalid
  deriving DecidableEq, Repr

/-- What a command line asks for. -/
structure Arguments where
  path : String
  compare : Option String
  options : Options
  columns : List String
  query : Option String
  ansi : Bool
  deriving DecidableEq, Repr

namespace Arguments

/-! ### Words -/

/-- An option without a value. -/
inductive Switch where
  | caseSensitive
  | exact
  | ansi
  deriving DecidableEq, Repr

/-- An option that takes a value. -/
inductive Setting where
  | compare
  | column
  | query
  deriving DecidableEq, Repr

/-- The switch with a name. -/
def Switch.ofName? : List Char → Option Switch
  | cs =>
    if cs = "case-sensitive".toList then some caseSensitive
    else if cs = "exact".toList then some exact
    else if cs = "ansi".toList then some ansi
    else none

/-- The setting with a name. -/
def Setting.ofName? : List Char → Option Setting
  | cs =>
    if cs = "compare".toList then some compare
    else if cs = "column".toList then some column
    else if cs = "query".toList then some query
    else none

/-- One argument by itself. -/
inductive Word where
  | separator
  | help
  | switch (s : Switch)
  | setting (s : Setting) (value : Option String)
  | plain (text : String)
  | unknown
  deriving DecidableEq, Repr

/-- What stands before the first `=`, and what stands after it if there is one. -/
def splitValue (cs : List Char) : List Char × Option String :=
  match cs.dropWhile (· ≠ '=') with
  | [] => (cs, none)
  | _ :: value => (cs.takeWhile (· ≠ '='), some (.ofList value))

/-- The option after two hyphens. A switch takes no value, a setting may have it behind a `=`. -/
def longOption (cs : List Char) : Word :=
  let (name, value) := splitValue cs
  match Switch.ofName? name, Setting.ofName? name, value with
  | some s, _, none => .switch s
  | none, some s, _ => .setting s value
  | _, _, none => if name = "help".toList then .help else .unknown
  | _, _, _ => .unknown

/-- What an argument is on its own. -/
def Word.ofText (arg : String) : Word :=
  match arg.toList with
  | ['-', '-'] => separator
  | '-' :: '-' :: cs => longOption cs
  | '-' :: 'h' :: _ => help
  | '-' :: _ :: _ => unknown
  | _ => plain arg

/-! ### Reading -/

/-- The arguments read so far. -/
structure Draft where
  path : Option String := none
  compare : Option String := none
  switches : List Switch := []
  columns : List String := []
  query : Option String := none
  deriving DecidableEq, Repr

namespace Draft

/-- Sets what may be set once. -/
def once (current : Option String) (value : String) : Except Usage (Option String) :=
  if current.isSome then .error .invalid else .ok (some value)

/-- A path has at least one character. -/
def path? (current : Option String) (value : String) : Except Usage (Option String) :=
  if value.isEmpty then .error .invalid else once current value

/-- Takes a plain argument in, which is the path. -/
def addPath (d : Draft) (value : String) : Except Usage Draft := do
  return { d with path := ← path? d.path value }

/-- Takes a switch in, which may be given once. -/
def addSwitch (d : Draft) (s : Switch) : Except Usage Draft :=
  if d.switches.contains s then .error .invalid else .ok { d with switches := s :: d.switches }

/-- Takes a setting with its value in. -/
def addSetting (d : Draft) (s : Setting) (value : String) : Except Usage Draft := do
  match s with
  | .compare => return { d with compare := ← path? d.compare value }
  | .column => return { d with columns := d.columns ++ [value] }
  | .query => return { d with query := ← once d.query value }

/-- The arguments, if there is a path among them. -/
def finish (d : Draft) : Except Usage Arguments :=
  match d.path with
  | none => .error .invalid
  | some path => .ok {
      path := path
      compare := d.compare
      options := ⟨d.switches.contains .caseSensitive, d.switches.contains .exact⟩
      columns := d.columns
      query := d.query
      ansi := d.switches.contains .ansi }

end Draft

/-- Reads on with the arguments that are left. Everything behind `--` is plain. -/
def parseFrom (d : Draft) : List String → Except Usage Arguments
  | [] => d.finish
  | arg :: rest =>
    match Word.ofText arg, rest with
    | .separator, rest => do (← rest.foldlM Draft.addPath d).finish
    | .help, _ => .error .help
    | .switch s, rest => do parseFrom (← d.addSwitch s) rest
    | .setting s (some value), rest => do parseFrom (← d.addSetting s value) rest
    | .setting s none, value :: rest =>
      match Word.ofText value with
      | .plain value => do parseFrom (← d.addSetting s value) rest
      | _ => .error .invalid
    | .setting _ none, [] => .error .invalid
    | .plain text, rest => do parseFrom (← d.addPath text) rest
    | .unknown, _ => .error .invalid

/-- The arguments of a command line. -/
def parse (args : List String) : Except Usage Arguments :=
  parseFrom {} args

end Arguments

end CellQuery
