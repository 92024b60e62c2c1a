/-
The command line.

A long option takes its value behind `=` or as the next argument, a short
one directly, behind `=`, or as the next argument; short options without
values can be joined. Behind `--` nothing is an option. Every option but
`--transforms` may be given once only.
-/

namespace Inlay.Cli

/-- The options without a value. -/
inductive Flag where
  | prettyPrint
  | check
  | verbose
  | noColor
  | help
  | version
  deriving DecidableEq, Repr

/-- The options with a value. -/
inductive Setting where
  | output
  | inputFormat
  | outputFormat
  | sourceMap
  | transforms
  | marker
  | config
  deriving DecidableEq, Repr

/-- Whether the value is a pathname, which is never empty. -/
def Setting.isPathname : Setting → Bool
  | output | sourceMap | config => true
  | inputFormat | outputFormat | transforms | marker => false

inductive Switch where
  | flag (f : Flag)
  | setting (s : Setting)
  deriving DecidableEq, Repr

/-- The long names of the options. -/
def longNames : List (String × Switch) :=
  [ ("output", .setting .output),
    ("input-format", .setting .inputFormat),
    ("output-format", .setting .outputFormat),
    ("source-map", .setting .sourceMap),
    ("transforms", .setting .transforms),
    ("marker", .setting .marker),
    ("config", .setting .config),
    ("pretty-print", .flag .prettyPrint),
    ("check", .flag .check),
    ("verbose", .flag .verbose),
    ("no-color", .flag .noColor),
    ("help", .flag .help),
    ("version", .flag .version) ]

/-- The short names of the options. -/
def shortNames : List (Char × Switch) :=
  [ ('o', .setting .output),
    ('v', .flag .verbose),
    ('h', .flag .help),
    ('V', .flag .version) ]

/-- What was given so far. -/
structure Draft where
  input : Option String
  flags : List Flag
  /-- The values in the order they were given. -/
  values : List (Setting × String)

def Draft.empty : Draft := ⟨none, [], []⟩

/-- What the user asks for. -/
inductive Request where
  | run (d : Draft)
  | help
  | version
  /-- The command line makes no sense. -/
  | misuse

/-- A step of reading: on with a draft, or the end. -/
abbrev Reading := Except Request Draft

namespace Draft

def setInput (d : Draft) (path : String) : Reading :=
  if path.isEmpty ∨ d.input.isSome then .error .misuse
  else .ok { d with input := some path }

def setFlag (d : Draft) (f : Flag) : Reading :=
  match f with
  | .help => .error .help
  | .version => .error .version
  | f => if d.flags.contains f then .error .misuse else .ok { d with flags := f :: d.flags }

def setValue (d : Draft) (s : Setting) (value : String) : Reading :=
  if s.isPathname && value.isEmpty then .error .misuse
  else if s != .transforms && d.values.any (·.1 == s) then .error .misuse
  else .ok { d with values := d.values ++ [(s, value)] }

end Draft

/-- Whether an argument can be the value of the option before it. -/
def isValue (arg : List Char) : Bool := arg.head? != some '-' || arg == ['-']

/-- What a short cluster does: the draft behind it, and the option that
still needs a value. -/
def shortCluster (d : Draft) : List Char → Except Request (Draft × Option Setting)
  | [] => .ok (d, none)
  | c :: rest =>
      match shortNames.lookup c with
      | none => .error .misuse
      | some (.flag f) => do
          let d ← d.setFlag f
          shortCluster d rest
      | some (.setting s) =>
          match rest with
          | [] => .ok (d, some s)
          | '=' :: value => (d.setValue s (String.ofList value)).map (·, none)
          | value => (d.setValue s (String.ofList value)).map (·, none)

/-- What a long option does: the draft behind it, and the option that
still needs a value. -/
def longOption (d : Draft) (text : List Char) : Except Request (Draft × Option Setting) :=
  let name := String.ofList (text.takeWhile (· != '='))
  match longNames.lookup name, text.dropWhile (· != '=') with
  | some (.flag f), [] => (d.setFlag f).map (·, none)
  | some (.setting s), [] => .ok (d, some s)
  | some (.setting s), _ :: value => (d.setValue s (String.ofList value)).map (·, none)
  | _, _ => .error .misuse

/-- Reads arguments. `pending` is the option that waits for its value. -/
def readArguments (d : Draft) (pending : Option Setting) : List String → Reading
  | [] => if pending.isSome then .error .misuse else .ok d
  | arg :: rest =>
      let cs := arg.toList
      match pending with
      | some s =>
          if isValue cs then do
            let d ← d.setValue s arg
            readArguments d none rest
          else .error .misuse
      | none =>
          match cs with
          | ['-', '-'] => rest.foldlM Draft.setInput d
          | '-' :: '-' :: text => do
              let (d, pending) ← longOption d text
              readArguments d pending rest
          | '-' :: c :: more => do
              let (d, pending) ← shortCluster d (c :: more)
              readArguments d pending rest
          | _ => do
              let d ← d.setInput arg
              readArguments d none rest

/-- What the arguments ask for. -/
def request (args : List String) : Request :=
  match readArguments Draft.empty none args with
  | .error r => r
  | .ok d => if d.input.isSome then .run d else .misuse

-- == arguments

/-- The command line of a run. -/
structure Arguments where
  input : String
  output : Option String
  inputFormat : String
  outputFormat : String
  sourceMap : Option String
  transforms : Option (List String)
  marker : Option String
  config : Option String
  prettyPrint : Bool
  check : Bool
  noColor : Bool

/-- The parts of a text between commas. -/
def commaParts (cs : List Char) : List (List Char) :=
  match cs with
  | [] => [[]]
  | ',' :: rest => [] :: commaParts rest
  | c :: rest =>
      match commaParts rest with
      | [] => [[c]]
      | part :: more => (c :: part) :: more

def Draft.arguments (d : Draft) : Arguments :=
  let value (s : Setting) : Option String := d.values.lookup s
  let transforms := (d.values.filter (·.1 == .transforms)).map (·.2)
  { input := d.input.getD ""
    output := value .output
    inputFormat := (value .inputFormat).getD "code"
    outputFormat := (value .outputFormat).getD "code"
    sourceMap := value .sourceMap
    transforms :=
      if transforms.isEmpty then none
      else some (transforms.flatMap fun t => (commaParts t.toList).map String.ofList)
    marker := value .marker
    config := value .config
    prettyPrint := d.flags.contains .prettyPrint
    check := d.flags.contains .check
    noColor := d.flags.contains .noColor }

end Inlay.Cli
