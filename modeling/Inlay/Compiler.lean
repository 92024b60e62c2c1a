/-
The compiler.

A compile reads its input into a tree, runs the transforms over it, and
generates what the output asks for: code, a source map, a document of the
tree. Files are written last, the source map before the output.

Artifacts are kept as they are made, so a compile that fails still has
those it made before.
-/
import Inlay.FileSystem.Basic
import Inlay.Inclusion

namespace Inlay

-- == options

/-- What a compile starts from. -/
inductive Input where
  /-- The text of a script. -/
  | code (text : String)
  /-- The file of a script. -/
  | file (path : String)
  | tree (t : Tree)
  /-- The file of a tree's document. -/
  | treeFile (path : String)

/-- What a compile makes. -/
inductive Output where
  | code
  | tree
  | codeFile (path : String)
  /-- A file with the tree's document. -/
  | treeFile (path : String)
  deriving DecidableEq, Repr

/-- Whether the output has code in it. -/
def Output.wantsCode : Output → Bool
  | code | codeFile _ => true
  | tree | treeFile _ => false

/-- The file that the output goes to. -/
def Output.path? : Output → Option String
  | codeFile path | treeFile path => some path
  | code | tree => none

/-- How input or output is represented. -/
inductive Format where
  | code
  | ast
  deriving DecidableEq, Repr

namespace Format

def name : Format → String
  | code => "code"
  | ast => "ast"

/-- The format of a name. `role` says what the format is for. -/
def ofName (role name : String) : Except Error Format :=
  if name = "code" then .ok code
  else if name = "ast" then .ok ast
  else .error (.unknownFormat role name)

/-- The input from a file. -/
def input (f : Format) (path : String) : Input :=
  match f with
  | code => .file path
  | ast => .treeFile path

/-- The output, to a file if there is one. -/
def output (f : Format) (path : Option String) : Output :=
  match f, path with
  | code, some path => .codeFile path
  | ast, some path => .treeFile path
  | code, none => .code
  | ast, none => .tree

end Format

/-- Which source map is asked for. -/
inductive MapRequest where
  | unnamed
  /-- A map that the code refers to; it is written to a file of that name
  if the output goes to a file. -/
  | named (url : String)
  deriving DecidableEq, Repr

def MapRequest.url? : MapRequest → Option String
  | unnamed => none
  | named url => some url

structure Options where
  /-- The file that the nodes of the input are said to come from, if it
  is not the input file. -/
  sourcePath : Option String
  output : Output
  sourceMap : Option MapRequest
  indented : Bool
  transforms : List String
  marker : String
  /-- The tech for files whose suffixes have none. -/
  defaultTech : Option String

def Options.default : Options where
  sourcePath := none
  output := .code
  sourceMap := none
  indented := false
  transforms := ["include"]
  marker := Directive.defaultMarker
  defaultTech := some "txt"

-- == compiles

/-- A step between reading and generating. -/
inductive Transform where
  | inclusion
  deriving DecidableEq, Repr

/-- The techs and transforms that a compile can use. -/
structure Compiler where
  techs : Registry
  transforms : List (String × Transform)

def Compiler.builtin : Compiler := ⟨Registry.builtin, [("include", .inclusion)]⟩

/-- What a compile has made so far. -/
structure Artifacts where
  source : Option String
  tree : Option Tree
  code : Option String
  map : Option String

def Artifacts.none : Artifacts := ⟨.none, .none, .none, .none⟩

/-- A compile under way: the files, and what it has made so far. -/
structure Job (σ : Type) where
  files : σ
  artifacts : Artifacts

/-- A part of a compile. A failure keeps the job as it is then. -/
abbrev Compile (σ : Type) := ExceptT Error (StateM (Job σ))

namespace Compile

variable {σ : Type} [FileSystem σ]

/-- A computation that may fail, as part of a compile. -/
def attempt {α : Type} (result : Except Error α) : Compile σ α :=
  match result with
  | .ok a => pure a
  | .error e => throw e

/-- Changes what was made so far. -/
def record (f : Artifacts → Artifacts) : Compile σ Unit :=
  modify fun job => { job with artifacts := f job.artifacts }

def readFile (path : String) : Compile σ String := do
  attempt (FileSystem.read (← get).files path)

def writeFile (path data : String) : Compile σ Unit := do
  let files ← attempt (FileSystem.write (← get).files path data)
  modify fun job => { job with files }

/-- The transforms of a list of names. -/
def chain (c : Compiler) (names : List String) : Except Error (List Transform) :=
  names.mapM fun name =>
    match c.transforms.lookup name with
    | some t => .ok t
    | none => .error (.unknownTransform name)

/-- The tree of the input, and the context its directives stand in. -/
def load (script : Tech) (input : Input) (o : Options) : Compile σ (Tree × Context) :=
  match input with
  | .code text => do
      record fun a => { a with source := some text }
      let tree ← attempt (script.parse text o.sourcePath)
      return (tree, Context.start o.sourcePath none)
  | .file path => do
      let text ← readFile path
      let real := FileSystem.realpath? (← get).files path
      let source := o.sourcePath.getD path
      record fun a => { a with source := some text }
      let tree ← attempt (script.parse text (some source))
      return (tree, Context.start (some source) real)
  | .tree t => return (t, Context.start o.sourcePath none)
  | .treeFile path => do
      let text ← readFile path
      let tree ← attempt ((Tree.ofDocument text).mapError .document)
      return (tree, Context.start o.sourcePath none)

/-- How deep files can be nested that do not include themselves: each
name can be read in each tech. -/
def depthBound (files : σ) : Nat := 3 * FileSystem.nameCount files

/-- The tree behind a transform. -/
def transform (c : Compiler) (o : Options) (context : Context) (tree : Tree) :
    Transform → Compile σ Tree
  | .inclusion => do
      let files := (← get).files
      let lib : Library :=
        { techs := c.techs, defaultTech := o.defaultTech, marker := o.marker
          workingDirectory := FileSystem.workingDirectory files
          read := FileSystem.read files }
      attempt (resolve lib (depthBound files) context tree)

/-- The code and the source map that the options ask for. -/
def generate (script : Tech) (o : Options) (tree : Tree) :
    Except Error (Option String × Option String) :=
  let refer := Script.withMapUrl (o.sourceMap.bind MapRequest.url?)
  match o.sourceMap, o.output.wantsCode with
  | some _, true => do
      let generated ← script.generate o.indented tree
      return (some (refer generated.code), some generated.map.text)
  | some _, false => do
      let map ← script.generateMap o.indented tree
      return (none, some map.text)
  | none, true => do
      let code ← script.generateCode o.indented tree
      return (some (refer code), none)
  | none, false => return (none, none)

/-- Keeps the code and the map, and writes what goes to files. -/
def deliver (o : Options) (tree : Tree) (code map : Option String) : Compile σ Unit := do
  match map, o.output.path?, o.sourceMap with
  | some map, some _, some (.named path) => writeFile path map
  | _, _, _ => pure ()
  record fun a => { a with map, code }
  match o.output with
  | .codeFile path => writeFile path (code.getD "")
  | .treeFile path => writeFile path (tree.document o.indented)
  | .code | .tree => pure ()

end Compile

/-- Compiles an input. -/
def Compiler.compile {σ : Type} [FileSystem σ] (c : Compiler) (input : Input) (o : Options) :
    Compile σ Unit := do
  let script ← Compile.attempt
    (match c.techs.get? "js" with
     | some tech => .ok tech
     | none => .error (.missingTech "js"))
  let transforms ← Compile.attempt (Compile.chain c o.transforms)
  let (tree, context) ← Compile.load script input o
  let tree ← transforms.foldlM (Compile.transform c o context) tree
  Compile.record fun a => { a with tree := some tree }
  let (code, map) ← Compile.attempt (Compile.generate script o tree)
  Compile.deliver o tree code map

/-- The outcome of a compile: what failed, if something did, and the job
as it was left. -/
def Compiler.run {σ : Type} [FileSystem σ] (c : Compiler) (input : Input) (o : Options)
    (files : σ) : Option Error × Job σ :=
  let (result, job) := (c.compile input o).run.run ⟨files, Artifacts.none⟩
  match result with
  | .ok () => (none, job)
  | .error e => (some e, job)

end Inlay
