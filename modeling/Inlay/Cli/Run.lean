/-
Runs of the command.

A run compiles a file and reports what it did, or, with `--check`, says
whether the output file is what a compile would write and shows the
difference if it is not. The exit code is 0 for success, 1 for an output
that is out of date and 2 for an error.
-/
import Inlay.Cli.Arguments
import Inlay.Config
import Inlay.Text.Diff

namespace Inlay.Cli

/-- What a run leaves behind. -/
structure Outcome (σ : Type) where
  exitCode : Nat
  standardOutput : String
  standardError : String
  files : σ
  error : Option Error

-- == style

/-- Text with a style, where colour is wanted. -/
def styled (start stop : String) (colored : Bool) (text : String) : String :=
  if colored then "\x1b[" ++ start ++ "m" ++ text ++ "\x1b[" ++ stop ++ "m" else text

def red : Bool → String → String := styled "31" "39"

def green : Bool → String → String := styled "32" "39"

def bold : Bool → String → String := styled "1" "0"

-- == differences

/-- A line that ends with a line terminator. -/
def terminated (line : List Char) : String :=
  match line.getLast? with
  | some c => if c = '\n' ∨ c = '\r' then String.ofList line else String.ofList (line ++ ['\n'])
  | none => "\n"

/-- A line of a difference. -/
def changeText (colored : Bool) : Text.Diff.Tag × List Char → String
  | (.removed, line) => "  " ++ red colored ("-" ++ terminated line)
  | (.inserted, line) => "  " ++ green colored ("+" ++ terminated line)
  | (.same, line) => "   " ++ terminated line

/-- The difference between two texts. -/
def diffText (colored : Bool) (old new : String) : String :=
  String.join ((Text.Diff.changes old.toList new.toList).map (changeText colored)) ++ "\n"

-- == runs

variable {σ : Type} [FileSystem σ]

/-- A name without its last suffix. -/
def stem (name : List Char) : List Char :=
  match (name.reverse.dropWhile (· != '.')).tail.reverse with
  | [] => name
  | stem => stem

/-- Where the output goes if the command line does not say it. -/
def defaultOutput (input : String) (f : Format) : String :=
  let suffix :=
    match f with
    | .code => ".output.js"
    | .ast => ".output.json"
  match Pathname.base? input with
  | some name => String.ofList (stem name.toList) ++ suffix
  | none => "input" ++ suffix

/-- The configuration that the command line names, or the first one that
is there. -/
def loadConfig (args : Arguments) (files : σ) : Except Error (Option Config) :=
  let found := args.config.or (Config.candidates.find? (FileSystem.isFile files))
  match found with
  | some path => do
      let text ← FileSystem.read files path
      let config ← Config.parse text
      return some config
  | none => return none

/-- The compiler and the options of a run, but for the output. -/
def configure (args : Arguments) (files : σ) : Except Error (Compiler × Options) := do
  let config ← loadConfig args files
  let (techs, options) ←
    match config with
    | none => pure (Registry.builtin, Options.default)
    | some c =>
        match c.register Registry.builtin with
        | (techs, none) => pure (techs, c.apply Options.default)
        | (_, some e) => throw e
  return ({ Compiler.builtin with techs },
    { options with
      marker := args.marker.getD options.marker
      transforms := args.transforms.getD options.transforms
      indented := options.indented || args.prettyPrint
      sourceMap := args.sourceMap.map .named })

/-- What a compile would write to the output file. -/
def expected (format : Format) (o : Options) (a : Artifacts) : String :=
  match format with
  | .code => a.code.getD ""
  | .ast => (a.tree.map (·.document o.indented)).getD ""

/-- Compares the output file with what a compile would write. A file that
cannot be read counts as empty. -/
def checkOutput (colored : Bool) (path new : String) (files : σ) : Outcome σ :=
  let old := ((FileSystem.read files path).toOption).getD ""
  if old = new then
    ⟨0, green colored "up to date:" ++ " " ++ path ++ "\n", "", files, none⟩
  else
    ⟨1, "", red colored "stale:" ++ " " ++ path ++ "\n" ++ diffText colored old new,
      files, none⟩

/-- How an error is reported. -/
def report (colored : Bool) (e : Error) : String :=
  red colored e.code ++ "\n" ++ e.message ++ "\n"

def failed (colored : Bool) (e : Error) (files : σ) : Outcome σ :=
  ⟨2, "", report colored e, files, some e⟩

/-- A compile whose output is compared with the output file. -/
def runCheck (colored : Bool) (args : Arguments) (input output : Format) (path : String)
    (c : Compiler) (o : Options) (files : σ) : Outcome σ :=
  let o := { o with output := output.output none }
  match c.run (input.input args.input) o files with
  | (some e, job) => failed colored e job.files
  | (none, job) => checkOutput colored path (expected output o job.artifacts) job.files

/-- A compile that writes the output file. -/
def runWrite (colored : Bool) (args : Arguments) (input output : Format) (path : String)
    (c : Compiler) (o : Options) (files : σ) : Outcome σ :=
  let o := { o with output := output.output (some path) }
  match c.run (input.input args.input) o files with
  | (some e, job) => failed colored e job.files
  | (none, job) =>
      ⟨0, green colored "compiled" ++ " " ++ args.input ++ " → " ++ bold colored path ++ "\n",
        "", job.files, none⟩

/-- A run with the given arguments. -/
def run (colored : Bool) (args : Arguments) (files : σ) : Outcome σ :=
  let colored := colored && !args.noColor
  let prepared := do
    let input ← Format.ofName "input" args.inputFormat
    let output ← Format.ofName "output" args.outputFormat
    let (compiler, options) ← configure args files
    return (input, output, compiler, options)
  match prepared with
  | .error e => failed colored e files
  | .ok (input, output, compiler, options) =>
      let path := args.output.getD (defaultOutput args.input output)
      if args.check then runCheck colored args input output path compiler options files
      else runWrite colored args input output path compiler options files

/-- How the command is used. -/
def usage : String := "Usage: weld [OPTIONS] <INPUT>\n"

/-- A run with the given command line. -/
def command (colored : Bool) (args : List String) (files : σ) : Outcome σ :=
  match request args with
  | .run d => run colored d.arguments files
  | .help => ⟨0, usage, "", files, none⟩
  | .version => ⟨0, "weld_cli 0.1.0\n", "", files, none⟩
  | .misuse => ⟨2, "", usage, files, none⟩

end Inlay.Cli
