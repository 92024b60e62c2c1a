/-
What `--check` says.

A run with `--check` makes what the run without it makes (`makes_output`). It
ends with exit code 0 if that is what the output file holds
(`exitCode_check_iff`), and the run without it puts it there, if it can
(`exists_of_exitCode_write`). So the two agree, but that an output file that
is not there passes for an empty one, and that the files cannot be written
is not noticed (`exitCode_check_eq_zero_iff`).
-/
import Inlay.Cli.Run
import Inlay.Proofs.Delivery

namespace Inlay.Cli

variable {σ : Type} [FileSystem σ] {args : Arguments} {files : σ} {path text : String}

-- == what a run makes

/-- The formats, the compiler and the options of a run. -/
def prepare (args : Arguments) (files : σ) :
    Except Error (Format × Format × Compiler × Options) := do
  let input ← Format.ofName "input" args.inputFormat
  let output ← Format.ofName "output" args.outputFormat
  let (compiler, options) ← configure args files
  return (input, output, compiler, options)

/-- What goes to the output file. -/
def outputText (format : Format) (o : Options) (tree : Tree) (code : Option String) : String :=
  match format with
  | .code => code.getD ""
  | .ast => tree.document o.indented

/-- Where a run puts its output. -/
def outputPath (args : Arguments) : Except Error String := do
  let output ← Format.ofName "output" args.outputFormat
  return args.output.getD (defaultOutput args.input output)

/-- Where a run puts its output, and the output. -/
def product (args : Arguments) (files : σ) : Except Error (String × String) := do
  let (input, output, c, o) ← prepare args files
  let (tree, code, _) ← c.makes (input.input args.input) { o with output := output.output none } files
  return (args.output.getD (defaultOutput args.input output), outputText output o tree code)

theorem outputPath_of_product (h : product args files = .ok (path, text)) :
    outputPath args = .ok path := by
  obtain ⟨⟨input, output, c, o⟩, hp, h⟩ := bind_ok_iff.1 h
  obtain ⟨made, -, h⟩ := bind_ok_iff.1 h
  cases h
  obtain ⟨input', -, h⟩ := bind_ok_iff.1 hp
  obtain ⟨output', ho, h⟩ := bind_ok_iff.1 h
  obtain ⟨configured, -, h⟩ := bind_ok_iff.1 h
  cases h
  exact bind_ok_iff.2 ⟨output, ho, rfl⟩

/-- What is made does not depend on where it goes. -/
theorem makes_output (c : Compiler) (input : Input) (o : Options) (f : Format) (path : String) :
    c.makes input { o with output := f.output (some path) } files =
      c.makes input { o with output := f.output none } files := by
  cases f <;> rfl

-- == the two runs

theorem run_eq (colored : Bool) (args : Arguments) (files : σ) :
    run colored args files = match prepare args files with
      | .error e => failed (colored && !args.noColor) e files
      | .ok (input, output, c, o) =>
          let path := args.output.getD (defaultOutput args.input output)
          if args.check then runCheck (colored && !args.noColor) args input output path c o files
          else runWrite (colored && !args.noColor) args input output path c o files := rfl

theorem exitCode_checkOutput (colored : Bool) (path text : String) (files : σ) :
    (checkOutput colored path text files).exitCode = 0 ↔
      ((FileSystem.read files path).toOption).getD "" = text := by
  unfold checkOutput
  dsimp only
  split
  · next heq => exact ⟨fun _ => heq, fun _ => rfl⟩
  · next hne => exact ⟨nofun, fun heq => absurd heq hne⟩

/-- The run with `--check` compares. -/
theorem exitCode_check_iff (colored : Bool) (args : Arguments) (files : σ) :
    (run colored { args with check := true } files).exitCode = 0 ↔
      ∃ path text, product args files = .ok (path, text) ∧
        ((FileSystem.read files path).toOption).getD "" = text := by
  rw [run_eq, show prepare { args with check := true } files = prepare args files from rfl, product]
  cases prepare args files with
  | error e => exact ⟨nofun, nofun⟩
  | ok prepared =>
    obtain ⟨input, output, c, o⟩ := prepared
    have hp : (output.output none).path? = none := by cases output <;> rfl
    have hr := c.run_of_no_file (input.input args.input)
      (o := { o with output := output.output none }) files hp
    simp only [if_true, runCheck, bind, Except.bind]
    cases hm : c.makes (input.input args.input) { o with output := output.output none } files with
    | error e =>
      rw [hm] at hr
      generalize c.run _ _ files = outcome at hr ⊢
      obtain ⟨result, job⟩ := outcome
      cases hr.1
      exact ⟨nofun, nofun⟩
    | ok made =>
      obtain ⟨tree, code, map⟩ := made
      rw [hm] at hr
      obtain ⟨source, hr⟩ := hr
      rw [hr]
      dsimp only
      rw [exitCode_checkOutput]
      have ht : expected output { o with output := output.output none }
          ⟨source, some tree, code, map⟩ = outputText output o tree code := by
        cases output <;> rfl
      rw [ht]
      constructor
      · intro h
        exact ⟨_, _, rfl, h⟩
      · rintro ⟨path, text, hpr, h⟩
        cases hpr
        exact h

/-- The run without it writes. -/
theorem exists_of_exitCode_write [LawfulFileSystem σ] {colored : Bool}
    (h : (run colored { args with check := false } files).exitCode = 0) :
    ∃ path text, product args files = .ok (path, text) ∧
      FileSystem.read (run colored { args with check := false } files).files path = .ok text := by
  rw [run_eq, show prepare { args with check := false } files = prepare args files from rfl] at h ⊢
  rw [product]
  cases hp : prepare args files with
  | error e =>
    rw [hp] at h
    cases h
  | ok prepared =>
    obtain ⟨input, output, c, o⟩ := prepared
    rw [hp] at h
    simp only [Bool.false_eq_true, if_false, runWrite, bind, Except.bind] at h ⊢
    generalize hpat : args.output.getD (defaultOutput args.input output) = path at h ⊢
    have he := c.run_ends (input.input args.input)
      { o with output := output.output (some path) } files
    generalize c.run _ _ files = outcome at h he ⊢
    obtain ⟨result, job⟩ := outcome
    cases he with
    | unmade | unmapped | undelivered => cases h
    | @done source tree code map files' files'' hm hma ho =>
      rw [makes_output] at hm
      rw [hm]
      refine ⟨path, outputText output o tree code, rfl, ?_⟩
      have hpa : Compile.outputParcel { o with output := output.output (some path) } tree code =
          some (path, outputText output o tree code) := by
        cases output <;> rfl
      rw [hpa] at ho
      exact LawfulFileSystem.read_write ho

/-- When a run with `--check` ends with exit code 0: the run without it
succeeds and leaves the output file as it is; or there is no output file
that can be read, and the output is empty; or the output file is as it
should be, and the run without it fails to write. -/
theorem exitCode_check_eq_zero_iff [LawfulFileSystem σ] (colored : Bool) (args : Arguments)
    (files : σ) :
    let checked := run colored { args with check := true } files
    let written := run colored { args with check := false } files
    checked.exitCode = 0 ↔
      (∃ path old, outputPath args = .ok path ∧ FileSystem.read files path = .ok old ∧
        written.exitCode = 0 ∧ FileSystem.read written.files path = .ok old) ∨
      (∃ path, product args files = .ok (path, "") ∧ (FileSystem.read files path).toBool = false) ∨
      (∃ path old, product args files = .ok (path, old) ∧ FileSystem.read files path = .ok old ∧
        written.exitCode ≠ 0) := by
  intro checked written
  rw [exitCode_check_iff]
  constructor
  · rintro ⟨path, text, hproduct, htext⟩
    cases hread : FileSystem.read files path with
    | error e =>
      rw [hread] at htext
      cases htext
      exact .inr (.inl ⟨path, hproduct, by rw [hread]; rfl⟩)
    | ok old =>
      rw [hread] at htext
      cases htext
      by_cases hwritten : written.exitCode = 0
      · obtain ⟨path', text', hproduct', hread'⟩ := exists_of_exitCode_write hwritten
        rw [hproduct] at hproduct'
        cases hproduct'
        exact .inl ⟨path, old, outputPath_of_product hproduct, hread, hwritten, hread'⟩
      · exact .inr (.inr ⟨path, old, hproduct, hread, hwritten⟩)
  · rintro (⟨path, old, hpath, hread, hwritten, hread'⟩ | ⟨path, hproduct, hread⟩ |
      ⟨path, old, hproduct, hread, -⟩)
    · obtain ⟨path', text, hproduct, htext⟩ := exists_of_exitCode_write hwritten
      rw [outputPath_of_product hproduct] at hpath
      cases hpath
      cases hread'.symm.trans htext
      exact ⟨path, old, hproduct, by rw [hread]; rfl⟩
    · refine ⟨path, "", hproduct, ?_⟩
      cases hfile : FileSystem.read files path with
      | error e => rfl
      | ok old =>
        rw [hfile] at hread
        cases hread
    · exact ⟨path, old, hproduct, by rw [hread]; rfl⟩

/-- The command line `m.js`. -/
def plainArguments : Arguments :=
  (Draft.mk (some "m.js") [] []).arguments

/-- An empty script, alone. -/
def unbuilt : Memory where
  files := [("/m.js", "")]
  links := []

/-- A script with its code. -/
def built : Memory where
  files := [("/m.js", "f();"), ("/m.output.js", "f();")]
  links := []

theorem exitCode_check_eq_zero_iff_built :
    let checked := run false { plainArguments with check := true } built
    let written := run false { plainArguments with check := false } built
    checked.exitCode = 0 ∧
      ((∃ path old, outputPath plainArguments = .ok path ∧ FileSystem.read built path = .ok old ∧
        written.exitCode = 0 ∧ FileSystem.read written.files path = .ok old) ∨
      (∃ path, product plainArguments built = .ok (path, "") ∧
        (FileSystem.read built path).toBool = false) ∨
      (∃ path old, product plainArguments built = .ok (path, old) ∧
        FileSystem.read built path = .ok old ∧ written.exitCode ≠ 0)) := by
  have hchecked : (run false { plainArguments with check := true } built).exitCode = 0 := by cbv
  exact ⟨hchecked, (exitCode_check_eq_zero_iff false plainArguments built).1 hchecked⟩

/-- The output file is not there, the run would make it, and still the
check passes. -/
theorem exitCode_check_unbuilt :
    (run false { plainArguments with check := true } unbuilt).exitCode = 0 ∧
      (FileSystem.read unbuilt "m.output.js").toBool = false ∧
      (run false { plainArguments with check := false } unbuilt).files =
        { unbuilt with files := [("/m.js", ""), ("/m.output.js", "")] } := by
  refine ⟨?_, ?_, ?_⟩
  · cbv
  · decide +kernel
  · cbv

end Inlay.Cli
