/-
What a compile does, step by step.

A compile fails or goes on, and keeps a job (`exec`). Files are only read
until everything is made, so what is made depends on the files alone
(`Compiler.welds`, `Compiler.makes`). Then at most two files are written. A
run ends in one of four ways, told by how far it gets (`Compiler.run_ends`).
-/
import Inlay.Compiler
import Inlay.Proofs.Basics

namespace Inlay

open FileSystem (read realpath? write)

namespace Compile

variable {σ : Type} {α β : Type}

/-- The result of a part of a compile, and the job behind it. -/
def exec (x : Compile σ α) (job : Job σ) : Except Error α × Job σ := x.run.run job

theorem exec_bind (x : Compile σ α) (f : α → Compile σ β) (job : Job σ) :
    exec (x >>= f) job = match exec x job with
      | (.ok a, job') => exec (f a) job'
      | (.error e, job') => (.error e, job') := by
  unfold exec ExceptT.run StateT.run
  simp only [bind, ExceptT.bind, ExceptT.mk, StateT.bind, ExceptT.bindCont]
  cases x job with
  | mk r job' => cases r <;> rfl

@[simp] theorem exec_attempt (x : Except Error α) (job : Job σ) :
    exec (attempt x) job = (x, job) := by
  cases x <;> rfl

@[simp] theorem exec_record (f : Artifacts → Artifacts) (job : Job σ) :
    exec (record f) job = (.ok (), { job with artifacts := f job.artifacts }) :=
  rfl

@[simp] theorem exec_get (job : Job σ) : exec (get : Compile σ (Job σ)) job = (.ok job, job) :=
  rfl

section Loading

variable [FileSystem σ] {c : Compiler} {o : Options} {context : Context} {files : σ}

/-- The tree of the input and the context of its directives, by the files
alone. -/
def loads (files : σ) (script : Tech) (input : Input) (o : Options) :
    Except Error (Tree × Context) :=
  match input with
  | .code text => do
      let tree ← script.parse text o.sourcePath
      return (tree, .start o.sourcePath none)
  | .file path => do
      let text ← read files path
      let source := o.sourcePath.getD path
      let tree ← script.parse text (some source)
      return (tree, .start (some source) (realpath? files path))
  | .tree t => return (t, .start o.sourcePath none)
  | .treeFile path => do
      let text ← read files path
      let tree ← (Tree.ofDocument text).mapError .document
      return (tree, .start o.sourcePath none)

theorem exec_load (script : Tech) (input : Input) (o : Options) (job : Job σ) :
    ∃ source, exec (load script input o) job =
      (loads job.files script input o, { job with artifacts := { job.artifacts with source } }) := by
  cases input with
  | code text =>
    refine ⟨some text, ?_⟩
    simp only [load, exec_bind, exec_record, exec_attempt, loads]
    cases script.parse text o.sourcePath <;> rfl
  | file path =>
    simp only [load, readFile, exec_bind, exec_get, exec_attempt, exec_record, loads]
    cases read job.files path with
    | error e => exact ⟨job.artifacts.source, rfl⟩
    | ok text =>
      refine ⟨some text, ?_⟩
      simp only [bind, Except.bind]
      cases script.parse text (some (o.sourcePath.getD path)) <;> rfl
  | tree t => exact ⟨job.artifacts.source, rfl⟩
  | treeFile path =>
    refine ⟨job.artifacts.source, ?_⟩
    simp only [load, readFile, exec_bind, exec_get, exec_attempt, loads]
    cases read job.files path with
    | error e => rfl
    | ok text =>
      simp only [bind, Except.bind]
      cases (Tree.ofDocument text).mapError Error.document <;> rfl

/-- The files that can be included. -/
def library (c : Compiler) (o : Options) (files : σ) : Library :=
  { techs := c.techs, defaultTech := o.defaultTech, marker := o.marker
    workingDirectory := FileSystem.workingDirectory files, read := read files }

/-- The tree behind the transforms, by the files alone. -/
def transformed (c : Compiler) (o : Options) (context : Context) (files : σ) (tree : Tree)
    (transforms : List Transform) : Except Error Tree :=
  transforms.foldlM
    (fun tree _ => resolve (library c o files) (depthBound files) context tree) tree

theorem exec_transforms (tree : Tree) (transforms : List Transform) (job : Job σ) :
    exec (transforms.foldlM (transform c o context) tree) job =
      (transformed c o context job.files tree transforms, job) := by
  induction transforms generalizing tree with
  | nil => rfl
  | cons t rest ih =>
    rw [List.foldlM_cons, exec_bind, transformed, List.foldlM_cons]
    have hs : exec (transform c o context tree t) job =
        (resolve (library c o job.files) (depthBound job.files) context tree, job) := by
      cases t
      rw [transform, exec_bind, exec_get]
      exact exec_attempt _ job
    rw [hs]
    cases resolve (library c o job.files) (depthBound job.files) context tree with
    | error e => rfl
    | ok tree => exact ih tree

-- == files that are written

/-- Writes a file, if there is one to write. -/
def ship (files : σ) : Option (String × String) → Except Error σ
  | none => .ok files
  | some (path, data) => write files path data

/-- The file that the source map goes to. -/
def mapParcel (o : Options) (map : Option String) : Option (String × String) :=
  match map, o.output.path?, o.sourceMap with
  | some map, some _, some (.named url) => some (url, map)
  | _, _, _ => none

/-- The file that the output goes to. -/
def outputParcel (o : Options) (tree : Tree) (code : Option String) : Option (String × String) :=
  match o.output with
  | .codeFile path => some (path, code.getD "")
  | .treeFile path => some (path, tree.document o.indented)
  | .code | .tree => none

theorem parcels_eq_none (hp : o.output.path? = none) (tree : Tree) (code map : Option String) :
    mapParcel o map = none ∧ outputParcel o tree code = none := by
  refine ⟨?_, ?_⟩
  · cases map <;> simp only [mapParcel, hp]
  · unfold outputParcel
    cases ho : o.output with
    | code | tree => rfl
    | codeFile path | treeFile path =>
      rw [ho] at hp
      cases hp

theorem exec_writeFile (path data : String) (job : Job σ) :
    exec (writeFile path data) job = match write job.files path data with
      | .ok files => (.ok (), { job with files })
      | .error e => (.error e, job) := by
  simp only [writeFile, exec_bind, exec_get, exec_attempt]
  cases write job.files path data <;> rfl

theorem exec_deliver (o : Options) (tree : Tree) (code map : Option String) (job : Job σ) :
    exec (deliver o tree code map) job = match ship job.files (mapParcel o map) with
      | .error e => (.error e, job)
      | .ok files =>
          match ship files (outputParcel o tree code) with
          | .error e => (.error e, ⟨files, { job.artifacts with map, code }⟩)
          | .ok files' => (.ok (), ⟨files', { job.artifacts with map, code }⟩) := by
  have ho (job : Job σ) : exec (do
        record fun a => { a with map, code }
        match o.output with
        | .codeFile path => writeFile path (code.getD "")
        | .treeFile path => writeFile path (tree.document o.indented)
        | .code | .tree => pure ()) job =
      match ship job.files (outputParcel o tree code) with
      | .error e => (.error e, ⟨job.files, { job.artifacts with map, code }⟩)
      | .ok files => (.ok (), ⟨files, { job.artifacts with map, code }⟩) := by
    rw [exec_bind, exec_record]
    unfold outputParcel
    cases o.output with
    | code | tree => rfl
    | codeFile path | treeFile path =>
      dsimp only
      rw [exec_writeFile, ship]
      cases write job.files path _ <;> rfl
  unfold deliver mapParcel
  cases map with
  | none => exact ho job
  | some map =>
    cases o.output.path? with
    | none => exact ho job
    | some _ =>
      cases o.sourceMap with
      | none => exact ho job
      | some request =>
        cases request with
        | unnamed => exact ho job
        | named url =>
          dsimp only
          rw [exec_bind, exec_writeFile]
          simp only [ship]
          cases write job.files url map with
          | error e => rfl
          | ok files => exact ho _

end Loading

end Compile

namespace Compiler

variable {σ : Type} [FileSystem σ]

/-- The tech of scripts, and the tree that code is generated from, by the
files alone. -/
def welds (c : Compiler) (input : Input) (o : Options) (files : σ) : Except Error (Tech × Tree) := do
  let script ← (match c.techs.get? "js" with
    | some tech => .ok tech
    | none => .error (.missingTech "js"))
  let transforms ← Compile.chain c o.transforms
  let (tree, context) ← Compile.loads files script input o
  let tree ← Compile.transformed c o context files tree transforms
  return (script, tree)

/-- What is left to do when the tree is there. -/
def finish (script : Tech) (o : Options) (tree : Tree) : Compile σ Unit := do
  let (code, map) ← Compile.attempt (Compile.generate script o tree)
  Compile.deliver o tree code map

theorem exec_compile (c : Compiler) (input : Input) (o : Options) (job : Job σ) :
    ∃ source, Compile.exec (c.compile input o) job = match c.welds input o job.files with
      | .error e => (.error e, { job with artifacts := { job.artifacts with source } })
      | .ok (script, tree) => Compile.exec (finish script o tree)
          { job with artifacts := { job.artifacts with source, tree := some tree } } := by
  unfold compile
  rw [Compile.exec_bind, Compile.exec_attempt]
  cases hjs : c.techs.get? "js" with
  | none =>
    have hw : c.welds input o job.files = .error (.missingTech "js") := by
      simp only [welds, hjs]
      rfl
    exact ⟨job.artifacts.source, by rw [hw]⟩
  | some script =>
    dsimp only
    rw [Compile.exec_bind, Compile.exec_attempt]
    cases hc : Compile.chain c o.transforms with
    | error e =>
      have hw : c.welds input o job.files = .error e := by
        simp only [welds, hjs, hc]
        rfl
      exact ⟨job.artifacts.source, by rw [hw]⟩
    | ok transforms =>
      obtain ⟨source, hlo⟩ := Compile.exec_load script input o job
      refine ⟨source, ?_⟩
      dsimp only
      rw [Compile.exec_bind, hlo]
      cases hl : Compile.loads job.files script input o with
      | error e =>
        have hw : c.welds input o job.files = .error e := by
          simp only [welds, hjs, hc, bind, Except.bind, hl]
        rw [hw]
      | ok loaded =>
        obtain ⟨tree, context⟩ := loaded
        dsimp only
        rw [Compile.exec_bind, Compile.exec_transforms]
        cases ht : Compile.transformed c o context job.files tree transforms with
        | error e =>
          have hw : c.welds input o job.files = .error e := by
            simp only [welds, hjs, hc, bind, Except.bind, hl, ht]
          rw [hw]
        | ok tree' =>
          have hw : c.welds input o job.files = .ok (script, tree') := by
            simp only [welds, hjs, hc, bind, Except.bind, hl, ht]
            rfl
          rw [hw]
          dsimp only
          rw [Compile.exec_bind, Compile.exec_record]
          rfl

theorem run_eq (c : Compiler) (input : Input) (o : Options) (files : σ) :
    c.run input o files = match Compile.exec (c.compile input o) ⟨files, .none⟩ with
      | (.ok (), job) => (none, job)
      | (.error e, job) => (some e, job) := by
  unfold run Compile.exec
  generalize (c.compile input o).run.run ⟨files, .none⟩ = outcome
  obtain ⟨r, job⟩ := outcome
  cases r <;> rfl

-- == how a run ends

/-- What a run makes, by the files alone: the tree, and the code and the
source map that the options ask for. -/
def makes (c : Compiler) (input : Input) (o : Options) (files : σ) :
    Except Error (Tree × Option String × Option String) := do
  let (script, tree) ← c.welds input o files
  let made ← Compile.generate script o tree
  return (tree, made)

/-- All ways for a run to end. -/
inductive Ends (c : Compiler) (input : Input) (o : Options) (files : σ) :
    Option Error → Job σ → Prop
  /-- Something cannot be made. -/
  | unmade {e artifacts} (hmakes : c.makes input o files = .error e)
      (htree : artifacts.tree = (c.welds input o files).toOption.map (·.2))
      (hcode : artifacts.code = none) : Ends c input o files (some e) ⟨files, artifacts⟩
  /-- The source map cannot be written. -/
  | unmapped {e source tree code map} (hmakes : c.makes input o files = .ok (tree, code, map))
      (hmap : Compile.ship files (Compile.mapParcel o map) = .error e) :
      Ends c input o files (some e) ⟨files, ⟨source, some tree, none, none⟩⟩
  /-- The output cannot be written. -/
  | undelivered {e source tree code map files'}
      (hmakes : c.makes input o files = .ok (tree, code, map))
      (hmap : Compile.ship files (Compile.mapParcel o map) = .ok files')
      (houtput : Compile.ship files' (Compile.outputParcel o tree code) = .error e) :
      Ends c input o files (some e) ⟨files', ⟨source, some tree, code, map⟩⟩
  | done {source tree code map files' files''}
      (hmakes : c.makes input o files = .ok (tree, code, map))
      (hmap : Compile.ship files (Compile.mapParcel o map) = .ok files')
      (houtput : Compile.ship files' (Compile.outputParcel o tree code) = .ok files'') :
      Ends c input o files none ⟨files'', ⟨source, some tree, code, map⟩⟩

theorem run_ends (c : Compiler) (input : Input) (o : Options) (files : σ) :
    Ends c input o files (c.run input o files).1 (c.run input o files).2 := by
  obtain ⟨source, he⟩ := exec_compile c input o ⟨files, .none⟩
  rw [run_eq, he]
  cases hw : c.welds input o files with
  | error e => exact .unmade (by rw [makes, hw]; rfl) (by rw [hw]; rfl) rfl
  | ok w =>
    obtain ⟨script, tree⟩ := w
    dsimp only
    rw [finish, Compile.exec_bind, Compile.exec_attempt]
    cases hg : Compile.generate script o tree with
    | error e =>
      refine .unmade ?_ (by rw [hw]; rfl) rfl
      simp only [makes, hw, bind, Except.bind, hg]
    | ok made =>
      obtain ⟨code, map⟩ := made
      have hm : c.makes input o files = .ok (tree, code, map) := by
        simp only [makes, hw, bind, Except.bind, hg]
        rfl
      dsimp only
      rw [Compile.exec_deliver]
      cases hma : Compile.ship files (Compile.mapParcel o map) with
      | error e => exact .unmapped hm hma
      | ok files' =>
        dsimp only
        cases ho : Compile.ship files' (Compile.outputParcel o tree code) with
        | error e => exact .undelivered hm hma ho
        | ok files'' => exact .done hm hma ho

/-- A run without an output file makes what it can and leaves the files
alone. -/
theorem run_of_no_file (c : Compiler) (input : Input) {o : Options} (files : σ)
    (hp : o.output.path? = none) :
    match c.makes input o files with
    | .error e => (c.run input o files).1 = some e ∧ (c.run input o files).2.artifacts.code = none
    | .ok (tree, code, map) =>
        ∃ source, c.run input o files = (none, ⟨files, ⟨source, some tree, code, map⟩⟩) := by
  have he := run_ends c input o files
  generalize c.run input o files = outcome at he ⊢
  obtain ⟨result, job⟩ := outcome
  cases he with
  | unmade hm _ hn =>
    rw [hm]
    exact ⟨rfl, hn⟩
  | @unmapped _ _ tree code map _ hf =>
    rw [(Compile.parcels_eq_none hp tree code map).1] at hf
    cases hf
  | @undelivered _ _ tree code map _ _ _ hf =>
    rw [(Compile.parcels_eq_none hp tree code map).2] at hf
    cases hf
  | @done source tree code map _ _ hm hma ho =>
    obtain ⟨hma', ho'⟩ := Compile.parcels_eq_none hp tree code map
    rw [hma'] at hma
    cases hma
    rw [ho'] at ho
    cases ho
    rw [hm]
    exact ⟨source, rfl⟩

/-- The outcome of a run that is asked for code: it fails where the tree
or its code cannot be had, and else has recorded the code. -/
theorem run_of_code (c : Compiler) (input : Input) {o : Options} (files : σ)
    (ho : o.output = .code) :
    match c.welds input o files >>= fun w => Compile.generate w.1 o w.2 with
    | .error e => (c.run input o files).1 = some e ∧ (c.run input o files).2.artifacts.code = none
    | .ok (code, _) =>
        (c.run input o files).1 = none ∧ (c.run input o files).2.artifacts.code = code := by
  have hr := run_of_no_file c input files (o := o) (by rw [ho]; rfl)
  unfold makes at hr
  cases hw : c.welds input o files with
  | error e =>
    rw [hw] at hr
    exact hr
  | ok w =>
    simp only [hw, bind, Except.bind] at hr ⊢
    cases hg : Compile.generate w.1 o w.2 with
    | error e =>
      rw [hg] at hr
      exact hr
    | ok made =>
      rw [hg] at hr
      obtain ⟨source, hr⟩ := hr
      rw [hr]
      exact ⟨rfl, rfl⟩

/-- What a run has recorded as its code, if code alone is asked for: that
of the tree. A run without it has failed. -/
theorem code_run (c : Compiler) (input : Input) {o : Options} (files : σ) (ho : o.output = .code)
    (hm : o.sourceMap = none) :
    (c.run input o files).2.artifacts.code = (c.welds input o files).toOption.bind
          (fun w => (w.1.generateCode o.indented w.2).toOption) ∧
      (c.run input o files).1.isSome = (c.run input o files).2.artifacts.code.isNone := by
  have hr := run_of_code c input files ho
  have hg (w : Tech × Tree) : Compile.generate w.1 o w.2 =
      (w.1.generateCode o.indented w.2).map fun code => (some code, none) := by
    simp only [Compile.generate, hm, ho, Output.wantsCode]
    cases w.1.generateCode o.indented w.2 <;> rfl
  simp only [hg] at hr
  cases hw : c.welds input o files with
  | error e =>
    rw [hw] at hr
    obtain ⟨hf, hc⟩ := hr
    rw [hf, hc]
    exact ⟨rfl, rfl⟩
  | ok w =>
    rw [hw] at hr
    simp only [bind, Except.bind, Except.toOption, Option.bind_some] at hr ⊢
    cases hc : w.1.generateCode o.indented w.2 with
    | error e =>
      rw [hc] at hr
      obtain ⟨hf, hc⟩ := hr
      rw [hf, hc]
      exact ⟨rfl, rfl⟩
    | ok code =>
      rw [hc] at hr
      obtain ⟨hok, hc⟩ := hr
      rw [hok, hc]
      exact ⟨rfl, rfl⟩

theorem tree_run (c : Compiler) (input : Input) (o : Options) (files : σ) :
    (c.run input o files).2.artifacts.tree = (c.welds input o files).toOption.map (·.2) := by
  have he := run_ends c input o files
  generalize c.run input o files = outcome at he ⊢
  obtain ⟨result, job⟩ := outcome
  have hma {tree : Tree} {made : Option String × Option String}
      (h : c.makes input o files = .ok (tree, made)) :
      some tree = (c.welds input o files).toOption.map (·.2) := by
    obtain ⟨w, hw, h⟩ := bind_ok_iff.1 h
    obtain ⟨made', -, h⟩ := bind_ok_iff.1 h
    cases h
    rw [hw]
    rfl
  cases he with
  | unmade _ ht _ => exact ht
  | unmapped hm _ => exact hma hm
  | undelivered hm _ _ => exact hma hm
  | done hm _ _ => exact hma hm

end Compiler

end Inlay
