/-
The name a file goes by.

A file can be compiled under another name than its own. The name shows in
the code after all if the file includes another one under that very name,
whose nodes then pass for its own (`Compiler.code_under_taken_name`).
Otherwise the code is the same under all names
(`Compiler.code_under_other_name`): two names are exchanged in the trees of
a run, which no file that is included notices.
-/
import Inlay.Proofs.Compiling
import Inlay.Proofs.FileSystem.Laws
import Inlay.Proofs.Inclusion.Renaming
import Inlay.Proofs.Inclusion.Settled
import Inlay.Proofs.Script.Writing

namespace Inlay

open Inclusion
open FileSystem (read realpath?)
open Compile (library depthBound transformed)

variable {σ : Type} [FileSystem σ] {c : Compiler} {o : Options} {files : σ} {path : String}

/-- The file at `path` has a directive for a file as `name`, by itself or
in a file that a directive names. -/
def Compiler.Includes (c : Compiler) (o : Options) (files : σ) (path name : String) : Prop :=
  ∃ script text t d tech text' u, c.techs.get? "js" = some script ∧
    read files path = .ok text ∧ script.parse text none = .ok t ∧
    Mentions (library c o files) (.start none (realpath? files path)) t d tech
      text' u ∧ d.path = name

section Names

variable {script : Tech} {text real : String} {t t' : Tree} {name : String} {tech : Tech}

theorem parallel_start (a b : Option String) (real : String) :
    Parallel (.start a (some real)) (.start b (some real)) := ⟨rfl, rfl⟩

theorem Compiler.includes_of_mentions {d : Directive} {text' : String} {u : Tree}
    (hs : c.techs.get? "js" = some script) (hrea : read files path = .ok text)
    (hreal : realpath? files path = some real) (ht : script.parse text (some name) = .ok t)
    (h : Mentions (library c o files) (.start (some name) (some real)) t d tech text' u) :
    c.Includes o files path d.path := by
  have hu := script.parse_rename (r := fun _ => none) ht
  have hr := script.parse_rename (r := fun _ => some name) hu
  rw [ht] at hr
  rw [Except.ok.inj hr] at h
  obtain ⟨d₀, hp, hre⟩ := (parallel_start none (some name) real).mentions_of_rename h
  exact ⟨script, text, _, d₀, tech, text', u, hs, hrea, hu, hreal ▸ hre, hp⟩

theorem fresh_of_not_includes (hsc : c.techs.get? "js" = some script)
    (hread : read files path = .ok text) (hreal : realpath? files path = some real)
    (ht : script.parse text (some name) = .ok t) (hn : ¬c.Includes o files path name) :
    Fresh (library c o files) (.start (some name) (some real)) t := by
  intro d tech text' u hrea hs
  have hi := Compiler.includes_of_mentions hsc hread hreal ht hrea.mentions
  -- whatever the root says, it says the name
  have hre := script.parse_rename (r := fun _ => some name) ht
  rw [ht] at hre
  rw [Except.ok.inj hre] at hs
  have hr : ((t.root.rename fun _ => some name).source?) = some d.path := hs
  rw [Node.source?, Node.loc_rename] at hr
  cases hl : t.root.loc with
  | none =>
    rw [hl] at hr
    cases hr
  | some l =>
    rw [hl] at hr
    cases hr
    exact hn hi

/-- However often a file is resolved, the first time is all there is to
it. -/
theorem transformed_of_resolve {context : Context} {source : Option String}
    (ht : tech.parse text source = .ok t) (hf : Fresh (library c o files) context t)
    (h : resolve (library c o files) (depthBound files) context t = .ok t') (transform : Transform)
    (rest : List Transform) : transformed c o context files t (transform :: rest) = .ok t' := by
  have hst : resolve (library c o files) (depthBound files) context t' = .ok t' := by
    obtain ⟨hk, hs⟩ := resolve_settled ht hf h
    rw [resolve_eq]
    exact resolveWith_settled hk hs
  rw [transformed, List.foldlM_cons]
  refine bind_ok_iff.2 ⟨t', h, ?_⟩
  induction rest with
  | nil => rfl
  | cons _ rest ih =>
    rw [List.foldlM_cons]
    exact bind_ok_iff.2 ⟨t', hst, ih⟩

end Names

section Compiles

variable {text real : String} {a b : String} {script : Tech} {t t' : Tree} {y x : Option String}

theorem apart_swap (a b : String) : Apart (Equiv.swap (some a) (some b)) :=
  ⟨Equiv.injective _, Equiv.swap_apply_of_ne_of_ne nofun nofun⟩

variable (hr : read files path = .ok text) (hre : realpath? files path = some real)

include hr hre

theorem transformed_swap (hs : c.techs.get? "js" = some script)
    (ha : ¬c.Includes o files path a) (hb : ¬c.Includes o files path b)
    (ht : script.parse text (some a) = .ok t) {transforms : List Transform}
    (h : transformed c o (.start (some a) (some real)) files t transforms = .ok t') :
    transformed c o (.start (some b) (some real)) files
      (t.rename (Equiv.swap (some a) (some b))) transforms =
        .ok (t'.rename (Equiv.swap (some a) (some b))) := by
  cases transforms with
  | nil =>
    cases h
    rfl
  | cons transform rest =>
    obtain ⟨u, hres, -⟩ := bind_ok_iff.1 h
    have hf := fresh_of_not_includes hs hr hre ht ha
    rw [transformed_of_resolve ht hf hres] at h
    cases h
    have ht' := script.parse_rename (r := Equiv.swap (some a) (some b)) ht
    rw [Equiv.swap_apply_left] at ht'
    refine transformed_of_resolve ht' (fresh_of_not_includes hs hr hre ht' hb) ?_ _ _
    refine resolve_rename (apart_swap a b) _ (parallel_start _ _ real) (Tech.keyed_of_parse ht) ?_
      hres
    intro d tech text' u' hrea
    have hi := Compiler.includes_of_mentions hs hr hre ht hrea
    refine Equiv.swap_apply_of_ne_of_ne ?_ ?_
    · intro heq
      exact ha (Option.some.inj heq ▸ hi)
    · intro heq
      exact hb (Option.some.inj heq ▸ hi)

variable (hx : ¬c.Includes o files path (x.getD path)) (hy : ¬c.Includes o files path (y.getD path))

include hx hy

theorem welds_swap {w : Tech × Tree}
    (h : c.welds (.file path) { o with sourcePath := x } files = .ok w) :
    ∃ t, c.welds (.file path) { o with sourcePath := y } files = .ok (w.1, t) ∧
      t.root.Alike w.2.root := by
  obtain ⟨script, hs, h⟩ := bind_ok_iff.1 h
  obtain ⟨transforms, hc, h⟩ := bind_ok_iff.1 h
  obtain ⟨⟨t, context⟩, hl, h⟩ := bind_ok_iff.1 h
  obtain ⟨t', ht, h⟩ := bind_ok_iff.1 h
  cases h
  obtain ⟨text', hte, hl⟩ := bind_ok_iff.1 hl
  obtain ⟨t₀, hp, hl⟩ := bind_ok_iff.1 hl
  cases hl
  obtain rfl := Except.ok.inj (hr.symm.trans hte)
  have hjs : c.techs.get? "js" = some script := by
    cases hg : c.techs.get? "js" with
    | none =>
      rw [hg] at hs
      cases hs
    | some tech =>
      rw [hg] at hs
      exact congrArg some (Except.ok.inj hs)
  rw [hre] at ht
  have hsw := transformed_swap hr hre hjs hx hy hp ht
  have hpa := script.parse_rename (r := Equiv.swap (some (x.getD path)) (some (y.getD path))) hp
  rw [Equiv.swap_apply_left] at hpa
  refine ⟨t'.rename (Equiv.swap (some (x.getD path)) (some (y.getD path))), ?_,
    (Node.recolors_rename _).alike t'.root⟩
  refine bind_ok_iff.2 ⟨script, hs, bind_ok_iff.2 ⟨transforms, hc, ?_⟩⟩
  refine bind_ok_iff.2 ⟨_, bind_ok_iff.2 ⟨text, hr, bind_ok_iff.2 ⟨_, hpa, rfl⟩⟩, ?_⟩
  refine bind_ok_iff.2 ⟨_, ?_, rfl⟩
  rw [hre]
  exact hsw

/-- The code of one run is the code of the other. -/
theorem code_of_welds {code : String}
    (h : (c.welds (.file path) { o with sourcePath := x } files).toOption.bind
      (fun w => (w.1.generateCode o.indented w.2).toOption) = some code) :
    (c.welds (.file path) { o with sourcePath := y } files).toOption.bind
      (fun w => (w.1.generateCode o.indented w.2).toOption) = some code := by
  obtain ⟨w, hw, hc⟩ := Option.bind_eq_some_iff.1 h
  obtain ⟨t, hw', ha⟩ := welds_swap hr hre hx hy (eq_ok_of_toOption hw)
  rw [hw']
  show (w.1.generateCode o.indented t).toOption = some code
  rw [← hc]
  cases w.1 with
  | js =>
    show ((Script.generateCode o.indented t).mapError _).toOption = _
    rw [Script.generateCode_eq_of_alike ha]
    rfl
  | json => rfl
  | txt => rfl

end Compiles

theorem Memory.realpath?_of_read {files : Memory} {text : String} (h : read files path = .ok text) :
    realpath? files path = some (files.target path) := by
  have hc : Entries.contains (files.target path) files.files = true := by
    rw [Entries.contains]
    exact Option.isSome_iff_exists.2 ⟨text, get?_of_read h⟩
  exact if_pos hc

/-- Under whatever name a file is compiled, its code is the same, or there
is none, as long as it includes no file under one of the names. -/
theorem Compiler.code_under_other_name {c : Compiler} {o : Options} {files : Memory}
    {path text : String} (hread : FileSystem.read files path = .ok text)
    (houtput : o.output = .code) (hmap : o.sourceMap = none) {x y : Option String}
    (hx : ¬c.Includes o files path (x.getD path)) (hy : ¬c.Includes o files path (y.getD path)) :
    let run (name : Option String) := c.run (.file path) { o with sourcePath := name } files
    (run x).1.isSome = (run y).1.isSome ∧ (run x).2.artifacts.code = (run y).2.artifacts.code := by
  have hreal := Memory.realpath?_of_read hread
  have hcode (name : Option String) :=
    code_run c (.file path) (o := { o with sourcePath := name }) files houtput hmap
  have hsame : (c.run (.file path) { o with sourcePath := x } files).2.artifacts.code =
      (c.run (.file path) { o with sourcePath := y } files).2.artifacts.code := by
    rw [(hcode x).1, (hcode y).1]
    refine Option.ext fun code => ⟨?_, ?_⟩
    · exact code_of_welds hread hreal hx hy
    · exact code_of_welds hread hreal hy hx
  dsimp only
  rw [(hcode x).2, (hcode y).2, hsame]
  exact ⟨rfl, rfl⟩

-- == inclusions

/-- Whether the directives of all files, in whatever tech they are read,
have these names. -/
def Memory.confines (files : Memory) (marker : String) (names : List String) : Bool :=
  files.files.all fun file => [Tech.js, .json, .txt].all fun tech =>
    match tech.parse file.2 none with
    | .ok t => (directives marker t).all (·.path ∈ names)
    | .error _ => true

section Confines

variable {files : Memory} {marker : String} {names : List String}

theorem Memory.path_mem_of_confines {tech : Tech} {text : String} {source : Option String}
    {t : Tree} {d : Directive} (h : files.confines marker names = true)
    (hr : read files path = .ok text) (ht : tech.parse text source = .ok t)
    (hd : d ∈ directives marker t) : d.path ∈ names := by
  obtain ⟨file, hf, rfl⟩ := Memory.exists_of_read hr
  have hte := List.all_eq_true.1 h file hf
  have ha := List.all_eq_true.1 hte tech (by cases tech <;> decide)
  rw [tech.parse_rename (r := fun _ => none) ht] at ha
  have hre : d.rename (fun _ => none) ∈ directives marker (t.rename fun _ => none) := by
    rw [directives_rename]
    exact List.mem_map_of_mem hd
  exact of_decide_eq_true (List.all_eq_true.1 ha (d.rename fun _ => none) hre)

/-- A file includes others under the names that occur. -/
theorem Compiler.mem_of_includes {name : String} (h : files.confines o.marker names = true)
    (hi : c.Includes o files path name) : name ∈ names := by
  obtain ⟨script, text, t, d, tech, text', u, -, hre, ht, hr, rfl⟩ := hi
  have hs : ∀ d ∈ directives o.marker t, d.path ∈ names :=
    fun d hd => Memory.path_mem_of_confines h hre ht hd
  clear ht hre
  generalize hl : library c o files = lib at hr
  generalize Context.start none (realpath? files path) = context at hr
  induction hr with
  | here hd _ =>
    subst hl
    exact hs _ hd
  | through hd ho _ ih =>
    subst hl
    exact ih fun d hd => Memory.path_mem_of_confines h ho.read ho.parsed hd

end Confines

/-- A script with two directives, one of which is passed over; the other
includes a block that spans the offsets of the first. -/
def Memory.homonym : Memory where
  files :=
    [ ("/h.js", "f(/*borschik:include:y.js*/); /*borschik:include:x.js*/"),
      ("/x.js", "\x7b                         \x7d"), ("/y.js", "y;") ]
  links := []

theorem Compiler.code_under_other_name_homonym :
    let run (name : Option String) :=
      Compiler.builtin.run (.file "h.js") { Options.default with sourcePath := name } Memory.homonym
    (run none).1.isSome = (run (some "z.js")).1.isSome ∧
      (run none).2.artifacts.code = (run (some "z.js")).2.artifacts.code := by
  have hconfines : Memory.homonym.confines Options.default.marker ["x.js", "y.js"] = true := by
    decide +kernel
  have hnot (name : String) (hname : name ∉ ["x.js", "y.js"]) :
      ¬Compiler.builtin.Includes .default Memory.homonym "h.js" name :=
    fun h => hname (Compiler.mem_of_includes hconfines h)
  have hread : (FileSystem.read Memory.homonym "h.js").toBool = true := by decide +kernel
  obtain ⟨text, hread⟩ := exists_of_toBool hread
  exact Compiler.code_under_other_name hread rfl rfl (hnot "h.js" (by decide))
    (hnot "z.js" (by decide))

/-- Under the name of a file that it includes, a script has other code. -/
theorem Compiler.code_under_taken_name :
    (Compiler.builtin.run (.file "h.js") .default Memory.homonym).2.artifacts.code =
        some "f();\x7b\x7d" ∧
      (Compiler.builtin.run (.file "h.js") { Options.default with sourcePath := some "x.js" }
        Memory.homonym).2.artifacts.code = some "f();\x7by;\x7d" := by
  refine ⟨?_, ?_⟩
  · cbv
  · cbv

end Inlay
