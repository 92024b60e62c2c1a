/-
What a run does to the files.

A run that fails has written nothing, or the source map and nothing else
(`failed_run_files`). A run that succeeds has written its output and, if it
has a name, the source map, each to where its pathname leads, and every
other file is as it was (`successful_run_files`).
-/
import Inlay.Proofs.Compiling
import Inlay.Proofs.FileSystem.Laws

namespace Inlay

variable {c : Compiler} {input : Input} {o : Options}

namespace Compile

theorem mapParcel_eq_some_iff {map : Option String} {url data : String} :
    mapParcel o map = some (url, data) ↔
      map = some data ∧ o.output.path?.isSome = true ∧ o.sourceMap = some (.named url) := by
  unfold mapParcel
  split
  · next hp hm =>
    simp only [hp, hm, Option.some.injEq, Prod.mk.injEq, MapRequest.named.injEq,
      Option.isSome_some, true_and]
    exact and_comm
  · next ho =>
    refine ⟨nofun, ?_⟩
    rintro ⟨rfl, hp, hm⟩
    obtain ⟨path, hp⟩ := Option.isSome_iff_exists.1 hp
    exact absurd hm (ho data path url rfl hp)

theorem path?_of_outputParcel {tree : Tree} {code : Option String} {path data : String}
    (h : outputParcel o tree code = some (path, data)) : o.output.path? = some path := by
  unfold outputParcel at h
  split at h
  · next ho =>
    cases h
    rw [ho]
    rfl
  · next ho =>
    cases h
    rw [ho]
    rfl
  · cases h
  · cases h

end Compile

/-- What is asked for is made, and nothing else. -/
theorem Compiler.isSome_of_makes {σ : Type} [FileSystem σ] {files : σ} {tree : Tree}
    {code map : Option String} (h : c.makes input o files = .ok (tree, code, map)) :
    code.isSome = o.output.wantsCode ∧ map.isSome = o.sourceMap.isSome := by
  obtain ⟨w, -, h⟩ := bind_ok_iff.1 h
  obtain ⟨made, h, hp⟩ := bind_ok_iff.1 h
  cases hp
  unfold Compile.generate at h
  dsimp only at h
  split at h
  all_goals first
    | obtain ⟨made, -, h⟩ := bind_ok_iff.1 h
      cases h
      simp [*]
    | cases h
      simp [*]

-- == failures

/-- The file system behind a run that failed. -/
theorem Compiler.failed_run_files {σ : Type} [FileSystem σ] {files : σ} {e : Error}
    (h : (c.run input o files).1 = some e) :
    (c.run input o files).2.files = files ∨
      ∃ url map path data, o.sourceMap = some (.named url) ∧ o.output.path? = some path ∧
        (c.run input o files).2.artifacts.map = some map ∧
        FileSystem.write files url map = .ok (c.run input o files).2.files ∧
        FileSystem.write (c.run input o files).2.files path data = .error e := by
  have hends := c.run_ends input o files
  generalize c.run input o files = outcome at h hends ⊢
  obtain ⟨result, job⟩ := outcome
  cases h
  cases hends with
  | unmade => exact .inl rfl
  | unmapped => exact .inl rfl
  | @undelivered _ source tree code map files' hmakes hmap houtput =>
    cases hparcel : Compile.mapParcel o map with
    | none =>
      rw [hparcel] at hmap
      cases hmap
      exact .inl rfl
    | some parcel =>
      obtain ⟨url, data⟩ := parcel
      obtain ⟨rfl, -, hnamed⟩ := Compile.mapParcel_eq_some_iff.1 hparcel
      rw [hparcel] at hmap
      cases hparcel' : Compile.outputParcel o tree code with
      | none =>
        rw [hparcel'] at houtput
        cases houtput
      | some parcel' =>
        obtain ⟨path, text⟩ := parcel'
        rw [hparcel'] at houtput
        exact .inr ⟨url, data, path, text, hnamed, Compile.path?_of_outputParcel hparcel', rfl, hmap,
          houtput⟩

/-- A disk with nothing on it. -/
def Disk.blank : Disk := ⟨[], []⟩

/-- The source map has a place to go to, the code has none. -/
def Options.stray : Options :=
  { Options.default with output := .codeFile "none/m.js", sourceMap := some (.named "m.map") }

theorem Disk.find_blank : Disk.blank.find "m.map" = .absent ["m.map".toList] := by
  simp [find, follow, entry?, blank, Pathname.pieces, Pathname.isName, Pathname.isAbsolute]

theorem Disk.find_nowhere (data : String) :
    (Disk.blank.put ["m.map".toList] data).find "none/m.js" = .nowhere := by
  simp [find, follow, entry?, put, blank, Pathname.pieces, Pathname.isName, Pathname.isAbsolute,
    List.lookup_cons]

/-- The run on the blank disk fails, and the map can be read behind it. -/
theorem Compiler.run_stray :
    (Compiler.builtin.run (.code "f();") .stray Disk.blank).1.isSome = true ∧
      (FileSystem.read (Compiler.builtin.run (.code "f();") .stray Disk.blank).2.files
        "m.map").toBool = true := by
  have hma : (Compiler.builtin.makes (.code "f();") .stray Disk.blank).toBool = true := by cbv
  obtain ⟨⟨tree, code, map⟩, hma⟩ := exists_of_toBool hma
  obtain ⟨data, rfl⟩ := Option.isSome_iff_exists.1 (isSome_of_makes hma).2
  have hw : FileSystem.write Disk.blank "m.map" data =
      .ok (Disk.blank.put ["m.map".toList] data) := by
    show Disk.write Disk.blank "m.map" data = _
    rw [Disk.write, Disk.find_blank]
  have he := Compiler.builtin.run_ends (.code "f();") .stray Disk.blank
  generalize Compiler.builtin.run (.code "f();") .stray Disk.blank = outcome at he ⊢
  obtain ⟨result, job⟩ := outcome
  cases he with
  | unmade hm =>
    rw [hma] at hm
    cases hm
  | unmapped hm hmap =>
    rw [hma] at hm
    cases hm
    cases hw.symm.trans hmap
  | undelivered hm hmap _ =>
    rw [hma] at hm
    cases hm
    refine ⟨rfl, ?_⟩
    rw [LawfulFileSystem.read_write (show FileSystem.write _ _ _ = _ from hmap)]
    rfl
  | done hm hmap ho =>
    rw [hma] at hm
    cases hm
    cases hw.symm.trans hmap
    change Disk.write _ _ _ = _ at ho
    rw [Disk.write, Disk.find_nowhere] at ho
    cases ho

theorem Compiler.failed_run_files_stray :
    ∃ e, (Compiler.builtin.run (.code "f();") .stray Disk.blank).1 = some e ∧
      ((Compiler.builtin.run (.code "f();") .stray Disk.blank).2.files = Disk.blank ∨
        ∃ url map path data, Options.stray.sourceMap = some (.named url) ∧
          Options.stray.output.path? = some path ∧
          (Compiler.builtin.run (.code "f();") .stray Disk.blank).2.artifacts.map = some map ∧
          FileSystem.write Disk.blank url map =
            .ok (Compiler.builtin.run (.code "f();") .stray Disk.blank).2.files ∧
          FileSystem.write (Compiler.builtin.run (.code "f();") .stray Disk.blank).2.files path data =
            .error e) := by
  obtain ⟨e, he⟩ := Option.isSome_iff_exists.1 Compiler.run_stray.1
  exact ⟨e, he, Compiler.failed_run_files he⟩

/-- A run that failed, and a file that was not there before. -/
theorem Compiler.failed_run_leaves_map :
    (Compiler.builtin.run (.code "f();") .stray Disk.blank).1.isSome = true ∧
      (FileSystem.read Disk.blank "m.map").toBool = false ∧
      (FileSystem.read (Compiler.builtin.run (.code "f();") .stray Disk.blank).2.files
        "m.map").toBool = true :=
  ⟨Compiler.run_stray.1, by rw [show FileSystem.read Disk.blank "m.map" = Disk.blank.read "m.map" from rfl,
    Disk.read, Disk.find_blank]; rfl, Compiler.run_stray.2⟩

-- == successes

namespace Memory

variable {m m' : Memory} {parcel : Option (String × String)} {path data : String}

theorem links_of_ship (h : Compile.ship m parcel = .ok m') :
    m'.links = m.links ∧ m'.workingDirectory = m.workingDirectory := by
  cases parcel with
  | none => cases h; exact ⟨rfl, rfl⟩
  | some p => cases h; exact ⟨rfl, rfl⟩

theorem target_of_ship (h : Compile.ship m parcel = .ok m') (path : String) :
    m'.target path = m.target path := by
  obtain ⟨hl, hw⟩ := links_of_ship h
  rw [target, target, follow, follow, absolute, absolute, hl, hw]

theorem lookup_of_ship (h : Compile.ship m (some (path, data)) = .ok m') (place : String) :
    m'.files.lookup place = if place = m.target path then some data else m.files.lookup place := by
  cases h
  exact lookup_write m path data place

theorem exists_of_lookup_ne {place : String} (h : Compile.ship m parcel = .ok m')
    (hne : m'.files.lookup place ≠ m.files.lookup place) :
    ∃ path data, parcel = some (path, data) ∧ place = m.target path := by
  cases parcel with
  | none =>
    cases h
    exact absurd rfl hne
  | some p =>
    obtain ⟨path, data⟩ := p
    by_cases hp : place = m.target path
    · exact ⟨path, data, rfl, hp⟩
    · exact absurd ((lookup_of_ship h place).trans (if_neg hp)) hne

end Memory

/-- The files behind a run that succeeded. -/
theorem Compiler.successful_run_files {m : Memory} (h : (c.run input o m).1 = none) :
    let job := (c.run input o m).2
    job.files.links = m.links ∧
      (∀ place, job.files.files.lookup place ≠ m.files.lookup place →
        ∃ path, o.output.path? = some path ∧
          (place = m.target path ∨
            ∃ url, o.sourceMap = some (.named url) ∧ place = m.target url)) ∧
      (∀ path, o.output = .codeFile path →
        ∃ code, job.artifacts.code = some code ∧ job.files.get? path = some code) ∧
      (∀ path, o.output = .treeFile path →
        ∃ tree, job.artifacts.tree = some tree ∧
          job.files.get? path = some (tree.document o.indented)) ∧
      (∀ path url, o.output.path? = some path → o.sourceMap = some (.named url) →
        m.target url ≠ m.target path →
        ∃ map, job.artifacts.map = some map ∧ job.files.get? url = some map) ∧
      (o.output.path? = none → job.files = m) := by
  have hends := c.run_ends input o m
  generalize c.run input o m = outcome at h hends ⊢
  obtain ⟨result, job⟩ := outcome
  cases h
  cases hends with
  | @done source tree code map m₁ m₂ hmakes hmap houtput =>
    obtain ⟨hcode, hmapped⟩ := isSome_of_makes hmakes
    have hfile {path data : String} (hparcel : Compile.outputParcel o tree code = some (path, data)) :
        m₂.get? path = some data := by
      rw [hparcel] at houtput
      rw [Memory.get?, Memory.target_of_ship houtput, Memory.lookup_of_ship houtput, if_pos rfl]
    refine ⟨?_, ?_, ?_, ?_, ?_, ?_⟩
    · exact (Memory.links_of_ship houtput).1.trans (Memory.links_of_ship hmap).1
    · intro place hne
      by_cases hsecond : m₂.files.lookup place = m₁.files.lookup place
      · rw [hsecond] at hne
        obtain ⟨url, data, hparcel, hplace⟩ := Memory.exists_of_lookup_ne hmap hne
        obtain ⟨-, hpath, hnamed⟩ := Compile.mapParcel_eq_some_iff.1 hparcel
        obtain ⟨path, hpath⟩ := Option.isSome_iff_exists.1 hpath
        exact ⟨path, hpath, .inr ⟨url, hnamed, hplace⟩⟩
      · obtain ⟨path, data, hparcel, hplace⟩ := Memory.exists_of_lookup_ne houtput hsecond
        rw [Memory.target_of_ship hmap] at hplace
        exact ⟨path, Compile.path?_of_outputParcel hparcel, .inl hplace⟩
    · intro path hpath
      rw [hpath] at hcode
      obtain ⟨text, rfl⟩ := Option.isSome_iff_exists.1 hcode
      exact ⟨text, rfl, hfile (by rw [Compile.outputParcel, hpath]; rfl)⟩
    · intro path hpath
      exact ⟨tree, rfl, hfile (by rw [Compile.outputParcel, hpath])⟩
    · intro path url hpath hnamed hne
      rw [hnamed] at hmapped
      obtain ⟨data, rfl⟩ := Option.isSome_iff_exists.1 hmapped
      have hparcel : Compile.mapParcel o (some data) = some (url, data) :=
        Compile.mapParcel_eq_some_iff.2 ⟨rfl, Option.isSome_iff_exists.2 ⟨path, hpath⟩, hnamed⟩
      rw [hparcel] at hmap
      refine ⟨data, rfl, ?_⟩
      have hurl : m₁.get? url = some data := by
        rw [Memory.get?, Memory.target_of_ship hmap, Memory.lookup_of_ship hmap, if_pos rfl]
      rw [← hurl, Memory.get?, Memory.get?, Memory.target_of_ship houtput]
      by_cases hsecond : m₂.files.lookup (m₁.target url) = m₁.files.lookup (m₁.target url)
      · exact hsecond
      · obtain ⟨path', data', hparcel', hplace⟩ := Memory.exists_of_lookup_ne houtput hsecond
        rw [Compile.path?_of_outputParcel hparcel'] at hpath
        cases hpath
        rw [Memory.target_of_ship hmap, Memory.target_of_ship hmap] at hplace
        exact absurd hplace hne
    · intro hpath
      obtain ⟨hmap', houtput'⟩ := Compile.parcels_eq_none hpath tree code map
      rw [hmap'] at hmap
      cases hmap
      rw [houtput'] at houtput
      cases houtput
      rfl

/-- Files under other names than they are stored by. -/
def Memory.linked : Memory where
  files := [("/old.js", "old")]
  links := [("/out.js", "/old.js"), ("/m.map", "/maps/new.map")]

def Options.linked : Options :=
  { Options.default with output := .codeFile "out.js", sourceMap := some (.named "m.map") }

theorem Compiler.successful_run_files_linked :
    let run := Compiler.builtin.run (.code "f();") .linked Memory.linked
    run.1 = none ∧ run.2.files.links = Memory.linked.links ∧
      (∃ code, run.2.artifacts.code = some code ∧ run.2.files.get? "out.js" = some code) ∧
      ∃ map, run.2.artifacts.map = some map ∧ run.2.files.get? "m.map" = some map := by
  have hok : (Compiler.builtin.run (.code "f();") .linked Memory.linked).1.isNone = true := by cbv
  have hok := Option.isNone_iff_eq_none.1 hok
  obtain ⟨hlinks, -, hcode, -, hmap, -⟩ := Compiler.successful_run_files hok
  exact ⟨hok, hlinks, hcode "out.js" rfl, hmap "out.js" "m.map" rfl rfl (by decide +kernel)⟩

end Inlay
