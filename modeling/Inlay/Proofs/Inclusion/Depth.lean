/-
How deep files are nested.

The depth of a run only bounds it: a run that succeeds does so, with the
same tree, with any depth that no nested files exceed (`resolve_of_nests`).
Files in memory that are not nested in themselves do not exceed the bound
that compiles use (`Compile.resolve_depthBound`).
-/
import Inlay.Proofs.Compiling
import Inlay.Proofs.FileSystem.Laws
import Inlay.Proofs.Inclusion.Renaming
import Inlay.Proofs.Pathnames

namespace Inlay

open List

namespace Inclusion

/-- Files that are nested in a tree, the outermost first: where each one
is, and the tech it is read with. -/
inductive Nests (lib : Library) : Context → Tree → List (String × Tech) → Prop
  | nil {c t} : Nests lib c t []
  | cons {c t d tech text u files} (hd : d ∈ directives lib.marker t)
      (hopens : Opens lib c d tech text u) (h : Nests lib (c.descend d.path) u files) :
      Nests lib c t ((c.locate lib.workingDirectory d.path, tech) :: files)

variable {lib : Library} {c : Context} {t t' : Tree} {n depth : Nat} {files : List (String × Tech)}

theorem Nests.exists_text (h : Nests lib c t files) : ∀ file ∈ files, ∃ segments text,
    file.1 = Pathname.resolveFrom lib.workingDirectory segments ∧ lib.read file.1 = .ok text := by
  induction h with
  | nil => exact forall_mem_nil _
  | cons _ ho _ ih => exact forall_mem_cons.2 ⟨⟨_, _, rfl, ho.read⟩, ih⟩

/-- The depth of a run makes no difference if the runs below it do not. -/
theorem resolve_congr (ht : t.root.Keyed) (h : resolve lib n c t = .ok t')
    (hb : ∀ d ∈ directives lib.marker t, ∀ tech text u u', Opens lib c d tech text u →
      below lib n (c.descend d.path) u = .ok u' → below lib depth (c.descend d.path) u = .ok u') :
    resolve lib depth c t = .ok t' := by
  have hre : resolve lib depth c (t.rename id) = .ok (t'.rename id) := by
    refine resolve_renames ⟨fun _ _ => id, rfl⟩ ht h fun d hd tech text u u' ho hi =>
      ⟨⟨ho.known, ho.read, ho.parsed⟩, ?_⟩
    rw [Tree.rename_id]
    exact hb d hd tech text u u' ho hi
  rwa [Tree.rename_id, Tree.rename_id] at hre

theorem resolve_of_nests (ht : t.root.Keyed) (h : resolve lib n c t = .ok t')
    (hn : ∀ files, Nests lib c t files → files.length ≤ depth) :
    resolve lib depth c t = .ok t' := by
  induction depth generalizing n c t t' with
  | zero =>
    refine resolve_congr ht h fun d hd tech text u u' ho _ => ?_
    cases hn _ (.cons hd ho .nil)
  | succ depth ih =>
    refine resolve_congr ht h fun d hd tech text u u' ho hi => ?_
    obtain ⟨n, hi⟩ := exists_of_below hi
    exact ih (Tech.keyed_of_parse ho.parsed) hi fun files hf =>
      Nat.le_of_succ_le_succ (hn _ (.cons hd ho hf))

end Inclusion

open Inclusion

namespace Compile

variable {compiler : Compiler} {o : Options} {m : Memory} {c : Context} {t t' : Tree} {n : Nat}

/-- If no file in memory is nested in itself, a run that succeeds with
any depth succeeds with the bound: there are no more pathnames to read
from, with three techs each. -/
theorem resolve_depthBound (hw : Pathname.isAbsolute m.workingDirectory.toList = true)
    (ht : t.root.Keyed) (h : resolve (library compiler o m) n c t = .ok t')
    (hn : ∀ files, Nests (library compiler o m) c t files → files.Nodup) :
    resolve (library compiler o m) (depthBound m) c t = .ok t' := by
  refine resolve_of_nests ht h fun files hf => ?_
  have hs : files ⊆ m.names ×ˢ [Tech.js, .json, .txt] := by
    intro file hfi
    obtain ⟨segments, text, heq, hr⟩ := hf.exists_text file hfi
    have hm : m.absolute file.1 ∈ m.names := Memory.mem_names_of_read hr
    have hself : m.absolute file.1 = file.1 := heq ▸ Pathname.resolveFrom_resolved hw segments _
    exact mem_product.2 ⟨hself ▸ hm, by cases file.2 <;> simp⟩
  have hle := (subperm_of_subset (hn files hf) hs).length_le
  rwa [length_product, Nat.mul_comm] at hle

end Compile

end Inlay
