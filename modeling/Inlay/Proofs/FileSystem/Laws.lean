/-
What is written can be read.

A file that was written is there with its data, whatever pathname it was
written by (`LawfulFileSystem`): in memory because links are not changed by
writing, on a disk because the place that a pathname leads to was a file or
nothing.
-/
import Inlay.FileSystem.Disk
import Inlay.FileSystem.Memory
import Inlay.Proofs.Basics

namespace Inlay

class LawfulFileSystem (σ : Type) [FileSystem σ] : Prop where
  read_write : ∀ {files files' : σ} {path data : String},
    FileSystem.write files path data = .ok files' → FileSystem.read files' path = .ok data

namespace Memory

theorem lookup_write (m : Memory) (path data place : String) :
    (m.write path data).files.lookup place =
      if place = m.target path then some data else m.files.lookup place :=
  Entries.lookup_insert ..

theorem get?_write_self (m : Memory) (path data : String) :
    (m.write path data).get? path = some data :=
  (lookup_write m path data _).trans (if_pos rfl)

variable {m : Memory} {path text : String}

theorem get?_of_read (h : m.read path = .ok text) : m.get? path = some text := by
  unfold read at h
  split at h
  · next heq =>
    cases h
    exact heq
  · cases h

theorem exists_of_read (h : m.read path = .ok text) : ∃ file ∈ m.files, file.2 = text := by
  obtain ⟨front, rest, hf, -⟩ := List.lookup_eq_some_iff.1 (get?_of_read h)
  exact ⟨(_, text), hf ▸ List.mem_append_right front (.head rest), rfl⟩

theorem mem_names_of_read (h : m.read path = .ok text) : m.absolute path ∈ m.names := by
  have hmem {entries : List (String × String)} {place : String}
      (hl : (entries.lookup place).isSome = true) : place ∈ entries.map (·.1) := by
    obtain ⟨e, he, hk⟩ := List.lookup_isSome_iff.1 hl
    exact List.mem_map.2 ⟨e, he, (eq_of_beq hk).symm⟩
  have hg := Option.isSome_of_eq_some (get?_of_read h)
  rw [get?, target, follow] at hg
  cases hl : m.links.lookup (m.absolute path) with
  | none =>
    rw [hl] at hg
    exact List.mem_append_left _ (hmem hg)
  | some place => exact List.mem_append_right _ (hmem (Option.isSome_of_eq_some hl))

instance : LawfulFileSystem Memory where
  read_write := by
    intro m m' path data h
    cases h
    show Memory.read (m.write path data) path = .ok data
    rw [read, get?_write_self]

end Memory

namespace Disk

variable {d : Disk} {place : DiskPath} {data : String} {names : List (List Char)} {here : DiskPath}
  {links : Nat}

theorem entry?_put (name : List Char) (above q : DiskPath) (data : String) :
    Disk.entry? (d.put (name :: above) data) q =
      if q = name :: above then some (.file data) else d.entry? q := by
  cases q with
  | nil => rfl
  | cons _ _ =>
    unfold entry? put
    dsimp only [List.isEmpty_cons]
    induction d.entries with
    | nil => grind
    | cons e rest ih => grind

/-- Where the pathname leads there is a file, or one can be made. -/
def Found.Leads (place : DiskPath) : Found → Prop
  | .file path _ | .absent path => path = place
  | .directory _ | .nowhere => False

/-- Such a place is neither the root nor one that names go on from. -/
theorem exists_of_leads (h : (d.follow links here names).Leads place) :
    ∃ name above, place = name :: above ∧
      (d.entry? place = none ∨ ∃ old, d.entry? place = some (.file old)) := by
  fun_induction follow d links here names with
  | case1 | case6 | case7 | case10 => cases h
  | case2 _ _ _ ih | case3 _ _ _ _ _ _ ih | case4 _ _ _ _ _ _ _ ih | case8 _ _ _ _ _ _ _ _ _ ih =>
    exact ih h
  | case5 _ here name _ _ _ old he => exact ⟨name, here, h.symm, .inr ⟨old, h ▸ he⟩⟩
  | case9 _ here name _ _ _ he => exact ⟨name, here, h.symm, .inl (h ▸ he)⟩

/-- A pathname leads to the same place when a file was written there. -/
theorem follow_put (h : (d.follow links here names).Leads place) (data : String) :
    (d.put place data).follow links here names = .file place data := by
  obtain ⟨last, above, rfl, hf⟩ := exists_of_leads h
  have ho {q : DiskPath} {entry : DiskEntry} (hq : d.entry? q = some entry)
      (he : ∀ old, entry ≠ .file old) :
      Disk.entry? (d.put (last :: above) data) q = some entry := by
    rw [entry?_put, if_neg, hq]
    rintro rfl
    rcases hf with hno | ⟨old, hold⟩
    · rw [hno] at hq
      cases hq
    · rw [hold] at hq
      exact he old (Option.some.inj hq).symm
  have hh : Disk.entry? (d.put (last :: above) data) (last :: above) = some (.file data) := by
    rw [entry?_put, if_pos rfl]
  fun_induction follow d links here names with
  | case1 | case6 | case7 | case10 => cases h
  | case2 links here rest ih =>
    rw [follow, if_pos rfl]
    exact ih h
  | case3 links here name rest hup hn ih =>
    rw [follow, if_neg hup, if_pos hn]
    exact ih h
  | case4 links here name rest hup hn he ih =>
    rw [follow, if_neg hup, if_neg hn, ho he nofun]
    exact ih h
  | case5 links here name rest hup hn old he hr =>
    rw [follow, if_neg hup, if_neg hn, show name :: here = last :: above from h, hh]
    exact if_pos hr
  | case8 here name rest hup hn target he links start ih =>
    rw [follow, if_neg hup, if_neg hn, ho he nofun]
    exact ih h
  | case9 links here name rest hup hn he hr =>
    rw [follow, if_neg hup, if_neg hn, show name :: here = last :: above from h, hh]
    exact if_pos hr

theorem find_put {path : String} (h : (d.find path).Leads place) (data : String) :
    (d.put place data).find path = .file place data := by
  unfold find at h ⊢
  dsimp only at h ⊢
  split at h
  · cases h
  · next hp =>
    rw [if_neg hp]
    exact follow_put h data

instance : LawfulFileSystem Disk where
  read_write := by
    intro d d' path data h
    show Disk.read d' path = .ok data
    change Disk.write d path data = .ok d' at h
    unfold write at h
    split at h
    · next place old hfind =>
      cases h
      rw [read, find_put (by rw [hfind]; rfl)]
    · next place hfind =>
      cases h
      rw [read, find_put (by rw [hfind]; rfl)]
    · cases h
    · cases h

end Disk

end Inlay
