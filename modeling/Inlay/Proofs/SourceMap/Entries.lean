/-
Source maps that are read back.

`expand?` looks the numbers of a segment up in the tables of the map, which
list each text once (`pairwise_eraseDups`); of several entries for one
position the last one is left (`lasting`). If no entry stands before an
earlier one, the mappings are read as the entries that are left.
-/
import Inlay.Proofs.SourceMap.Fidelity

namespace Inlay.SourceMap

open List

-- == tables

/-- What passes a filter keeps the order of first use. -/
theorem idxOf_lt_of_filter {xs : List String} {p : String → Bool} {a b : String} (hb : p b = true)
    (h : (xs.filter p).idxOf a < (xs.filter p).idxOf b) : xs.idxOf a < xs.idxOf b := by
  induction xs with
  | nil => exact absurd h (Nat.lt_irrefl _)
  | cons x xs ih =>
    by_cases hx : p x = true
    · rw [filter_cons_of_pos hx] at h
      grind
    · rw [filter_cons_of_neg hx] at h
      have hlt := ih h
      grind

/-- Texts without repetitions stand in the order of first use. -/
theorem pairwise_eraseDups (xs : List String) :
    xs.eraseDups.Pairwise fun a b => xs.idxOf a < xs.idxOf b := by
  match xs with
  | [] => exact .nil
  | x :: xs =>
    have ho {a : String} (ha : a ∈ (xs.filter fun a => !a == x).eraseDups) : (!a == x) = true :=
      (mem_filter.1 (mem_eraseDups.1 ha)).2
    rw [eraseDups_cons]
    refine pairwise_cons.2 ⟨fun a ha => ?_, ?_⟩
    · have hne := ho ha
      grind
    · refine (pairwise_eraseDups _).imp_of_mem fun {a b} ha hb hlt => ?_
      have hlt := idxOf_lt_of_filter (ho hb) hlt
      have hne := ho ha
      have hne' := ho hb
      grind
termination_by xs.length
decreasing_by exact Nat.lt_succ_of_le (length_filter_le _ _)

-- == entries

/-- The entries that no later one has the position of. -/
def lasting : List Entry → List Entry
  | [] => []
  | e :: rest => if ∃ e' ∈ rest, e'.position = e.position then lasting rest else e :: lasting rest

theorem mem_of_mem_lasting {e : Entry} {entries : List Entry} (h : e ∈ lasting entries) :
    e ∈ entries := by
  fun_induction lasting entries with
  | case1 => exact h
  | case2 e' rest hla ih => exact .tail _ (ih h)
  | case3 e' rest hl ih =>
    rcases mem_cons.1 h with rfl | h
    · exact .head _
    · exact .tail _ (ih h)

/-- Where no entry stands before an earlier one, those for one position
stand in a row. -/
theorem keepLast_map {entries : List Entry} {f : Entry → Mapping}
    (hf : ∀ e, (f e).position = e.position)
    (he : entries.Pairwise fun e e' => NotBehind e.position e'.position) :
    keepLast (entries.map f) = (lasting entries).map f := by
  have hp (e e' : Entry) : (f e).line = (f e').line ∧ (f e).column = (f e').column ↔
      e.position = e'.position := by
    rw [← hf e, ← hf e', Mapping.position, Mapping.position, Prod.mk.injEq]
  fun_induction lasting entries with
  | case1 => rfl
  | case2 e rest hla ih =>
    obtain ⟨later, hm, heq⟩ := hla
    cases rest with
    | nil => cases hm
    | cons next rest =>
      have hn : e.position = next.position := by
        have hle := rel_of_pairwise_cons he (.head _)
        have hge : NotBehind next.position e.position := by
          rcases mem_cons.1 hm with rfl | hm
          · exact heq ▸ .refl _
          · exact heq ▸ rel_of_pairwise_cons he.of_cons hm
        unfold NotBehind at hle hge
        exact Prod.ext (by omega) (by omega)
      rw [map_cons, map_cons, keepLast, if_pos ((hp _ _).2 hn)]
      exact ih he.of_cons
  | case3 e rest hl ih =>
    cases rest with
    | nil => rfl
    | cons next rest =>
      rw [map_cons, map_cons, keepLast,
        if_neg fun heq => hl ⟨next, .head _, ((hp _ _).1 heq).symm⟩, map_cons]
      exact congrArg _ (ih he.of_cons)

-- == reading

/-- The entry as segments tell it, with the lines of the source counted
from zero. -/
def Entry.fromZero (e : Entry) : Entry :=
  { e with origin := ⟨e.origin.line - 1, e.origin.column⟩ }

/-- The entry that a segment tells by the tables of a map. -/
def expand? (map : SourceMap) (s : Segment) : Option Entry := do
  let origin ← s.origin
  let source ← map.sources[origin.source]?
  let name ← match origin.name with
    | some i => map.names[i]?.map some
    | none => some none
  some ⟨s.line, s.column, source, ⟨origin.line, origin.column⟩, name⟩

theorem expand?_mapping {entries : List Entry} {e : Entry} (he : e ∈ entries) :
    (ofEntries entries).expand?
      (e.mapping (ofEntries entries).sources (ofEntries entries).names).toSegment =
        some e.fromZero := by
  have hs : (ofEntries entries).sources[(ofEntries entries).sources.idxOf e.source]? =
      some e.source := getElem?_idxOf (mem_eraseDups.2 (mem_map_of_mem he))
  have hn {name : String} (hn : e.name = some name) :
      (ofEntries entries).names[(ofEntries entries).names.idxOf name]? = some name :=
    getElem?_idxOf (mem_eraseDups.2 (mem_filterMap.2 ⟨e, he, hn⟩))
  cases h : e.name with
  | none => simp [expand?, Mapping.toSegment, Entry.mapping, Entry.fromZero, hs, h]
  | some name =>
    simp [expand?, Mapping.toSegment, Entry.mapping, Entry.fromZero, hs, h, hn h]

theorem mapM_expand? {entries es : List Entry} (hes : ∀ e ∈ es, e ∈ entries) :
    ((es.map (Entry.mapping (ofEntries entries).sources (ofEntries entries).names)).map
      Mapping.toSegment).mapM (ofEntries entries).expand? = some (es.map Entry.fromZero) := by
  induction es with
  | nil => rfl
  | cons e es ih =>
    obtain ⟨he, hes⟩ := forall_mem_cons.1 hes
    rw [map_cons, map_cons, mapM_cons, expand?_mapping he, ih hes]
    rfl

/-- The table lists the texts that are used, in the order of first use. -/
structure IsTableOf (table uses : List String) : Prop where
  mem_iff : ∀ text, text ∈ table ↔ text ∈ uses
  ordered : table.Pairwise fun a b => uses.idxOf a < uses.idxOf b

theorem isTableOf_eraseDups (uses : List String) : IsTableOf uses.eraseDups uses :=
  ⟨fun _ => mem_eraseDups, pairwise_eraseDups uses⟩

/-- Mappings are read back as the last entries for their positions. -/
theorem decode_entries {entries : List Entry}
    (hentries : entries.Pairwise fun e e' => NotBehind e.position e'.position) :
    (decode (encode (ofEntries entries).mappings)).bind (·.mapM (ofEntries entries).expand?) =
        some ((lasting entries).map Entry.fromZero) ∧
      IsTableOf (ofEntries entries).sources (entries.map (·.source)) ∧
      IsTableOf (ofEntries entries).names (entries.filterMap (·.name)) := by
  refine ⟨?_, isTableOf_eraseDups _, isTableOf_eraseDups _⟩
  have hmappings : (ofEntries entries).mappings = (lasting entries).map
      (Entry.mapping (ofEntries entries).sources (ofEntries entries).names) :=
    keepLast_map (fun _ => rfl) hentries
  have hlines : (ofEntries entries).mappings.Pairwise fun m m' => m.line ≤ m'.line := by
    refine (pairwise_keepLast (pairwise_map.2 hentries)).imp fun {m m'} hbefore => ?_
    rcases hbefore with hlt | heq
    · exact Nat.le_of_lt hlt
    · exact Nat.le_of_eq heq.1
  rw [decode_encode hlines, hmappings]
  exact mapM_expand? fun e => mem_of_mem_lasting

/-- Two entries for one position, and one on a later line that uses the
same source. -/
theorem decode_entries_replaced :
    let entries : List Entry :=
      [⟨0, 0, "b.js", ⟨1, 0⟩, none⟩, ⟨0, 0, "a.js", ⟨7, 40⟩, some "x"⟩,
        ⟨2, 4, "b.js", ⟨3, 1⟩, none⟩]
    (decode (encode (ofEntries entries).mappings)).bind (·.mapM (ofEntries entries).expand?) =
      some [⟨0, 0, "a.js", ⟨6, 40⟩, some "x"⟩, ⟨2, 4, "b.js", ⟨2, 1⟩, none⟩] := by
  intro entries
  refine (decode_entries ?_).1.trans (by decide)
  simp [entries, NotBehind, Entry.position]

end Inlay.SourceMap
