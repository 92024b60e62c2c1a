/-
Documents of trees that were produced here.

A document is read by the shapes of its values, so a tree is found again in
its document if nothing in it can be mistaken for something else. In a file
nothing can: its nodes have the properties of their kinds and no others
(`Regular`), and its holes stand in arrays (`Writable`). A node that is
kept has its properties and loses comments at most, so all this holds of
what resolving makes too (`Durable.resolve`).
-/
import Inlay.Proofs.Inclusion.Generation
import Inlay.Proofs.Script.Bounds

namespace Inlay

open Script (Regular Writable isGetterOrSetter)

-- == nodes

theorem Json.fieldOfJson_of_isPlain {j : Json} (h : j.isPlain = true) (key : String) :
    Node.fieldOfJson key j = .ok (.data j) := by
  cases j with
  | arr items => cases h
  | obj members =>
    have hn : isNodeJson (.obj members) = false := by simpa [isPlain] using h
    rw [Node.fieldOfJson, hn]
    rfl
  | _ => rfl

namespace Script

variable {n : Node} {kind : Kind} {key : String}

/-- No kind has a property that a document would take for a member of its
own. -/
theorem notMem_reservedKeys (h : key ∈ listKeys kind ++ (soleKeys kind ++ noteKeys kind)) :
    key ∉ "comments" :: reservedKeys := by
  cases kind with
  | other name => cases h
  | _ => revert key; decide

theorem isSome_listKey (h : Writable n) (hke : n.kind.listKey = some key) :
    (n.children? key).isSome = true := by
  have hm {role : Role} (hw : wants n.kind = [(key, .list role)]) :
      (n.children? key).isSome = true := by
    have hl := meets_iff.1 h.wants (key, .list role) (by rw [hw]; exact .head _)
    rw [Want.isMet, Option.any_eq_true] at hl
    obtain ⟨list, hl, -⟩ := hl
    exact Option.isSome_of_mem hl
  unfold Kind.listKey at hke
  split at hke <;> cases hke <;> next hk => exact hm (by rw [hk]; rfl)

/-- What a node is made of can be told from its document. -/
theorem Regular.legible (h : Regular n) (hw : Writable n) (hp : Positioned n) : n.Legible := by
  refine ⟨Kind.ofName_name h.known, fun e he hk => ?_, fun e he j hj => ?_,
    fun key hk => isSome_listKey hw hk, hp.range, hp.loc,
    hp.comments⟩
  · exact notMem_reservedKeys (h.mem_keys (List.mem_map_of_mem he)) (.tail _ hk)
  · have hpa := h.parts e he
    rw [isPart, hj] at hpa
    exact Json.fieldOfJson_of_isPlain (Bool.and_eq_true_iff.1 hpa).1 e.1

theorem Regular.eq_hole (h : Regular n) (hp : Positioned n) (hk : n.kind = .elision) :
    n = .hole := by
  have hr := h.hole hk
  obtain ⟨hlo, hl, ht⟩ := hp.bare hr
  have hpr : n.props = [] := by
    refine List.eq_nil_iff_forall_not_mem.2 fun e he => ?_
    have hke := h.mem_keys (List.mem_map_of_mem he)
    rw [hk] at hke
    cases hke
  cases n
  cases hk
  cases hpr
  cases hr
  cases hlo
  cases hl
  cases ht
  rfl

end Script

-- == runs

/-- The texts of all files can be positioned in. -/
def Library.Fits (lib : Library) : Prop :=
  ∀ path text, lib.read path = .ok text → Text.Fits text.toList

theorem Library.fits_ofFiles {files : List (String × String)}
    (h : ∀ e ∈ files, Text.Fits e.2.toList) : (Library.ofFiles files).Fits := by
  intro path text hr
  unfold Library.ofFiles at hr
  dsimp only at hr
  split at hr
  · next hl =>
    cases hr
    obtain ⟨front, rest, rfl, -⟩ := Entries.split_of_lookup hl
    exact h (path, text) (List.mem_append_right _ (.head _))
  · cases hr

namespace Inclusion

section Kept

variable {O : Node → Prop} {marker : String} {grows : Bool} {h r : Node}
  {ps qs : Node.Props}

theorem KeptProps.exists_of_mem {e : String × Field Node} (hk : KeptProps O marker grows ps qs)
    (he : e ∈ qs) : ∃ v, (e.1, v) ∈ ps ∧ KeptField O marker (grows && e.1 == "body") v e.2 := by
  induction qs generalizing ps with
  | nil => cases he
  | cons e' qs ih =>
    obtain ⟨key, w⟩ := e'
    obtain ⟨v, ps, rfl, hf, hr⟩ := hk.of_cons
    rcases List.mem_cons.1 he with rfl | he
    · exact ⟨v, .head _, hf⟩
    · obtain ⟨v', hv', hf'⟩ := ih hr he
      exact ⟨v', .tail _ hv', hf'⟩

theorem regular_of_like (hl : Like marker h r) (hp : KeptProps O marker grows h.props r.props)
    (hh : Regular h) : Regular r := by
  refine ⟨hl.kind ▸ hh.known, fun e he => ?_, fun hk => ?_, fun hk hli => ?_, fun hk hw f hf => ?_⟩
  · obtain ⟨v, hv, hfi⟩ := hp.exists_of_mem he
    have hpa := hh.parts _ hv
    obtain ⟨key, w⟩ := e
    rw [hl.kind]
    cases hfi <;> exact hpa
  · rw [hl.range, hh.hole (hl.kind ▸ hk)]
  · obtain ⟨v, hv, hfi, -⟩ := hp.exists_lookup (Node.children?_eq_some_iff.1 hli)
    cases hfi with
    | nodes hno =>
      obtain rfl := hno.eq_nil
      exact hh.sequence (hl.kind ▸ hk) (Node.children?_eq_some_iff.2 hv)
  · have hw' : isGetterOrSetter h = true := by
      rwa [isGetterOrSetter, Node.string?, hp.data?_eq] at hw
    obtain ⟨v, hv, hfi, -⟩ := hp.exists_lookup (Node.child?_eq_some_iff.1 hf)
    cases hfi with
    | node hn =>
      obtain ⟨hfu, hid⟩ :=
        hh.accessor (hl.kind ▸ hk) hw' _ (Node.child?_eq_some_iff.2 hv)
      cases hn with
      | kept hl' hp' =>
        refine ⟨hl'.kind.trans hfu, Option.eq_none_iff_forall_ne_some.2 fun c hc => ?_⟩
        obtain ⟨v, hv, hfi, -⟩ := hp'.exists_lookup (Node.child?_eq_some_iff.1 hc)
        cases hfi with
        | node => rw [Node.child?_eq_some_iff.2 hv] at hid; cases hid
      | replaced hy =>
        -- functions stay where they are
        have ha := hy.isAtomic
        rw [hfu] at ha
        cases ha

theorem positioned_of_like (hl : Like marker h r) (hh : Positioned h) : Positioned r := by
  have hle := hl.leading.sublist
  have ht := hl.trailing.sublist
  refine ⟨hl.range ▸ hh.range, hl.loc ▸ hh.loc, fun c hc => ?_, fun hn => ?_⟩
  · exact hh.comments c ((hle.append ht).subset hc)
  · obtain ⟨hlo, hlea, htr⟩ := hh.bare (hl.range ▸ hn)
    rw [hlea] at hle
    rw [htr] at ht
    exact ⟨hl.loc ▸ hlo, List.sublist_nil.1 hle, List.sublist_nil.1 ht⟩

end Kept

section Runs

variable {lib : Library} {depth : Nat} {c : Context} {t t' : Tree}

/-- What is known of a tree that can be kept in a document. -/
structure Durable (t : Tree) : Prop extends Sturdy t where
  regular : t.root.Every Regular
  positioned : t.root.Every Positioned
  comments : ∀ c ∈ t.comments, c.Fits

theorem durable_of_parse {tech : Tech} {text : String} {source : Option String}
    (h : tech.parse text source = .ok t) (ht : Text.Fits text.toList) : Durable t := by
  obtain ⟨hp, hc⟩ := Tech.positioned_of_parse h ht
  exact ⟨sturdy_of_parse h, Tech.regular_of_parse h, hp, hc⟩

theorem Included.durable {a : Node} (hli : lib.Fits) (ha : Included lib c t a) :
    a.Every Regular ∧ a.Every Positioned := by
  obtain ⟨d, tech, text, u, hr, hm⟩ := ha
  obtain ⟨c', ho⟩ := hr.mentions.exists_opens
  have hu := durable_of_parse ho.parsed (hli _ _ ho.read)
  obtain ⟨list, hl, ha⟩ := Tree.mem_body_iff.1 hm
  obtain ⟨i, hk⟩ := Node.mem_kids_of_children? hl ha
  exact ⟨(Node.every_iff.1 hu.regular).2 _ hk, (Node.every_iff.1 hu.positioned).2 _ hk⟩

theorem Durable.resolve (ht : Durable t) (hli : lib.Fits) (h : resolve lib depth c t = .ok t') :
    Durable t' := by
  obtain ⟨-, hco⟩ := resolve_conserves_shaped depth ht.shaped ht.nodup h
  refine ⟨ht.toSturdy.resolve h, ?_, ?_, fun c hc => ?_⟩
  · exact hco.root.every (fun a ha => (ha.durable hli).1)
      (fun _ _ hl hp => regular_of_like hl hp) ht.regular
  · exact hco.root.every (fun a ha => (ha.durable hli).2)
      (fun _ _ hl _ => positioned_of_like hl) ht.positioned
  · exact ht.comments c (hco.comments.sublist.subset hc)

/-- A tree whose nodes are all as the files have them is found again in
its document. -/
theorem Durable.found (h : Durable t) : Tree.ofJson t.toJson = .ok t := by
  refine (Tree.ofJson_toJson_iff (fun n hn => ?_) (fun hkey => ?_) h.comments).2
    ⟨by rw [h.kind]; nofun, fun n hn e he m hm hk => ?_⟩
  · exact (h.regular n hn).legible (h.writable n hn) (h.positioned n hn)
  · exact Script.notMem_reservedKeys (h.regular.self.mem_keys hkey) (.head _)
  · have hke := (h.shaped n hn).keys
    obtain ⟨hs, hr⟩ := Node.every_iff_props.1 (h.regular.of_mem hn)
    obtain ⟨-, hp⟩ := Node.every_iff_props.1 (h.positioned.of_mem hn)
    obtain ⟨hl, -, hkey⟩ := hs.list_of_elision hke (h.writable n hn) he hm hk
    exact ⟨hl, hkey, (hr e he m hm).self.eq_hole (hp e he m hm).self hk⟩

end Runs

end Inclusion

/-- The trees that come about from files: they are read from one, and they
can be resolved. -/
inductive Produced : Tree → Prop
  | parsed {t : Tree} (tech : Tech) (text : String) (source : Option String)
      (htext : Text.Fits text.toList) (h : tech.parse text source = .ok t) : Produced t
  | resolved {t t' : Tree} (lib : Library) (depth : Nat) (c : Context) (hlib : lib.Fits)
      (ht : Produced t) (h : resolve lib depth c t = .ok t') : Produced t'

/-- Every tree that comes about from files is found again in its document:
all kinds, properties and their order, holes, positions and comments. -/
theorem ofJson_toJson_of_produced {t : Tree} (h : Produced t) : Tree.ofJson t.toJson = .ok t := by
  refine Inclusion.Durable.found ?_
  induction h with
  | parsed tech text source htext h => exact Inclusion.durable_of_parse h htext
  | resolved lib depth c hlib _ h ih => exact ih.resolve hlib h

/-- A script with holes in an array, a text in the place of a literal and
another script in front. -/
def Script.patchwork : String :=
  "/*borschik:include:a.js*/ /**/ x = [, 'borschik:include:c.txt', , /re/g];"

theorem ofJson_toJson_of_produced_patchwork :
    ∃ t t', Tech.js.parse Script.patchwork none = .ok t ∧
      resolve .nested 3 (.start none none) t = .ok t' ∧
      Tree.ofJson t'.toJson = .ok t' := by
  have hok : (Tech.js.parse Script.patchwork none >>= resolve .nested 3 (.start none none)).toBool =
      true := by decide +kernel
  obtain ⟨t', h⟩ := exists_of_toBool hok
  obtain ⟨t, hparse, hresolve⟩ := bind_ok_iff.1 h
  have hlib : Library.nested.Fits := Library.fits_ofFiles (by decide +kernel)
  have ht : Produced t := .parsed .js Script.patchwork none (by decide +kernel) hparse
  exact ⟨t, t', hparse, hresolve, ofJson_toJson_of_produced (.resolved _ _ _ hlib ht hresolve)⟩

end Inlay
