/-
Trees that were resolved have code.

The needs of the generator are met node by node (`Writable`), so a result
meets them if its files do: a child that is replaced is replaced by another
atomic node, which serves wherever the first one did, and what a body gains
can stand there by itself. Files of every tech are writable.
-/
import Inlay.FileSystem.Memory
import Inlay.Proofs.Compiling
import Inlay.Proofs.Inclusion.Conservation
import Inlay.Proofs.Script.Provision
import Inlay.Proofs.Script.Writing

namespace Inlay

open Script (Writable StandsFor Role)

-- == runs

namespace Inclusion

section Kept

variable {O : Node → Prop} {marker : String} {grows : Bool} {h r : Node}
  {ps qs : Node.Props} {key : String}

theorem Kept.standsFor (hk : Kept O marker h r) : StandsFor r h := by
  intro role hr
  by_cases ha : h.kind.isAtomic = true
  · exact Role.admits_of_isAtomic ha (hk.isAtomic_eq.trans ha) hr
  · rwa [hk.kind_eq (Bool.eq_false_iff.2 ha)]

theorem KeptProps.exists_kept {v : Field Node} (hke : KeptProps O marker grows ps qs)
    (hv : ps.lookup key = some v) :
    ∃ w, qs.lookup key = some w ∧ KeptField O marker (grows && key == "body") v w := by
  obtain ⟨hn, -⟩ | ⟨v', w, hv', hw, hf⟩ := hke.lookup key
  · rw [hn] at hv
    cases hv
  · rw [hv'] at hv
    cases hv
    exact ⟨w, hw, hf⟩

theorem KeptProps.data?_eq (hp : KeptProps O marker grows h.props r.props) :
    r.data? key = h.data? key := by
  refine Option.ext fun j => ?_
  rw [Node.data?_eq_some_iff, Node.data?_eq_some_iff]
  constructor
  · intro hw
    obtain ⟨v, hv, hf, -⟩ := hp.exists_lookup hw
    cases hf
    exact hv
  · intro hv
    obtain ⟨w, hw, hf⟩ := hp.exists_kept hv
    cases hf
    exact hw

theorem writable_of_like (hO : ∀ a, O a → Role.item.admits a.kind = true) (hl : Like marker h r)
    (hp : KeptProps O marker h.kind.isContainer h.props r.props) (hh : Writable h) :
    Writable r := by
  refine hh.transfer hl.kind (fun key => hp.data?_eq) ?_ ?_ ?_
  · intro key c hc
    obtain ⟨w, hw, hf⟩ := hp.exists_kept (Node.child?_eq_some_iff.1 hc)
    cases hf with
    | node hn => exact ⟨_, Node.child?_eq_some_iff.2 hw, hn.standsFor⟩
  · intro key c' hc'
    obtain ⟨v, hv, hf, -⟩ := hp.exists_lookup (Node.child?_eq_some_iff.1 hc')
    cases hf with
    | node hn => exact ⟨_, Node.child?_eq_some_iff.2 hv, hn.standsFor⟩
  · intro key cs hcs
    obtain ⟨w, hw, hf⟩ := hp.exists_kept (Node.children?_eq_some_iff.1 hcs)
    cases hf with
    | nodes hno =>
      refine ⟨_, Node.children?_eq_some_iff.2 hw, fun c' hc' => ?_⟩
      obtain ⟨a, hc | ⟨hg, ha⟩, hk⟩ := hno.exists_of_mem hc'
      · exact .inl ⟨a, hc, hk.standsFor⟩
      · obtain ⟨hco, hke⟩ := Bool.and_eq_true_iff.1 hg
        exact .inr ⟨hco, eq_of_beq hke, hk.standsFor .item (hO a ha)⟩

end Kept

section Runs

variable {lib : Library} {depth : Nat} {c : Context} {t t' : Tree} {o : Options} {comp : Compiler}
  {σ : Type}

theorem Included.item {a : Node} (ha : Included lib c t a) :
    Role.item.admits a.kind = true ∧ a.Every Writable := by
  obtain ⟨d, tech, text, u, hr, hme⟩ := ha
  have hu := tech.writable_of_parse hr.mentions.parsed
  obtain ⟨hs, hki⟩ := Node.every_iff.1 hu
  obtain ⟨list, hl, ha⟩ := Tree.mem_body_iff.1 hme
  have hkin := tech.kind_of_parse hr.mentions.parsed
  have hm := hs.wants
  rw [hkin] at hm
  have hi := hm.1
  rw [Script.Want.isMet, hl] at hi
  refine ⟨List.all_eq_true.1 hi a ha, ?_⟩
  obtain ⟨i, hk⟩ := Node.mem_kids_of_children? hl ha
  exact hki _ hk

/-- What is known of a tree throughout a compile of a file. -/
structure Sturdy (t : Tree) : Prop where
  kind : t.root.kind = .program
  shaped : t.root.Every Shaped
  nodup : t.comments.Nodup
  writable : t.root.Every Writable

theorem sturdy_of_parse {tech : Tech} {text : String} {source : Option String}
    (h : tech.parse text source = .ok t) : Sturdy t :=
  ⟨tech.kind_of_parse h, tech.shaped_of_parse h, tech.nodup_of_parse h, tech.writable_of_parse h⟩

theorem Sturdy.resolve (ht : Sturdy t) (h : resolve lib depth c t = .ok t') : Sturdy t' := by
  obtain ⟨hs, hc⟩ := resolve_conserves_shaped depth ht.shaped ht.nodup h
  refine ⟨?_, hs, ht.nodup.sublist hc.comments.sublist, ?_⟩
  · rw [hc.root.kind_eq (by rw [ht.kind]; rfl), ht.kind]
  · exact hc.root.every (fun a ha => ha.item.2)
      (fun _ _ hl hp => writable_of_like (fun a ha => ha.item.1) hl hp) ht.writable

theorem Sturdy.transformed [FileSystem σ] {files : σ} {transforms : List Transform} (ht : Sturdy t)
    (h : Compile.transformed comp o c files t transforms = .ok t') : Sturdy t' := by
  induction transforms generalizing t with
  | nil =>
    cases h
    exact ht
  | cons transform rest ih =>
    obtain ⟨u, hu, h⟩ := bind_ok_iff.1 h
    exact ih (ht.resolve hu) h

theorem sturdy_of_welds [FileSystem σ] {input : Input} {files : σ} {script : Tech}
    (hi : (∃ text, input = .code text) ∨ ∃ path, input = .file path)
    (h : comp.welds input o files = .ok (script, t)) : Sturdy t := by
  obtain ⟨script', -, h⟩ := bind_ok_iff.1 h
  obtain ⟨transforms, -, h⟩ := bind_ok_iff.1 h
  obtain ⟨⟨u, context⟩, hl, h⟩ := bind_ok_iff.1 h
  obtain ⟨t', ht', h⟩ := bind_ok_iff.1 h
  cases h
  refine Sturdy.transformed ?_ ht'
  rcases hi with ⟨text, rfl⟩ | ⟨path, rfl⟩
  · obtain ⟨u', hp, hl⟩ := bind_ok_iff.1 hl
    cases hl
    exact sturdy_of_parse hp
  · obtain ⟨text, -, hl⟩ := bind_ok_iff.1 hl
    obtain ⟨u', hp, hl⟩ := bind_ok_iff.1 hl
    cases hl
    exact sturdy_of_parse hp

end Runs

end Inclusion

/-- Once a tree is there, generation cannot fail. -/
theorem Compiler.generation_succeeds {σ : Type} [FileSystem σ] {c : Compiler} {input : Input}
    {o : Options} {files : σ} {tree : Tree}
    (hinput : (∃ text, input = .code text) ∨ ∃ path, input = .file path)
    (htree : (c.run input o files).2.artifacts.tree = some tree) :
    (∀ indented, (∃ g, Tech.js.generate indented tree = .ok g) ∧
      (∃ code, Tech.js.generateCode indented tree = .ok code) ∧
      ∃ map, Tech.js.generateMap indented tree = .ok map) ∧
    ∃ outcome, Compile.generate .js o tree = .ok outcome := by
  rw [tree_run] at htree
  obtain ⟨⟨script, tree'⟩, hwelds, rfl⟩ := Option.map_eq_some_iff.1 htree
  have hsturdy := Inclusion.sturdy_of_welds hinput (eq_ok_of_toOption hwelds)
  obtain ⟨pieces, hpieces⟩ := Script.program_succeeds hsturdy.writable hsturdy.kind 0
  have hgenerate (indented : Bool) : ∃ g, Tech.js.generate indented tree' = .ok g :=
    ⟨_, mapError_eq_ok_iff.2 (bind_ok_iff.2 ⟨pieces, hpieces, rfl⟩)⟩
  have hcode (indented : Bool) : ∃ code, Tech.js.generateCode indented tree' = .ok code :=
    ⟨_, mapError_eq_ok_iff.2 (bind_ok_iff.2 ⟨pieces, hpieces, rfl⟩)⟩
  have hmap (indented : Bool) : ∃ map, Tech.js.generateMap indented tree' = .ok map :=
    ⟨_, mapError_eq_ok_iff.2 (bind_ok_iff.2 ⟨pieces, hpieces, rfl⟩)⟩
  refine ⟨fun indented => ⟨hgenerate indented, hcode indented, hmap indented⟩, ?_⟩
  unfold Compile.generate
  split
  · obtain ⟨g, hg⟩ := hgenerate o.indented
    exact ⟨_, bind_ok_iff.2 ⟨g, hg, rfl⟩⟩
  · obtain ⟨map, hmap⟩ := hmap o.indented
    exact ⟨_, bind_ok_iff.2 ⟨map, hmap, rfl⟩⟩
  · obtain ⟨code, hcode⟩ := hcode o.indented
    exact ⟨_, bind_ok_iff.2 ⟨code, hcode, rfl⟩⟩
  · exact ⟨_, rfl⟩

/-- A script that includes a text, an array and a name. -/
def Memory.mixed : Memory where
  files :=
    [ ("/m.js", "f('borschik:include:t.txt', [/*borschik:include:a.json*/]); /*borschik:include:n.json*/"),
      ("/t.txt", "text"), ("/a.json", "[1, , /re/g]"), ("/n.json", "name") ]
  links := []

theorem Compiler.generation_succeeds_mixed :
    ∃ tree, (Compiler.builtin.run (.file "m.js") .default Memory.mixed).2.artifacts.tree = some tree ∧
      tree.body.map (·.kind) = [.expressionStatement, .identifier] ∧
      ∃ code, Tech.js.generateCode true tree = .ok code := by
  have hok : (Compiler.builtin.welds (.file "m.js") .default Memory.mixed).toOption.map
      (fun outcome => outcome.2.body.map (·.kind)) = some [.expressionStatement, .identifier] := by
    decide +kernel
  obtain ⟨⟨script, tree⟩, hwelds, hbody⟩ := Option.map_eq_some_iff.1 hok
  have htree : (Compiler.builtin.run (.file "m.js") .default Memory.mixed).2.artifacts.tree =
      some tree := by rw [tree_run, hwelds, Option.map_some]
  refine ⟨tree, htree, hbody, ?_⟩
  exact ((Compiler.generation_succeeds (.inr ⟨"m.js", rfl⟩) htree).1 true).2.1

end Inlay
