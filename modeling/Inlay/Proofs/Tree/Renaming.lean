/-
Trees whose files have other names.

`Tree.rename` changes the names of the files that nodes and comments come
from and nothing else. A text that is read under another name gives the
renamed tree (`Tech.parse_rename`).
-/
import Inlay.Proofs.Script.Hosts
import Inlay.Proofs.Tree.Stripped
import Inlay.Tech

namespace Inlay

open List Node

/-- Labels do not count when trees are compared. -/
theorem Relabels.alike {f : Node → Node} (h : Relabels f) (n : Node) : (f n).Alike n := by
  induction n using induction_kids with
  | h n ih =>
    refine alike_of_props (k := n.kind) (h.kind n) rfl ?_
    have hp : ∀ props : List (String × Field Node),
        (∀ e ∈ props, ∀ k ∈ e.2.kids e.1, (f k.2).Alike k.2) →
          Node.PropsAlike (n.kind == .literal) (props.map fun e => (e.1, e.2.map f)) props := by
      intro props hki
      induction props with
      | nil => exact .nil
      | cons e props ihprops =>
        obtain ⟨hf, hr⟩ := forall_mem_cons.1 hki
        have hp := ihprops hr
        obtain ⟨key, field⟩ := e
        cases field with
        | node m => exact .node (hf (⟨key, none⟩, m) (mem_singleton.2 rfl)) hp
        | data j => exact .same hp
        | nodes ms =>
          refine .nodes ?_ hp
          rw [Node.AlikeAll, map_map, ← map_snd_items key 0 ms, map_map, map_map]
          exact map_congr_left fun k hk => hf k hk
    rw [h.props]
    exact hp n.props fun e he k hk => ih k (mem_flatMap.2 ⟨e, he, hk⟩)

variable (r : Option String → Option String)

-- == renaming

def Location.rename (l : Location) : Location := { l with source := r l.source }

def Comment.rename (c : Comment) : Comment := { c with loc := c.loc.map (.rename r) }

namespace Node

mutual
/-- The subtree with the names of its files changed. -/
def rename : Node → Node
  | ⟨kind, props, range, loc, leading, trailing⟩ =>
      ⟨kind, renameInProps props, range, loc.map (.rename r), leading.map (.rename r),
        trailing.map (.rename r)⟩

def renameInProps : List (String × Field Node) → List (String × Field Node)
  | [] => []
  | (key, .node n) :: rest => (key, .node n.rename) :: renameInProps rest
  | (key, .nodes ns) :: rest => (key, .nodes (renameInNodes ns)) :: renameInProps rest
  | (key, .data j) :: rest => (key, .data j) :: renameInProps rest

def renameInNodes : List Node → List Node
  | [] => []
  | n :: rest => n.rename :: renameInNodes rest
end

theorem renameInNodes_eq (ns : List Node) : renameInNodes r ns = ns.map (rename r) := by
  induction ns with
  | nil => rfl
  | cons n ns ih => rw [renameInNodes, ih, map_cons]

theorem renameInProps_eq (props : Node.Props) :
    renameInProps r props = props.map fun e => (e.1, e.2.map (rename r)) := by
  induction props with
  | nil => rfl
  | cons e props ih =>
    obtain ⟨key, field⟩ := e
    cases field <;> simp [renameInProps, ih, Field.map, renameInNodes_eq]

theorem rename_eq (n : Node) :
    n.rename r = { n with
        props := n.props.map fun e => (e.1, e.2.map (rename r))
        loc := n.loc.map (.rename r)
        leading := n.leading.map (.rename r)
        trailing := n.trailing.map (.rename r) } := by
  cases n
  rw [rename, renameInProps_eq]

theorem recolors_rename : Recolors (rename r) where
  kind n := by rw [rename_eq]
  range n := by rw [rename_eq]
  props n := by rw [rename_eq]
  of_props n props := by rw [rename_eq, rename_eq]

@[simp] theorem loc_rename (n : Node) : (n.rename r).loc = n.loc.map (.rename r) := by
  rw [rename_eq]

@[simp] theorem leading_rename (n : Node) : (n.rename r).leading = n.leading.map (.rename r) := by
  rw [rename_eq]

@[simp] theorem trailing_rename (n : Node) :
    (n.rename r).trailing = n.trailing.map (.rename r) := by
  rw [rename_eq]

variable {r}

theorem source?_rename (hn : r none = none) (n : Node) : (n.rename r).source? = r n.source? := by
  rw [source?, source?, loc_rename]
  cases n.loc with
  | none => exact hn.symm
  | some l => rfl

theorem start?_rename (n : Node) : (n.rename r).start? = n.start? := by
  rw [start?, start?, loc_rename, Option.map_map]
  rfl

end Node

/-- The tree with the names of its files changed. -/
def Tree.rename (t : Tree) : Tree := ⟨t.root.rename r, t.comments.map (.rename r)⟩

variable {r}

theorem Tree.rename_id (t : Tree) : t.rename id = t := by
  have hl : Location.rename id = id := rfl
  have hc : Comment.rename id = id := by
    funext c
    simp [Comment.rename, hl]
  have hn : t.root.rename id = t.root :=
    (recolors_rename id).toRelabels.eq_of_labels .id fun m _ => by simp [hl, hc]
  rw [Tree.rename, hn, hc, map_id]

theorem Tree.body_rename (t : Tree) : (t.rename r).body = t.body.map (Node.rename r) := by
  rw [Tree.body, Tree.body, Tree.rename, (recolors_rename r).children?]
  cases t.root.children? "body" <;> rfl

-- == erasure

theorem Comment.rename_injective (hr : Function.Injective r) :
    Function.Injective (Comment.rename r) := by
  intro a b h
  obtain ⟨kind, value, range, loc⟩ := a
  obtain ⟨kind', value', range', loc'⟩ := b
  simp only [Comment.rename, Comment.mk.injEq] at h ⊢
  refine ⟨h.1, h.2.1, h.2.2.1, ?_⟩
  refine Option.map_injective ?_ h.2.2.2
  intro l l' hl
  obtain ⟨start, stop, source⟩ := l
  obtain ⟨start', stop', source'⟩ := l'
  simp only [Location.rename, Location.mk.injEq] at hl ⊢
  exact ⟨hl.1, hl.2.1, hr hl.2.2⟩

/-- A comment can be erased before or behind a renaming that keeps names
apart. -/
theorem Tree.rename_eraseComment (hr : Function.Injective r) (t : Tree) (c : Comment) :
    (t.eraseComment c).rename r = (t.rename r).eraseComment (c.rename r) := by
  have he (cs : List Comment) :
      (cs.erase c).map (.rename r) = (cs.map (.rename r)).erase (c.rename r) :=
    map_erase (Comment.rename_injective hr) cs
  have hre := (recolors_rename r).toRelabels
  have hro : (t.root.eraseComment c).rename r = (t.root.rename r).eraseComment (c.rename r) := by
    rw [eraseComment_eq, eraseComment_eq]
    refine (hre.comp (relabels_mapComments _)).eq_of_labels
      ((relabels_mapComments _).comp hre) fun m _ => ?_
    simp [he]
  simp only [Tree.rename, Tree.eraseComment, hro, he]

-- == reading

namespace Script

variable {text : List Char} {places places' : List (Path × Node)} {tokens : List Span}

theorem rename_attach (hp : host? places' tokens = host? places tokens) (root : Node)
    (c : Comment) :
    (attach places tokens root c).rename r = attach places' tokens (root.rename r) (c.rename r) := by
  have hr : (c.rename r).range = c.range := rfl
  unfold attach
  rw [hr, hp]
  split
  · exact (recolors_rename r).modifyAt (fun m => by simp [rename_eq]) _ root
  · exact (recolors_rename r).modifyAt (fun m => by simp [rename_eq]) _ root
  · rfl

theorem rename_attachAll (comments : List Comment) (root : Node) :
    (attachAll tokens comments root).rename r =
      attachAll tokens (comments.map (.rename r)) (root.rename r) := by
  have hp := (recolors_rename r).host?_eq root tokens
  unfold attachAll
  dsimp only
  generalize root.places.tail = places at hp
  generalize (root.rename r).places.tail = places' at hp
  induction comments generalizing root with
  | nil => rfl
  | cons c rest ih =>
    rw [foldl_cons, map_cons, foldl_cons, ← rename_attach hp]
    exact ih _

theorem rename_locate (table : LineTable) (source : Option String) {n : Node}
    (h : n.Every fun m => m.leading = [] ∧ m.trailing = []) :
    (n.locate table source).rename r = n.locate table (r source) := by
  have hr := (recolors_rename r).toRelabels
  refine (hr.comp (relabels_locate table source)).eq_of_labels
    (relabels_locate table (r source)) fun m hm => ?_
  obtain ⟨hl, ht⟩ := h m hm
  simp only [loc_rename, leading_rename, trailing_rename, loc_locate,
    leading_locate, trailing_locate, hl, ht, map_nil, Option.map_map,
    and_self, and_true]
  rfl

theorem parseWith_rename {body : List Token → Except SyntaxError (List Node)}
    {source : Option String} {t : Tree}
    (hb : ∀ lexed ns, lex text = .ok lexed → body lexed.tokens = .ok ns →
      (programOf text ns).Every fun m => m.leading = [] ∧ m.trailing = [])
    (h : parseWith body text source = .ok t) :
    parseWith body text (r source) = .ok (t.rename r) := by
  unfold parseWith at h ⊢
  obtain ⟨lexed, hl, h⟩ := bind_ok_iff.1 h
  obtain ⟨ns, hns, h⟩ := bind_ok_iff.1 h
  cases h
  refine bind_ok_iff.2 ⟨lexed, hl, bind_ok_iff.2 ⟨ns, hns, ?_⟩⟩
  have hc : (lexed.comments.map (Comment.locate (.ofText text) source)).map (.rename r) =
      lexed.comments.map (Comment.locate (.ofText text) (r source)) := by
    rw [map_map]
    refine map_congr_left fun c _ => ?_
    simp only [Function.comp_apply, Comment.rename, Comment.locate, Option.map_map]
    rfl
  have hr := rename_locate (r := r) (.ofText text) source (hb lexed ns hl hns)
  refine congrArg Except.ok ?_
  rw [Tree.rename, rename_attachAll, hc]
  exact congrArg (Tree.mk · _) (congrArg _ hr.symm)

end Script

theorem Tech.parse_rename {tech : Tech} {text : String} {source : Option String} {t : Tree}
    (h : tech.parse text source = .ok t) : tech.parse text (r source) = .ok (t.rename r) := by
  cases tech with
  | js =>
    refine mapError_eq_ok_iff.2 (Script.parseWith_rename ?_ (mapError_eq_ok_iff.1 h))
    intro lexed ns hl hns
    obtain ⟨ts, e, -, -, -, hd⟩ := Script.statements_sound (Script.lex_formed hl) hns
    exact Script.Sits.bare (Script.Tiles.sits hd.lies)
  | json =>
    refine mapError_eq_ok_iff.2 (Script.parseWith_rename ?_ (mapError_eq_ok_iff.1 h))
    intro lexed ns hl hns
    obtain ⟨n, hn, rfl⟩ := map_eq_ok_iff.1 hns
    obtain ⟨ts, e, -, -, -, hd⟩ := Script.soleExpression_sound (Script.lex_formed hl) hn
    exact Script.Sits.bare hd.lies
  | txt =>
    cases h
    rfl

end Inlay
