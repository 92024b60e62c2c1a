/-
Inclusion under other names.

The name of the file a node comes from is only compared with that of the
file that is being resolved. So if files are renamed such that different
names stay different and included files keep theirs, a run does the same on
the renamed tree (`resolveWith_renames`, `resolve_rename`). Where files are
looked for does not depend on the name of the outermost one, as long as its
real path is known (`Parallel`).
-/
import Inlay.Proofs.Inclusion.Warp
import Inlay.Proofs.Tree.Renaming

namespace Inlay

open Option (bind_some map_some)

open List Node

variable {r : Option String → Option String}

-- == directives

namespace Directive

/-- The directive with the name of its file changed. -/
def rename (r : Option String → Option String) (d : Directive) : Directive :=
  { d with comment := d.comment.map (.rename r) }

theorem ofComment?_rename (marker : String) (c : Comment) :
    ofComment? marker (c.rename r) = (ofComment? marker c).map (.rename r) := by
  obtain ⟨kind, value, range, loc⟩ := c
  cases kind with
  | line => rfl
  | block =>
    simp only [ofComment?, Comment.rename]
    cases path? marker value with
    | none => rfl
    | some path => simp [rename, Comment.rename, Location.rename, Function.comp_def]

theorem ofComments_rename (marker : String) (cs : List Comment) :
    ofComments marker (cs.map (.rename r)) = (ofComments marker cs).map (.rename r) := by
  rw [ofComments, ofComments, filterMap_map, map_filterMap]
  congr 1
  funext c
  exact ofComment?_rename marker c

theorem within_rename (marker : String) (range : Span) (cs : List Comment) :
    within marker range (cs.map (.rename r)) = (within marker range cs).map (.rename r) := by
  rw [within, within, filter_map, ofComments_rename]
  rfl

theorem ofLiteral?_rename (marker : String) (n : Node) :
    ofLiteral? marker (n.rename r) = (ofLiteral? marker n).map (.rename r) := by
  simp only [ofLiteral?, (recolors_rename r).stringValue?, (recolors_rename r).range,
    start?_rename, Option.bind_eq_bind]
  cases n.stringValue? with
  | none => rfl
  | some value =>
    rw [bind_some]
    cases path? marker value <;> rfl

end Directive

theorem Relabels.next? {f : Node → Node} (h : Relabels f) (c : Walk.Cursor) (n : Node) :
    c.next? (f n) = c.next? n := by
  have hs : ∀ (prop item : Nat) (props : List (String × Field Node)),
      Walk.Cursor.seek prop item (props.map fun e => (e.1, e.2.map f)) =
        Walk.Cursor.seek prop item props := by
    intro prop item props
    induction props generalizing prop item with
    | nil => rfl
    | cons e props ih =>
      obtain ⟨key, field⟩ := e
      have hr := ih (prop + 1) 0
      cases field with
      | node m => simp only [map_cons, Walk.Cursor.seek, Field.map.eq_1, hr]
      | nodes ms =>
        simp only [map_cons, Walk.Cursor.seek, Field.map.eq_2, hr, length_map]
      | data j => simp only [map_cons, Walk.Cursor.seek, Field.map.eq_3, hr]
  rw [Walk.Cursor.next?, Walk.Cursor.next?, h.props, ← map_drop]
  exact hs _ _ _

namespace Inclusion

theorem directives_rename (marker : String) (t : Tree) :
    directives marker (t.rename r) = (directives marker t).map (.rename r) := by
  have ho (n : Node) :
      ownDirectives marker (n.rename r) = (ownDirectives marker n).map (.rename r) := by
    simp only [ownDirectives, Directive.ofLiteral?_rename, leading_rename,
      trailing_rename, Directive.ofComments_rename, map_append]
    cases Directive.ofLiteral? marker n <;> rfl
  rw [directives, directives, Tree.rename, (recolors_rename r).preorder, flatMap_map,
    Directive.ofComments_rename, map_append, map_flatMap]
  simp only [ho]

-- == contexts

/-- Contexts that find files in the same places. -/
structure Parallel (c c' : Context) : Prop where
  chain : c'.realChain = c.realChain
  known : c.realChain.isSome = true

namespace Parallel

variable {lib : Library} {c c' : Context}

theorem symm (h : Parallel c c') : Parallel c' c := ⟨h.chain.symm, by rw [h.chain, h.known]⟩

theorem descend (h : Parallel c c') (path : String) :
    Parallel (c.descend path) (c'.descend path) := by
  refine ⟨?_, ?_⟩
  · rw [Context.descend, Context.descend, h.chain]
  · rw [Context.descend, Option.isSome_map, h.known]

theorem locate_eq (h : Parallel c c') (workingDirectory path : String) :
    c'.locate workingDirectory path = c.locate workingDirectory path := by
  obtain ⟨chain, hc⟩ := Option.isSome_iff_exists.1 h.known
  rw [Context.locate, Context.locate, h.chain, hc, Option.getD_some, Option.getD_some]

variable {d : Directive} {tech : Tech} {text : String} {t u : Tree}

theorem opens {d' : Directive} (h : Parallel c c') (hp : d'.path = d.path) (ht : d'.tech = d.tech)
    (ho : Opens lib c d tech text u) : Opens lib c' d' tech text u := by
  refine ⟨?_, ?_, ?_⟩
  · rw [techFor, hp, ht]
    exact ho.known
  · rw [h.locate_eq, hp, ho.read]
  · rw [hp, ho.parsed]

theorem mentions (h : Parallel c c') (hr : Mentions lib c t d tech text u) :
    Mentions lib c' t d tech text u := by
  induction hr generalizing c' with
  | here hd ho => exact .here hd (h.opens rfl rfl ho)
  | through hd ho _ ih => exact .through hd (h.opens rfl rfl ho) (ih (h.descend _))

/-- Under whatever name a tree was read, it mentions the same files. -/
theorem mentions_of_rename (h : Parallel c c') (hr : Mentions lib c' (t.rename r) d tech text u) :
    ∃ d₀, d₀.path = d.path ∧ Mentions lib c t d₀ tech text u := by
  cases hr with
  | here hd ho =>
    rw [directives_rename] at hd
    obtain ⟨d₀, hd₀, rfl⟩ := mem_map.1 hd
    exact ⟨d₀, rfl, .here hd₀ (h.symm.opens (d := d₀.rename r) rfl rfl ho)⟩
  | through hd ho hr =>
    rw [directives_rename] at hd
    obtain ⟨d₀, hd₀, rfl⟩ := mem_map.1 hd
    exact ⟨d, rfl, .through hd₀ (h.symm.opens (d := d₀.rename r) rfl rfl ho)
      ((h.descend d₀.path).symm.mentions hr)⟩

end Parallel

-- == steps

/-- A renaming that keeps names apart. -/
structure Apart (r : Option String → Option String) : Prop where
  injective : Function.Injective r
  none : r none = none

/-- The visit with the names of files changed. -/
def renameVisit (r : Option String → Option String) (v : Visit) : Visit :=
  { v with tree := v.tree.rename r }

section Steps

variable {R : Round} {inner' : Context → Tree → Except Error Tree} {c' : Context}
  {v v' : Visit} {n : Node} {p : Placement} {ds all : List Directive}

theorem inEmptyList_rename (hr : Apart r) (host : Option String) (v : Visit) (key : String) :
    inEmptyList R.lib (r host) (renameVisit r v) key =
      (inEmptyList R.lib host v key).map fun batch => (batch.1, batch.2.map (.rename r)) := by
  have hre := (recolors_rename r).toRelabels
  simp only [inEmptyList, renameVisit, Tree.rename, hre.at?, Option.bind_eq_bind]
  cases v.tree.root.at? v.path with
  | none => rfl
  | some n =>
    simp only [map_some, bind_some, hre.range, hre.kind, hre.children?,
      source?_rename hr.none, hr.injective.eq_iff, Directive.within_rename]
    cases n.range with
    | none => rfl
    | some range =>
      have he : ((n.children? key).map (List.map (Node.rename r))).any List.isEmpty =
          (n.children? key).any List.isEmpty := by
        cases n.children? key <;> simp
      rw [bind_some, bind_some, he]
      split <;> rfl

/-- The files of these directives come in under other names, too. -/
def FetchesRenamed (r : Option String → Option String) (R : Round)
    (inner' : Context → Tree → Except Error Tree) (c' : Context) (all : List Directive) : Prop :=
  ∀ d ∈ all, ∀ ns, R.fetch d = .ok ns →
    fetch R.lib inner' c' (d.rename r) = .ok (ns.map (Node.rename r))

theorem insert_rename {d : Directive} (hr : Apart r) (hfe : FetchesRenamed r R inner' c' all)
    (hd : d ∈ all) (h : R.insert p v d = .ok v') :
    insert R.lib inner' c' p (renameVisit r v) (d.rename r) = .ok (renameVisit r v') := by
  obtain ⟨ns, hns, h⟩ := bind_ok_iff.1 h
  refine bind_ok_iff.2 ⟨_, hfe d hd ns hns, ?_⟩
  have hs := (recolors_rename r).splice? p ns v.tree.root v.path
  cases hsp : p.splice? ns v.tree.root v.path with
  | none =>
    rw [hsp] at h
    cases h
  | some outcome =>
    rw [hsp] at h hs
    cases h
    simp only [renameVisit, Tree.rename, hs, map_some]
    cases hc : d.comment with
    | none =>
      simp only [Directive.rename, hc, Option.map_none, Option.elim_none]
      rfl
    | some com =>
      have he := Tree.rename_eraseComment hr.injective ⟨outcome.1, v.tree.comments⟩ com
      simp only [Directive.rename, hc, map_some, Option.elim_some]
      exact congrArg (fun tree : Tree => (.ok ⟨v.memory - 1, tree, outcome.2⟩ : Except Error Visit))
        he.symm

theorem foldlM_insert_rename (hr : Apart r) (hfe : FetchesRenamed r R inner' c' all)
    (hds : ds ⊆ all) (h : ds.foldlM (R.insert p) v = .ok v') :
    (ds.map (.rename r)).foldlM (insert R.lib inner' c' p) (renameVisit r v) =
      .ok (renameVisit r v') := by
  induction ds generalizing v with
  | nil =>
    cases h
    rfl
  | cons d ds ih =>
    rw [foldlM_cons] at h
    obtain ⟨v₁, hi, h⟩ := bind_ok_iff.1 h
    rw [map_cons, foldlM_cons]
    refine bind_ok_iff.2 ⟨_, insert_rename hr hfe (hds (.head _)) hi, ?_⟩
    exact ih (fun d hd => hds (.tail _ hd)) h

/-- A visit of a tree that has no directives but the given ones. -/
structure Supported (marker : String) (all : List Directive) (v : Visit) : Prop where
  keyed : v.tree.root.Keyed
  subset : directives marker v.tree ⊆ all
  here : ∃ n, v.tree.root.at? v.path = some n

theorem Supported.foldlM (hv : Supported R.marker all v) (hbr : Brings R)
    (hds : ∀ d ∈ ds, ∀ com ∈ d.comment.toList, Directive.isIn R.marker com = true)
    (h : ds.foldlM (R.insert p) v = .ok v') : Supported R.marker all v' := by
  obtain ⟨n, hn⟩ := hv.here
  have hb := batch_of_foldlM hbr.clean hds hn h
  exact ⟨hb.keyed hbr hn hv.keyed,
    fun d hd => hv.subset (hb.directives_subset hbr hn hv.keyed hd), hb.exists_at? hn⟩

theorem fill_rename (hr : Apart r) (hbr : Brings R)
    (hfe : FetchesRenamed r R inner' c' all) (host : Option String)
    {keys : List String} (hv : Supported R.marker all v)
    (h : keys.foldlM (fun v key =>
      match inEmptyList R.lib host v key with
      | some (p, ds) => ds.foldlM (R.insert p) v
      | none => .ok v) v = .ok v') :
    Supported R.marker all v' ∧ keys.foldlM (fun v key =>
        match inEmptyList R.lib (r host) v key with
        | some (p, ds) => ds.foldlM (insert R.lib inner' c' p) v
        | none => .ok v) (renameVisit r v) = .ok (renameVisit r v') := by
  induction keys generalizing v with
  | nil =>
    cases h
    exact ⟨hv, rfl⟩
  | cons key keys ih =>
    rw [foldlM_cons] at h ⊢
    obtain ⟨v₁, hk, hre⟩ := bind_ok_iff.1 h
    rw [inEmptyList_rename hr]
    cases he : inEmptyList R.lib host v key with
    | none =>
      rw [he] at hk
      cases hk
      exact ih hv hre
    | some batch =>
      obtain ⟨p, ds⟩ := batch
      rw [he] at hk
      obtain ⟨n, range, -, -, -, -, -, hds⟩ := inEmptyList_eq_some_iff.1 he
      have hs : ds ⊆ all := by
        rw [hds]
        exact fun d hd => hv.subset (ofComments_within_subset _ _ _ hd)
      have hv₁ : Supported R.marker all v₁ :=
        hv.foldlM hbr (isIn_of_mem_ofComments fun d hd => hds ▸ hd) hk
      refine (ih hv₁ hre).imp_right fun hren => ?_
      exact bind_ok_iff.2 ⟨_, foldlM_insert_rename hr hfe hs hk, hren⟩

theorem enter_rename (hr : Apart r) (hbr : Brings R) (hfe : FetchesRenamed r R inner' c' all)
    (hv : Supported R.marker all v) (h : R.enter v = .ok v') :
    Supported R.marker all v' ∧
      enter R.lib inner' c' (renameVisit r v) = .ok (renameVisit r v') := by
  have hre := (recolors_rename r).toRelabels
  have hh (v : Visit) : (renameVisit r v).tree.root.at? (renameVisit r v).path =
      (v.tree.root.at? v.path).map (Node.rename r) := hre.at? _ _
  have hs {v : Visit} (hv : Supported R.marker all v) {n : Node}
      (hn : v.tree.root.at? v.path = some n) : ownDirectives R.marker n ⊆ all :=
    fun d hd => hv.subset (ownDirectives_subset hn hd)
  obtain ⟨v₁, hq, h⟩ := bind_ok_iff.1 h
  obtain ⟨v₂, hf, h⟩ := bind_ok_iff.1 h
  obtain ⟨v₃, hl, ht⟩ := bind_ok_iff.1 h
  dsimp only at hq hf hl ht
  obtain ⟨n, hn⟩ := hv.here
  rw [hn, bind_some] at hq
  have hv₁ : Supported R.marker all v₁ := hv.foldlM hbr (fun d hd com hc => by
    rw [Directive.comment_of_ofLiteral? (Option.mem_toList.1 hd)] at hc
    cases hc) hq
  obtain ⟨hv₂, hfi⟩ := fill_rename hr hbr hfe v.tree.root.source? hv₁ hf
  obtain ⟨n₂, hn₂⟩ := hv₂.here
  rw [hn₂, Option.elim_some] at hl
  have hv₃ : Supported R.marker all v₃ :=
    hv₂.foldlM hbr (isIn_of_mem_ofComments fun _ hd => hd) hl
  obtain ⟨n₃, hn₃⟩ := hv₃.here
  rw [hn₃, Option.elim_some] at ht
  have hv' : Supported R.marker all v' :=
    hv₃.foldlM hbr (isIn_of_mem_ofComments fun _ hd => mem_reverse.1 hd) ht
  refine ⟨hv', bind_ok_iff.2 ⟨renameVisit r v₁, ?_, bind_ok_iff.2 ⟨renameVisit r v₂, ?_,
    bind_ok_iff.2 ⟨renameVisit r v₃, ?_, ?_⟩⟩⟩⟩
  · dsimp only
    rw [hh, hn, map_some, bind_some, Directive.ofLiteral?_rename, Option.toList_map]
    refine foldlM_insert_rename hr hfe (fun d hd => hs hv hn ?_) hq
    exact mem_append_left _ (mem_append_left _ hd)
  · have hho : (renameVisit r v).tree.root.source? = r v.tree.root.source? :=
      source?_rename hr.none _
    rw [hho]
    exact hfi
  · dsimp only
    rw [hh, hn₂, map_some, Option.elim_some, leading_rename, Directive.ofComments_rename]
    refine foldlM_insert_rename hr hfe (fun d hd => hs hv₂ hn₂ ?_) hl
    exact mem_append_left _ (mem_append_right _ hd)
  · dsimp only
    rw [hh, hn₃, map_some, Option.elim_some, trailing_rename,
      Directive.ofComments_rename, ← map_reverse]
    refine foldlM_insert_rename hr hfe (fun d hd => hs hv₃ hn₃ ?_) ht
    exact mem_append_right _ (mem_reverse.1 hd)

end Steps

section Runs

variable {R : Round} {inner' : Context → Tree → Except Error Tree} {c' : Context}
  {v : Visit} {s s' : Walk.State Nat} {all : List Directive} {t t' : Tree}

/-- The walk with the names of files changed. -/
def renameState (r : Option String → Option String) (s : Walk.State Nat) : Walk.State Nat :=
  { s with visit := renameVisit r s.visit }

theorem bound_renameState (s : Walk.State Nat) : Walk.bound (renameState r s) = Walk.bound s := by
  show 2 * (s.visit.tree.root.rename r).size + _ = _
  rw [(recolors_rename r).size]
  rfl

theorem Supported.descend {current cursor : Walk.Cursor} {step : Step}
    (hv : Supported R.marker all v)
    (hne : (v.tree.root.at? v.path).bind current.next? = some (step, cursor)) :
    Supported R.marker all { v with path := v.path ++ [step] } := by
  obtain ⟨n, hn, hne⟩ := Option.bind_eq_some_iff.1 hne
  have hk : n.keys.Nodup := (hv.keyed.at? hn).nodup
  refine ⟨hv.keyed, hv.subset, ?_⟩
  rcases current.next?_eq hk with ⟨hno, -⟩ | ⟨step', cursor', child, hs, ha, -⟩
  · rw [hno] at hne
    cases hne
  · rw [hs] at hne
    cases hne
    obtain ⟨before, hki⟩ := current.exists_kids_eq n
    have hst : n.step? step = some child := by
      rw [step?_eq_some_iff hk, hki, ha]
      exact mem_append_right _ (.head _)
    exact ⟨child, (at?_snoc hn step).trans hst⟩

theorem Supported.ascend (hv : Supported R.marker all v) :
    Supported R.marker all { v with path := v.path.dropLast } := by
  refine ⟨hv.keyed, hv.subset, ?_⟩
  obtain ⟨n, hn⟩ := hv.here
  rcases eq_nil_or_concat v.path with hni | ⟨path, step, hp⟩
  · rw [hni] at hn ⊢
    exact ⟨n, hn⟩
  · rw [hp, concat_eq_append, at?_append] at hn
    obtain ⟨m, hm, -⟩ := Option.bind_eq_some_iff.1 hn
    refine ⟨m, ?_⟩
    show v.tree.root.at? v.path.dropLast = some m
    rw [hp, concat_eq_append, dropLast_concat, hm]

variable (hr : Apart r) (hbr : Brings R)
  (hfe : FetchesRenamed r R inner' c' all)

include hr hbr hfe

theorem step_rename {current : Walk.Cursor} {above : List Walk.Cursor}
    (hv : Supported R.marker all v) (h : Walk.step R.visitor current above v = .ok s) :
    Supported R.marker all s.visit ∧
      Walk.step (visitor R.lib inner' c') current above (renameVisit r v) =
        .ok (renameState r s) := by
  have hn : ((renameVisit r v).tree.root.at? (renameVisit r v).path).bind current.next? =
      (v.tree.root.at? v.path).bind current.next? := by
    show ((v.tree.root.rename r).at? v.path).bind current.next? = _
    rw [(recolors_rename r).at?]
    cases v.tree.root.at? v.path with
    | none => rfl
    | some n => exact (recolors_rename r).next? current n
  unfold Walk.step at h ⊢
  rw [hn]
  split at h
  · next step cursor hs =>
    obtain ⟨v', he, h⟩ := bind_ok_iff.1 h
    cases h
    obtain ⟨hv', hre⟩ := enter_rename hr hbr hfe (hv.descend hs) he
    exact ⟨hv', bind_ok_iff.2 ⟨_, hre, rfl⟩⟩
  · cases h
    exact ⟨hv.ascend, rfl⟩

/-- The stops up to the next change, and the walk from there. -/
theorem runToChange_rename {changed changed' : Nat → Walk.State Nat → Except Error (Walk.State Nat)}
    (hc : ∀ left s s', Supported R.marker all s.visit → changed left s = .ok s' →
      changed' left (renameState r s) = .ok (renameState r s'))
    {budget stops : Nat} (hs : Supported R.marker all s.visit)
    (h : Walk.runToChange R.visitor changed budget stops s = .ok s') :
    Walk.runToChange (visitor R.lib inner' c') changed' budget stops (renameState r s) =
      .ok (renameState r s') := by
  induction stops generalizing s with
  | zero =>
    cases h
    rfl
  | succ stops ih =>
    rw [Walk.runToChange] at h ⊢
    obtain ⟨v, cursors⟩ := s
    cases cursors with
    | nil =>
      cases h
      rfl
    | cons current above =>
      dsimp only [renameState] at h ⊢
      cases hst : Walk.step R.visitor current above v with
      | error e =>
        rw [hst] at h
        cases h
      | ok next =>
        rw [hst] at h
        obtain ⟨hn, hre⟩ := step_rename hr hbr hfe hs hst
        rw [hre]
        show (if next.visit.memory < budget then changed' next.visit.memory (renameState r next)
          else Walk.runToChange (visitor R.lib inner' c') changed' budget stops
            (renameState r next)) = _
        by_cases hlt : next.visit.memory < budget
        · rw [if_pos hlt]
          exact hc _ _ _ hn ((if_pos hlt).symm.trans h)
        · rw [if_neg hlt]
          exact ih hn ((if_neg hlt).symm.trans h)

theorem runChanging_rename (changes : Nat) {budget stops : Nat}
    (hs : Supported R.marker all s.visit)
    (h : Walk.runChanging R.visitor changes budget stops s = .ok s') :
    Walk.runChanging (visitor R.lib inner' c') changes budget stops (renameState r s) =
      .ok (renameState r s') := by
  induction changes generalizing budget stops s s' with
  | zero =>
    refine runToChange_rename hr hbr hfe ?_ hs h
    intro left s s' _ heq
    cases heq
    rfl
  | succ changes ih =>
    refine runToChange_rename hr hbr hfe ?_ hs h
    intro left s s' hs h
    rw [bound_renameState]
    exact ih hs h

omit hfe in
theorem resolveWith_renames (ht : t.root.Keyed)
    (hfe : FetchesRenamed r R inner' c' (directives R.marker t)) (h : R.run t = .ok t') :
    resolveWith R.lib inner' c' (t.rename r) = .ok (t'.rename r) := by
  have hc : directiveCount R.marker (t.rename r) = directiveCount R.marker t := by
    show (directives R.marker (t.rename r)).length = (directives R.marker t).length
    rw [directives_rename, length_map]
  obtain ⟨⟨memory, tree⟩, hw, h⟩ := bind_ok_iff.1 h
  cases h
  obtain ⟨v, he, hw⟩ := bind_ok_iff.1 hw
  obtain ⟨last, hru, hw⟩ := bind_ok_iff.1 hw
  cases hw
  have hs : Supported R.marker (directives R.marker t)
      (⟨directiveCount R.marker t, t, []⟩ : Visit) :=
    ⟨ht, fun _ hd => hd, t.root, rfl⟩
  obtain ⟨hv, hen⟩ := enter_rename hr hbr hfe hs he
  have hra := runChanging_rename hr hbr hfe _ hv hru
  refine bind_ok_iff.2 ⟨(last.visit.memory, last.visit.tree.rename r), ?_, rfl⟩
  refine bind_ok_iff.2 ⟨renameVisit r v, ?_, bind_ok_iff.2 ⟨renameState r last, ?_, rfl⟩⟩
  · rw [hc]
    exact hen
  · have hb := bound_renameState (r := r) ⟨v, [Walk.Cursor.start]⟩
    rw [← hb] at hra
    exact hra

end Runs

section Depths

variable {lib : Library} {n depth : Nat} {c c' : Context} {t t' : Tree}

/-- A run does the same on the renamed tree, with whatever depth, if the
runs on the files that it includes do. -/
theorem resolve_renames (hr : Apart r) (ht : t.root.Keyed) (h : resolve lib n c t = .ok t')
    (hb : ∀ d ∈ directives lib.marker t, ∀ tech text u u', Opens lib c d tech text u →
      below lib n (c.descend d.path) u = .ok u' → Opens lib c' (d.rename r) tech text u ∧
        below lib depth (c'.descend d.path) u = .ok (u'.rename r)) :
    resolve lib depth c' (t.rename r) = .ok (t'.rename r) := by
  rw [resolve_eq] at h ⊢
  refine resolveWith_renames (R := round lib n c) hr (brings_below lib n c) ht ?_ h
  intro d hd ns hns
  obtain ⟨tech, text, u, u', ho, hi, rfl⟩ := fetch_eq_ok_iff (R := round lib n c).1 hns
  obtain ⟨ho', hi'⟩ := hb d hd tech text u u' ho hi
  rw [← Tree.body_rename]
  exact fetch_eq_ok_iff (R := round lib depth c').2 ⟨tech, text, u, _, ho', hi', rfl⟩

theorem resolve_rename (hr : Apart r) (depth : Nat) (hc : Parallel c c') (ht : t.root.Keyed)
    (hf : ∀ d tech text u, Mentions lib c t d tech text u → r (some d.path) = some d.path)
    (h : resolve lib depth c t = .ok t') :
    resolve lib depth c' (t.rename r) = .ok (t'.rename r) := by
  induction depth generalizing c c' t t' with
  | zero =>
    refine resolve_renames hr ht h fun d hd tech text u u' ho hi => ?_
    cases hi
  | succ depth ih =>
    refine resolve_renames hr ht h fun d hd tech text u u' ho hi => ⟨hc.opens (d := d) rfl rfl ho, ?_⟩
    -- an included file keeps its name, so its tree stays as it is
    have hu : u.rename r = u := by
      have hp := tech.parse_rename (r := r) ho.parsed
      rw [hf d tech text u (.here hd ho), ho.parsed] at hp
      exact (Except.ok.inj hp).symm
    have hre := ih (hc.descend d.path) (Tech.keyed_of_parse ho.parsed)
      (fun d' tech' text' u' hrea => hf d' tech' text' u' (.through hd ho hrea))
      hi
    rwa [hu] at hre

end Depths

end Inclusion

end Inlay
