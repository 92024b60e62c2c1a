/-
Directives are consumed.

Whatever a turn does, the walk is as far as it was, and the turn is paid for
(`Advanced`). Behind the last turn the current node has no directive left.
So the walk sweeps the tree, and by induction on the depth of inclusion no
node of the result has a directive (`resolve_consumes`).
-/
import Inlay.Proofs.Inclusion.Budget
import Inlay.Proofs.Tree.Loading
import Inlay.Proofs.Tree.Sweep

namespace Inlay

open Directive (ofComments isIn ofLiteral?)

open Walk (Aligned Cursor Swept Sweeps Visited)

namespace Inclusion

open List

-- == directives of a tree

section Directives

variable {marker : String} {d : Directive} {n m root : Node} {t : Tree}

/-- The directives that a node has by itself. -/
def ownDirectives (marker : String) (n : Node) : List Directive :=
  (ofLiteral? marker n).toList ++ ofComments marker n.leading
    ++ ofComments marker n.trailing

/-- The directives of a tree, on its nodes and in its store. -/
def directives (marker : String) (t : Tree) : List Directive :=
  t.root.preorder.flatMap (ownDirectives marker) ++ ofComments marker t.comments

theorem directives_subset_iff {ds : List Directive} :
    directives marker t ⊆ ds ↔ t.root.Every (fun n => ownDirectives marker n ⊆ ds) ∧
      ofComments marker t.comments ⊆ ds := by
  rw [directives, append_subset]
  refine and_congr_left fun _ => ⟨fun h n hn d hd => ?_, fun h d hd => ?_⟩
  · exact h (mem_flatMap.2 ⟨n, hn, hd⟩)
  · obtain ⟨n, hn, hd⟩ := mem_flatMap.1 hd
    exact h n hn hd

theorem ownDirectives_subset (hn : root.at? path = some n) :
    ownDirectives marker n ⊆ directives marker ⟨root, store⟩ :=
  ((directives_subset_iff.1 (.refl _)).1.at? hn).self

theorem ownDirectives_own (marker : String) (n : Node) :
    ownDirectives marker n.own = ownDirectives marker n := by
  rw [ownDirectives, ownDirectives, Directive.ofLiteral?_own]
  rfl

theorem ownDirectives_eq_of_own (h : n.own = m.own) :
    ownDirectives marker n = ownDirectives marker m := by
  rw [← ownDirectives_own, h, ownDirectives_own]

theorem ownDirectives_eq_nil_iff : ownDirectives marker n = [] ↔ Clean marker n := by
  rw [ownDirectives, append_eq_nil_iff, append_eq_nil_iff, Directive.ofComments_eq_nil_iff,
    Directive.ofComments_eq_nil_iff, Option.toList_eq_nil_iff]
  constructor
  · rintro ⟨⟨hl, hle⟩, ht⟩
    exact ⟨forall_mem_append.2 ⟨hle, ht⟩, hl⟩
  · rintro ⟨hc, hl⟩
    rw [forall_mem_append] at hc
    exact ⟨⟨hl, hc.1⟩, hc.2⟩

theorem ofComments_diff_subset (marker : String) (l cs : List Comment) :
    ofComments marker (l.diff cs) ⊆ ofComments marker l :=
  ((diff_sublist l cs).filterMap _).subset

theorem ownDirectives_eraseAll_subset (marker : String) (cs : List Comment) (n : Node) :
    ownDirectives marker (n.eraseAll cs) ⊆ ownDirectives marker n := by
  rw [ownDirectives, ownDirectives, Directive.ofLiteral?_mapComments, Node.leading_mapComments,
    Node.trailing_mapComments]
  have hl := ofComments_diff_subset marker n.leading cs
  have ht := ofComments_diff_subset marker n.trailing cs
  intro d hd
  simp only [mem_append] at hd ⊢
  exact hd.imp (Or.imp_right (@hl d)) (@ht d)

end Directives

section CleanNodes

variable {marker : String} {n m : Node}

theorem Clean.of_own (h : Clean marker n) (heq : m.own = n.own) : Clean marker m := by
  rw [← ownDirectives_eq_nil_iff] at h ⊢
  rw [ownDirectives_eq_of_own heq, h]

theorem Clean.eraseAll (h : Clean marker n) (cs : List Comment) : Clean marker (n.eraseAll cs) := by
  rw [← ownDirectives_eq_nil_iff] at h ⊢
  rw [← subset_nil, ← h]
  exact ownDirectives_eraseAll_subset marker cs n

theorem leading_eq_of_own (h : m.own = n.own) : m.leading = n.leading :=
  show m.own.leading = n.own.leading by rw [h]

theorem trailing_eq_of_own (h : m.own = n.own) : m.trailing = n.trailing :=
  show m.own.trailing = n.own.trailing by rw [h]

theorem ofLiteral?_eraseAll_of_own (h : m.own = n.own) (cs : List Comment) :
    ofLiteral? marker (m.eraseAll cs) = ofLiteral? marker n := by
  rw [Directive.ofLiteral?_mapComments, ← Directive.ofLiteral?_own, h, Directive.ofLiteral?_own]

theorem ofComments_diff_filter (marker : String) (l : List Comment) :
    ofComments marker (l.diff (l.filter (isIn marker))) = [] := by
  have hl := length_ofComments_diff (filter_sublist (l := l)).subperm
    fun c (hc : c ∈ l.filter (isIn marker)) => (mem_filter.1 hc).2
  rw [length_ofComments marker l, countP_eq_length_filter] at hl
  exact length_eq_zero_iff.1 (by omega)

end CleanNodes

section Advances

variable {R : Round} {marker : String} {cs : List Cursor} {v v' v'' : Visit} {p : Placement}
  {ds : List Directive} {n : Node}

/-- A visit of a walk that leaves no directive behind. -/
abbrev Tidied (marker : String) (cs : List Cursor) (v : Visit) : Prop :=
  Visited (fun _ => Clean marker) (Covered marker) cs v

/-- A turn that leaves the walk as far as it was. -/
structure Advanced (marker : String) (cs : List Cursor) (v v' : Visit) : Prop where
  tidied : Tidied marker cs v'
  paid : v' = v ∨ v'.memory < v.memory

theorem Advanced.refl (h : Tidied marker cs v) : Advanced marker cs v v :=
  ⟨h, .inl rfl⟩

theorem Advanced.trans (h : Advanced marker cs v v') (h' : Advanced marker cs v' v'') :
    Advanced marker cs v v'' := by
  refine ⟨h'.tidied, ?_⟩
  rcases h.paid with rfl | hlt
  · exact h'.paid
  · rcases h'.paid with rfl | hlt'
    · exact .inr hlt
    · exact .inr (Nat.lt_trans hlt' hlt)

/-- What the files that are included bring. -/
structure Brings (R : Round) :
    Prop where
  clean : Fetches R (AllClean R.marker)
  keyed : Fetches R Node.Keyed

theorem swept_spliced {nodes : List Node} {root root' : Node} {path path' : Path}
    (h : Spliced nodes p root path root' path') (hk : ∀ m ∈ nodes, m.Keyed)
    (hc : ∀ m ∈ nodes, AllClean marker m) (hr : root.Keyed)
    (ha : Aligned root path cs) (hsw : Swept (Clean marker) root path) :
    root'.Keyed ∧ Aligned root' path' cs ∧ Swept (Clean marker) root' path' := by
  have hs (n : Node) (s : Step) (f : Node → Node) (hn : Clean marker n) :
      Clean marker (n.modifyStep s f) := hn.of_own (Node.own_modifyStep s f n)
  refine ⟨h.keyed hr hk, ?_⟩
  rcases h.cases with ⟨t, a, -, -, ht, rfl, rfl⟩ | ⟨-, g, rfl, hg⟩
  · exact ⟨ha.modifyAt hr ht _, hsw.modifyAt hr hs ht _⟩
  · exact ⟨hg.aligned hr ha, hsw.grafted hg hr hs
      (fun n hn => hn.of_own (Node.own_modifyList ..)) hc⟩

theorem Batch.keyed (h : Batch R p ds v v') (hb : Brings R)
    (hn : v.tree.root.at? v.path = some n) (hv : v.tree.root.Keyed) : v'.tree.root.Keyed := by
  cases h with
  | idle => exact hv
  | splice hne hf hs =>
    have hk := forall_mem_gather (p := p) hf (hb.keyed.supplied ds)
    exact ((spliced_of_splice? hs hn).keyed hv hk).mapComments _

theorem Batch.directives_subset (h : Batch R p ds v v') (hb : Brings R)
    (hn : v.tree.root.at? v.path = some n) (hv : v.tree.root.Keyed) :
    directives R.marker v'.tree ⊆ directives R.marker v.tree := by
  cases h with
  | idle => exact .refl _
  | splice hne hf hs =>
    have hc := forall_mem_gather (p := p) hf (hb.clean.supplied ds)
    obtain ⟨ho, hst⟩ := directives_subset_iff.1 (.refl (directives R.marker v.tree))
    refine directives_subset_iff.2 ⟨Node.Every.mapComments ?_ fun m hm =>
      List.Subset.trans (ownDirectives_eraseAll_subset ..) hm,
      List.Subset.trans (ofComments_diff_subset ..) hst⟩
    refine (spliced_of_splice? hs hn).every hv ?_ ?_ ?_ ho
    · intro m s f hm
      rwa [ownDirectives_eq_of_own (Node.own_modifyStep s f m)]
    · intro m key position nodes hm
      rwa [ownDirectives_eq_of_own (Node.own_modifyList key _ m)]
    · intro m hm k hk
      rw [ownDirectives_eq_nil_iff.2 (hc m hm k hk)]
      exact nil_subset _

theorem Batch.advanced (h : Batch R p ds v v') (hb : Brings R) (hs : Spends R.marker v v')
    (hv : Tidied R.marker cs v) : Advanced R.marker cs v v' := by
  cases h with
  | idle => exact .refl hv
  | splice hne hf hsp =>
    obtain ⟨n, hn⟩ := hv.aligned.exists_at?
    have hc := forall_mem_gather (p := p) hf (hb.clean.supplied ds)
    have hk := forall_mem_gather (p := p) hf (hb.keyed.supplied ds)
    obtain ⟨hk', ha, hsw⟩ := swept_spliced (spliced_of_splice? hsp hn)
      hk hc hv.keyed hv.aligned hv.swept
    refine ⟨⟨hk'.mapComments _, ha.mapComments _, ?_, hs.covered hv.extra⟩, hs.paid hv.extra⟩
    exact hsw.mapComments hk' fun m hm => hm.eraseAll _

/-- The node that the path leads to behind a batch: one from a file, or
the node from before, with comments erased and perhaps more children. -/
theorem Batch.exists_node (h : Batch R p ds v v') (hb : Brings R)
    (hn : v.tree.root.at? v.path = some n) :
    ∃ n', v'.tree.root.at? v'.path = some n' ∧ (AllClean R.marker n' ∨ (p = .replace → ds = []) ∧
        ∃ m : Node, m.own = n.own ∧ n' = m.eraseAll (ds.filterMap (·.comment))) := by
  cases h with
  | idle => exact ⟨n, hn, .inr ⟨fun _ => rfl, n, rfl, (Node.eraseAll_nil n).symm⟩⟩
  | splice hne hf hs =>
    obtain ⟨m, hm, hc⟩ := (spliced_of_splice? hs hn).exists_at? hn
    refine ⟨m.eraseAll _, by rw [Node.at?_mapComments, hm]; rfl, ?_⟩
    rcases hc with ⟨-, hg⟩ | ⟨key, list, rfl, -, rfl⟩ | ⟨key, hp, rfl⟩
    · refine .inl (Node.Every.mapComments ?_ fun k (hk : Clean R.marker k) => hk.eraseAll _)
      refine forall_mem_gather (p := p) hf (hb.clean.supplied _) m ?_
      rw [hg]
      exact mem_singleton_self m
    · exact .inr ⟨nofun, _, Node.own_modifyList .., rfl⟩
    · refine .inr ⟨fun heq => ?_, m, rfl, rfl⟩
      rcases hp with rfl | rfl <;> cases heq

-- == turns

theorem Quotes.advanced (h : Quotes R v v') (hb : Brings R) (hv : Tidied R.marker cs v) :
    Advanced R.marker cs v v' ∧ ∃ n, v'.tree.root.at? v'.path = some n ∧
      ofLiteral? R.marker n = none := by
  have hs := h.spends hb.clean hv.keyed
  obtain ⟨n, hn, hba⟩ := h
  refine ⟨hba.advanced hb hs hv, ?_⟩
  obtain ⟨n', hn', hc | ⟨hi, m, hm, rfl⟩⟩ := hba.exists_node hb hn
  · exact ⟨n', hn', hc.self.literal⟩
  · refine ⟨_, hn', ?_⟩
    rw [ofLiteral?_eraseAll_of_own hm]
    exact Option.toList_eq_nil_iff.1 (hi rfl)

theorem Fills.advanced {host : Option String} {keys : List String} (h : Fills R host keys v v')
    (hbr : Brings R) (hv : Tidied R.marker cs v) (hn : v.tree.root.at? v.path = some n)
    (hl : ofLiteral? R.marker n = none) :
    Advanced R.marker cs v v' ∧ ∃ n, v'.tree.root.at? v'.path = some n ∧
      ofLiteral? R.marker n = none := by
  induction h generalizing n with
  | nil => exact ⟨.refl hv, n, hn, hl⟩
  | skip _ _ ih => exact ih hv hn hl
  | fill hn' _ _ _ hb _ ih =>
    obtain rfl := Option.some.inj (hn.symm.trans hn')
    have ha := hb.advanced hbr (hb.spends_store hbr.clean hv.keyed hn) hv
    obtain ⟨n', hn', hc | ⟨-, m, hm, rfl⟩⟩ := hb.exists_node hbr hn
    · exact (ih ha.tidied hn' hc.self.literal).imp_left ha.trans
    · refine (ih ha.tidied hn' ?_).imp_left ha.trans
      rwa [ofLiteral?_eraseAll_of_own hm]

theorem Leads.advanced (h : Leads R v v') (hb : Brings R) (hv : Tidied R.marker cs v)
    (hn : v.tree.root.at? v.path = some n) (hl : ofLiteral? R.marker n = none) :
    Advanced R.marker cs v v' ∧ ∃ n, v'.tree.root.at? v'.path = some n ∧
      ofLiteral? R.marker n = none ∧ ofComments R.marker n.leading = [] := by
  have hs := h.spends hb.clean hv.keyed
  obtain ⟨n', hn', hba⟩ := h
  obtain rfl := Option.some.inj (hn.symm.trans hn')
  refine ⟨hba.advanced hb hs hv, ?_⟩
  obtain ⟨n', hn', hc | ⟨-, m, hm, rfl⟩⟩ := hba.exists_node hb hn
  · have hco := forall_mem_append.1 hc.self.comments
    exact ⟨n', hn', hc.self.literal, Directive.ofComments_eq_nil_iff.2 hco.1⟩
  · refine ⟨_, hn', ?_, ?_⟩
    · rwa [ofLiteral?_eraseAll_of_own hm]
    · rw [Node.leading_mapComments, Directive.filterMap_comment_ofComments, leading_eq_of_own hm]
      exact ofComments_diff_filter ..

theorem Trails.advanced (h : Trails R v v') (hb : Brings R) (hv : Tidied R.marker cs v)
    (hn : v.tree.root.at? v.path = some n) (hli : ofLiteral? R.marker n = none)
    (hl : ofComments R.marker n.leading = []) :
    Advanced R.marker cs v v' ∧ ∃ n, v'.tree.root.at? v'.path = some n ∧ Clean R.marker n := by
  have hs := h.spends hb.clean hv.keyed
  obtain ⟨n', hn', hba⟩ := h
  obtain rfl := Option.some.inj (hn.symm.trans hn')
  refine ⟨hba.advanced hb hs hv, ?_⟩
  obtain ⟨n', hn', hc | ⟨-, m, hm, rfl⟩⟩ := hba.exists_node hb hn
  · exact ⟨n', hn', hc.self⟩
  · refine ⟨_, hn', ⟨forall_mem_append.2 ⟨?_, ?_⟩, ?_⟩⟩
    · rw [← Directive.ofComments_eq_nil_iff, Node.leading_mapComments,
        leading_eq_of_own hm, ← subset_nil, ← hl]
      exact ofComments_diff_subset ..
    · rw [← Directive.ofComments_eq_nil_iff, Node.trailing_mapComments, filterMap_reverse,
        Directive.filterMap_comment_ofComments,
        trailing_eq_of_own hm,
        List.Perm.diff_left _ (reverse_perm _)]
      exact ofComments_diff_filter ..
    · rwa [ofLiteral?_eraseAll_of_own hm]

/-- A node that was entered has no directive left. -/
theorem enter_advanced (hb : Brings R) (hv : Tidied R.marker cs v) (h : R.enter v = .ok v') :
    Advanced R.marker cs v v' ∧ ∃ n, v'.tree.root.at? v'.path = some n ∧ Clean R.marker n := by
  obtain ⟨n, hn⟩ := hv.aligned.exists_at?
  obtain ⟨v₁, v₂, v₃, hq, hf, hl, ht⟩ := enter_turns hb.clean hn h
  obtain ⟨h₁, n₁, hn₁, hl₁⟩ := hq.advanced hb hv
  obtain ⟨h₂, n₂, hn₂, hl₂⟩ := hf.advanced hb h₁.tidied hn₁ hl₁
  obtain ⟨h₃, n₃, hn₃, hl₃, hle₃⟩ := hl.advanced hb h₂.tidied hn₂ hl₂
  obtain ⟨h₄, hc⟩ := ht.advanced hb h₃.tidied hn₃ hl₃ hle₃
  exact ⟨h₁.trans (h₂.trans (h₃.trans h₄)), hc⟩

theorem visitor_sweeps (hb : Brings R) :
    Sweeps R.visitor (fun _ => Clean R.marker) (Covered R.marker) := by
  refine ⟨fun _ => rfl, fun cs v v' hv h => ?_⟩
  obtain ⟨ha, hc⟩ := enter_advanced hb hv h
  refine ⟨ha.tidied, hc, ?_⟩
  rcases ha.paid with rfl | hlt
  · exact .inr ⟨rfl, rfl, rfl⟩
  · exact .inl hlt

theorem resolveWith_consumes {t t' : Tree} (hb : Brings R) (ht : t.root.Keyed)
    (h : R.run t = .ok t') : t'.root.Keyed ∧ AllClean R.marker t'.root := by
  obtain ⟨⟨memory, tree⟩, hw, h⟩ := bind_ok_iff.1 h
  cases h
  obtain ⟨hk, hc, -, -⟩ := Walk.walk_sweeps (visitor_sweeps hb) ht (Nat.le_refl _) hw
  exact ⟨hk, hc⟩

end Advances

section Depths

variable {lib : Library} {c : Context} {P : Node → Prop} {R : Round} {t' t : Tree}

/-- What is known of every tree that is resolved is known of the nodes of
every file that is included. -/
theorem fetches_of_inner (h : ∀ c t t', t.root.Keyed → R.inner c t = .ok t' → ∀ n ∈ t'.body, P n) :
    Fetches R P := by
  intro d ns hf
  obtain ⟨tech, -, hf⟩ := bind_ok_iff.1 hf
  obtain ⟨text, -, hf⟩ := bind_ok_iff.1 hf
  obtain ⟨t, hp, hf⟩ := bind_ok_iff.1 hf
  obtain ⟨t', hi, hf⟩ := bind_ok_iff.1 hf
  cases hf
  exact h _ t t' (Tech.keyed_of_parse hp) hi

theorem every_of_mem_body {n : Node} (h : t.root.Every P) (hn : n ∈ t.body) : n.Every P := by
  obtain ⟨list, hl, hn⟩ := Tree.mem_body_iff.1 hn
  obtain ⟨i, hi, rfl⟩ := mem_iff_getElem.1 hn
  exact h.step ((Node.step?_item hl i).trans (getElem?_eq_getElem hi))

theorem brings_of_inner (h : ∀ c t t', t.root.Keyed → R.inner c t = .ok t' →
      t'.root.Keyed ∧ AllClean R.marker t'.root) : Brings R where
  clean := fetches_of_inner fun c t t' ht hi _ hn => every_of_mem_body (h c t t' ht hi).2 hn
  keyed := fetches_of_inner fun c t t' ht hi _ hn => every_of_mem_body (h c t t' ht hi).1 hn

/-- What resolves the files that a tree includes. -/
def below (lib : Library) : Nat → Context → Tree → Except Error Tree
  | 0 => fun c _ => .error (.read (c.sourcePath.getD "") "included by itself")
  | depth + 1 => resolve lib depth

/-- The round of a depth. -/
abbrev round (lib : Library) (depth : Nat) (c : Context) : Round := ⟨lib, below lib depth, c⟩

theorem resolve_eq (lib : Library) (depth : Nat) (c : Context) (t : Tree) :
    resolve lib depth c t = (round lib depth c).run t := by
  cases depth <;> rfl

/-- What a round keeps, if the rounds below it do, holds of all that is
resolved. -/
theorem resolve_induction {M : Context → Tree → Tree → Prop}
    (hr : ∀ depth c t t', (∀ c u u', below lib depth c u = .ok u' → M c u u') →
      (round lib depth c).run t = .ok t' → M c t t') (depth : Nat)
    (h : resolve lib depth c t = .ok t') : M c t t' := by
  induction depth generalizing c t t' with
  | zero =>
    refine hr 0 c t t' (fun _ _ _ hi => ?_) h
    cases hi
  | succ depth ih => exact hr (depth + 1) c t t' (fun _ _ _ hi => ih hi) h

theorem exists_of_below {depth : Nat} (h : below lib depth c t = .ok t') :
    ∃ depth, resolve lib depth c t = .ok t' := by
  cases depth with
  | zero => cases h
  | succ depth => exact ⟨depth, h⟩

theorem resolve_keyed_clean (depth : Nat) (ht : t.root.Keyed) (h : resolve lib depth c t = .ok t') :
    t'.root.Keyed ∧ AllClean lib.marker t'.root := by
  refine resolve_induction (M := fun _ t t' =>
    t.root.Keyed → t'.root.Keyed ∧ AllClean lib.marker t'.root) ?_ depth h ht
  intro depth c t t' hi hr ht
  exact resolveWith_consumes (R := round lib depth c)
    (brings_of_inner fun c u u' hu h => hi c u u' h hu) ht hr

/-- The files that are included have been resolved. -/
theorem brings_below (lib : Library) (depth : Nat) (c : Context) : Brings (round lib depth c) := by
  refine brings_of_inner fun c u u' hu h => ?_
  obtain ⟨depth, h⟩ := exists_of_below h
  exact resolve_keyed_clean depth hu h

end Depths

end Inclusion

/-- No node of a tree that was resolved has a directive, neither in its
comments nor as its value, and that goes for the nodes of all included
files as well. -/
theorem resolve_consumes {lib : Library} {depth : Nat} {c : Context} {t t' : Tree} (ht : Loaded t)
    (h : resolve lib depth c t = .ok t') :
    ∀ n ∈ t'.root.preorder,
      (∀ com ∈ n.leading ++ n.trailing, Directive.ofComment? lib.marker com = none) ∧
        ofLiteral? lib.marker n = none :=
  fun n hn =>
    have hclean := (Inclusion.resolve_keyed_clean depth ht.keyed h).2 n hn
    ⟨hclean.comments, hclean.literal⟩

/-- A library of the given files, with the techs and the marker that come
along. -/
def Library.ofFiles (files : List (String × String)) : Library where
  techs := Registry.builtin
  defaultTech := some "txt"
  marker := Directive.defaultMarker
  workingDirectory := "/"
  read path :=
    match files.lookup path with
    | some text => .ok text
    | none => .error (.read path "no such file")

/-- A script that includes a script, which includes a text and another
script. -/
def Script.including : String := "var a = /*borschik:include:a.js*/ 1;"

def Library.nested : Library :=
  .ofFiles
    [ ("/a.js", "/*borschik:include:lib/b.js*/ var x = ['borschik:include:c.txt'];"),
      ("/lib/b.js", "function b() \x7b /* borschik:include:c.js */ \x7d"),
      ("/lib/c.js", "b();"), ("/c.txt", "text") ]

theorem resolve_consumes_nested :
    ∃ t t', Loaded t ∧ resolve .nested 3 (.start none none) t = .ok t' ∧
      ∀ n ∈ t'.root.preorder,
        (∀ com ∈ n.leading ++ n.trailing,
          Directive.ofComment? Library.nested.marker com = none) ∧
        ofLiteral? Library.nested.marker n = none := by
  have hok : (Tech.js.parse Script.including none >>= resolve .nested 3 (.start none none)).toBool =
      true := by decide +kernel
  obtain ⟨t', h⟩ := exists_of_toBool hok
  obtain ⟨t, hparse, hresolve⟩ := bind_ok_iff.1 h
  have ht : Loaded t := .parsed .js Script.including none hparse
  exact ⟨t, t', ht, hresolve, resolve_consumes ht hresolve⟩

end Inlay
