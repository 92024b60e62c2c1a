/-
Inclusion, one batch of directives at a time.

The files of a batch are spliced one after the other, and the comments with
the directives go in between; but in the end it is as if there had been one
splice of all their nodes, with all the comments erased behind it
(`batch_of_foldlM`), because the nodes of a file that was resolved have no
directives. Entering a node is a short chain of such turns (`enter_turns`).
-/
import Inlay.Inclusion
import Inlay.Proofs.Tree.Splicing

namespace Inlay

open List

-- == directives

namespace Directive

variable {marker : String} {c : Comment} {d : Directive} {cs : List Comment}

/-- Whether a comment is a directive. -/
def isIn (marker : String) (c : Comment) : Bool := (ofComment? marker c).isSome

theorem comment_of_ofComment? (h : ofComment? marker c = some d) : d.comment = some c := by
  unfold ofComment? at h
  split at h
  · cases h
  · obtain ⟨path, -, rfl⟩ := Option.map_eq_some_iff.1 h
    rfl

theorem range_of_ofComment? (h : ofComment? marker c = some d) : d.range = c.range := by
  unfold ofComment? at h
  split at h
  · cases h
  · obtain ⟨path, -, rfl⟩ := Option.map_eq_some_iff.1 h
    rfl

theorem kind_of_ofLiteral? {n : Node} (h : ofLiteral? marker n = some d) : n.kind = .literal := by
  obtain ⟨value, hv, -⟩ := Option.bind_eq_some_iff.1 h
  unfold Node.stringValue? at hv
  split at hv
  · next hk => exact hk
  · cases hv

theorem comment_of_ofLiteral? {n : Node} (h : ofLiteral? marker n = some d) : d.comment = none := by
  obtain ⟨value, -, h⟩ := Option.bind_eq_some_iff.1 h
  obtain ⟨path, -, h⟩ := Option.bind_eq_some_iff.1 h
  cases h
  rfl

theorem filterMap_comment_ofComments (marker : String) (cs : List Comment) :
    (ofComments marker cs).filterMap (·.comment) = cs.filter (isIn marker) := by
  induction cs with
  | nil => rfl
  | cons c cs ih =>
    rw [ofComments] at ih ⊢
    cases hd : ofComment? marker c with
    | none => rw [filterMap_cons_none hd, filter_cons_of_neg (by simp [isIn, hd]), ih]
    | some d =>
      rw [filterMap_cons_some hd, filterMap_cons_some (comment_of_ofComment? hd),
        filter_cons_of_pos (by simp [isIn, hd]), ih]

theorem ofComments_eq_nil_iff : ofComments marker cs = [] ↔ ∀ c ∈ cs, ofComment? marker c = none :=
  filterMap_eq_nil_iff

theorem ofLiteral?_mapComments (marker : String) (f : List Comment → List Comment) (n : Node) :
    ofLiteral? marker (n.mapComments f) = ofLiteral? marker n := by
  rw [ofLiteral?, ofLiteral?, Node.stringValue?_mapComments, Node.range_mapComments, Node.start?,
    Node.start?, Node.loc_mapComments]

end Directive

namespace Inclusion

/-- A round of inclusion: what files are read with, how they are resolved
in their turn, and where they are included. -/
structure Round where
  lib : Library
  inner : Context → Tree → Except Error Tree
  c : Context

namespace Round

variable (R : Round)

abbrev marker : String := R.lib.marker

abbrev fetch (d : Directive) : Except Error (List Node) := Inclusion.fetch R.lib R.inner R.c d

abbrev insert (p : Placement) (v : Visit) (d : Directive) : Except Error Visit :=
  Inclusion.insert R.lib R.inner R.c p v d

abbrev enter (v : Visit) : Except Error Visit := Inclusion.enter R.lib R.inner R.c v

abbrev visitor : Walk.Visitor Nat Error := Inclusion.visitor R.lib R.inner R.c

abbrev run (t : Tree) : Except Error Tree := resolveWith R.lib R.inner R.c t

end Round

variable {marker : String} {n m : Node} {cs : List Comment} {ns : List Node} {P : Node → Prop}
  {p : Placement} {host : Option String}

/-- A node without directives. -/
structure Clean (marker : String) (n : Node) : Prop where
  comments : ∀ c ∈ n.leading ++ n.trailing, Directive.ofComment? marker c = none
  literal : Directive.ofLiteral? marker n = none

/-- A tree without directives on its nodes. -/
def AllClean (marker : String) (n : Node) : Prop := n.Every (Clean marker)

theorem AllClean.eraseAll_eq (h : AllClean marker n) (hcs : ∀ c ∈ cs, Directive.isIn marker c = true) :
    n.eraseAll cs = n := by
  refine Node.mapComments_eq_self fun m hm => ?_
  have hd : ∀ l : List Comment, (∀ c ∈ l, Directive.ofComment? marker c = none) → l.diff cs = l := by
    intro l hl
    induction cs with
    | nil => rfl
    | cons c cs ih =>
      rw [forall_mem_cons] at hcs
      rw [diff_cons, erase_of_not_mem, ih hcs.2]
      intro hc
      have := hcs.1
      rw [Directive.isIn, hl c hc] at this
      cases this
  have hcl := (h m hm).comments
  rw [forall_mem_append] at hcl
  exact ⟨hd _ hcl.1, hd _ hcl.2⟩

-- == batches

/-- The nodes of the files of a batch as they come to stand. -/
def gather : Placement → List (List Node) → List Node
  | .replace, contents => contents.getLast?.getD []
  | .into _, contents | .before _, contents => contents.flatten
  | .after _, contents => contents.reverse.flatten

theorem mem_gather {contents : List (List Node)} (h : n ∈ gather p contents) :
    ∃ ns ∈ contents, n ∈ ns := by
  cases p with
  | into key => exact mem_flatten.1 h
  | before key => exact mem_flatten.1 h
  | after key =>
    obtain ⟨ns, hns, hn⟩ := mem_flatten.1 h
    exact ⟨ns, mem_reverse.1 hns, hn⟩
  | replace =>
    rw [gather] at h
    cases hl : contents.getLast? with
    | none =>
      rw [hl] at h
      cases h
    | some ns =>
      rw [hl] at h
      exact ⟨ns, mem_of_getLast? hl, h⟩

variable {root root₁ : Node} {path path₁ : Path}

/-- A splice and those of the rest of a batch are the splice of the
batch. -/
theorem splice?_gather {contents : List (List Node)}
    (h : p.splice? ns root path = some (root₁, path₁)) (hm : root.at? path = some m)
    (hne : contents ≠ []) :
    p.splice? (gather p contents) root₁ path₁ = p.splice? (gather p (ns :: contents)) root path := by
  cases p with
  | into key => exact splice?_into_append h _
  | before key => exact splice?_before_append h hm _
  | after key =>
    rw [splice?_after_append h hm]
    simp [gather]
  | replace =>
    rw [splice?_replace h, gather, gather, getLast?_cons_of_ne_nil hne]

variable (R : Round)

/-- What becomes of a visit by a batch of directives: all their files are
spliced, and the comments with the directives are erased. -/
inductive Batch (p : Placement) : List Directive → Visit → Visit → Prop
  | idle {v} : Batch p [] v v
  | splice {ds v contents root path} (hne : ds ≠ [])
      (hfetch : List.Forall₂ (fun d ns => R.fetch d = .ok ns) ds contents)
      (hsplice : p.splice? (gather p contents) v.tree.root v.path = some (root, path)) :
      Batch p ds v ⟨v.memory - ds.length,
        ⟨root.eraseAll (ds.filterMap (·.comment)), v.tree.comments.diff (ds.filterMap (·.comment))⟩,
        path⟩

/-- What is known of the nodes of the files of some directives. -/
def Supplied (ds : List Directive) (P : Node → Prop) : Prop :=
  ∀ d ∈ ds, ∀ ns, R.fetch d = .ok ns → ∀ n ∈ ns, P n

/-- What is known of the nodes of all files that are included. -/
def Fetches (P : Node → Prop) : Prop :=
  ∀ d ns, R.fetch d = .ok ns → ∀ n ∈ ns, P n

variable {R}

theorem Fetches.supplied (h : Fetches R P) (ds : List Directive) : Supplied R ds P := fun d _ => h d

theorem insert_eq_ok {d : Directive} {v v' : Visit} (h : R.insert p v d = .ok v') :
    ∃ ns root path, R.fetch d = .ok ns ∧ p.splice? ns v.tree.root v.path = some (root, path) ∧
      v' = ⟨v.memory - 1,
        ⟨root.eraseAll d.comment.toList, v.tree.comments.diff d.comment.toList⟩, path⟩ := by
  obtain ⟨ns, hf, h⟩ := bind_ok_iff.1 h
  split at h
  · cases h
  · next root path hs =>
    cases h
    refine ⟨ns, root, path, hf, hs, ?_⟩
    cases d.comment with
    | none => rw [Option.toList_none, Node.eraseAll_nil, diff_nil, Option.elim_none]
    | some com =>
      rw [Option.toList_some, ← Node.eraseComment_eq_eraseAll, diff_cons, diff_nil]
      rfl

theorem exists_of_mem_contents {ds : List Directive} {contents : List (List Node)}
    (h : List.Forall₂ (fun d ns => R.fetch d = .ok ns) ds contents) (hns : ns ∈ contents) :
    ∃ d ∈ ds, R.fetch d = .ok ns := by
  induction h with
  | nil => cases hns
  | @cons d ms ds contents hf _ ih =>
    rcases mem_cons.1 hns with rfl | hns
    · exact ⟨d, mem_cons_self, hf⟩
    · obtain ⟨d', hd', hf'⟩ := ih hns
      exact ⟨d', mem_cons_of_mem d hd', hf'⟩

theorem forall_mem_gather {ds : List Directive} {contents : List (List Node)}
    (hf : List.Forall₂ (fun d ns => R.fetch d = .ok ns) ds contents) (h : Supplied R ds P) :
    ∀ n ∈ gather p contents, P n := by
  intro n hn
  obtain ⟨ns, hns, hn⟩ := mem_gather hn
  obtain ⟨d, hd, hfe⟩ := exists_of_mem_contents hf hns
  exact h d hd ns hfe n hn

theorem batch_of_foldlM (hfet : Fetches R (AllClean R.marker)) {ds : List Directive}
    (hds : ∀ d ∈ ds, ∀ com ∈ d.comment.toList, Directive.isIn R.marker com = true) {v v' : Visit}
    (hm : v.tree.root.at? v.path = some m) (h : ds.foldlM (R.insert p) v = .ok v') :
    Batch R p ds v v' := by
  induction ds generalizing v m with
  | nil =>
    cases h
    exact .idle
  | cons d ds ih =>
    rw [forall_mem_cons] at hds
    rw [foldlM_cons] at h
    obtain ⟨v₁, hi, hr⟩ := bind_ok_iff.1 h
    obtain ⟨ns, root₁, path₁, hfe, hs, rfl⟩ := insert_eq_ok hi
    obtain ⟨m₁, hm₁, -⟩ := (spliced_of_splice? hs hm).exists_at? hm
    have hb := ih hds.2 (by rw [Node.at?_mapComments, hm₁]; rfl) hr
    have hc : (d :: ds).filterMap (·.comment) = d.comment.toList ++ ds.filterMap (·.comment) := by
      cases hd : d.comment <;> simp [hd]
    generalize hv₁ : (⟨v.memory - 1, ⟨root₁.eraseAll d.comment.toList,
      v.tree.comments.diff d.comment.toList⟩, path₁⟩ : Visit) = v₁ at hb
    cases hb with
    | idle =>
      have hg : gather p [ns] = ns := by cases p <;> simp [gather]
      rw [filterMap_nil, append_nil] at hc
      rw [← hv₁, ← hc]
      exact .splice (cons_ne_nil d []) (.cons hfe .nil) (by rw [hg, hs])
    | @splice _ _ contents root₂ path₂ hne hf hs₂ =>
      -- the comment may as well be erased behind the other splices
      subst hv₁
      have hcl : (gather p contents).map (Node.eraseAll d.comment.toList) = gather p contents := by
        conv => rhs; rw [← map_id (gather p contents)]
        exact map_congr_left fun n hn =>
          (forall_mem_gather hf (hfet.supplied ds) n hn).eraseAll_eq hds.1
      rw [← hcl, splice?_mapComments] at hs₂
      obtain ⟨⟨root, path⟩, hsp, heq⟩ := Option.map_eq_some_iff.1 hs₂
      cases heq
      have hco : contents ≠ [] := by
        rintro rfl
        cases hf
        exact hne rfl
      rw [splice?_gather hs hm hco] at hsp
      have hv := Batch.splice (cons_ne_nil d ds) (.cons hfe hf) hsp
      rw [hc, Node.eraseAll_append, diff_append, length_cons, Nat.add_comm, Nat.sub_add_eq] at hv
      exact hv

theorem Batch.exists_at? {ds : List Directive} {v v' : Visit} (h : Batch R p ds v v')
    (hm : v.tree.root.at? v.path = some m) : ∃ m', v'.tree.root.at? v'.path = some m' := by
  cases h with
  | idle => exact ⟨m, hm⟩
  | splice hne hf hs =>
    obtain ⟨m₁, hm₁, -⟩ := (spliced_of_splice? hs hm).exists_at? hm
    exact ⟨_, by rw [Node.at?_mapComments, hm₁]; rfl⟩

-- == turns

theorem isIn_of_mem_ofComments {ds : List Directive} (h : ∀ d ∈ ds, d ∈ Directive.ofComments marker cs) :
    ∀ d ∈ ds, ∀ com ∈ d.comment.toList, Directive.isIn marker com = true := by
  intro d hd com hc
  obtain ⟨com', -, hof⟩ := mem_filterMap.1 (h d hd)
  rw [Directive.comment_of_ofComment? hof, Option.toList_some, mem_singleton] at hc
  rw [hc, Directive.isIn, hof]
  rfl

theorem inEmptyList_eq_some_iff {v : Visit} {key : String} {ds : List Directive} :
    inEmptyList R.lib host v key = some (p, ds) ↔
      ∃ n range, v.tree.root.at? v.path = some n ∧ n.range = some range ∧ n.source? = host ∧
        n.children? key = some [] ∧ p = (if n.kind.isAtomic then .replace else .into key) ∧
        ds = Directive.within R.marker range v.tree.comments := by
  constructor
  · intro h
    obtain ⟨n, hn, h⟩ := Option.bind_eq_some_iff.1 h
    obtain ⟨range, hr, h⟩ := Option.bind_eq_some_iff.1 h
    split at h
    · next he =>
      obtain ⟨list, hl, hni⟩ := (Option.any_eq_true _ _).1 he.2
      rw [List.isEmpty_iff] at hni
      cases h
      exact ⟨n, range, hn, hr, he.1, hni ▸ hl, rfl, rfl⟩
    · cases h
  · rintro ⟨n, range, hn, hr, hs, hl, rfl, rfl⟩
    simp [inEmptyList, hn, hr, hs, hl]

variable (R)

/-- A literal that is a directive becomes the text of its file. -/
def Quotes (v v' : Visit) : Prop :=
  ∃ n, v.tree.root.at? v.path = some n ∧
    Batch R .replace (Directive.ofLiteral? R.marker n).toList v v'

/-- The empty lists of these names are filled, one after the other. -/
inductive Fills (host : Option String) : List String → Visit → Visit → Prop
  | nil {v} : Fills host [] v v
  | skip {key keys v v'} (hnone : inEmptyList R.lib host v key = none) (h : Fills host keys v v') :
      Fills host (key :: keys) v v'
  | fill {key keys v v₁ v' n range} (hn : v.tree.root.at? v.path = some n)
      (hrange : n.range = some range) (hsource : n.source? = host)
      (hlist : n.children? key = some [])
      (hbatch : Batch R (if n.kind.isAtomic then .replace else .into key)
        (Directive.within R.marker range v.tree.comments) v v₁)
      (h : Fills host keys v₁ v') : Fills host (key :: keys) v v'

/-- The directives that lead a node put their files before it. -/
def Leads (v v' : Visit) : Prop :=
  ∃ n, v.tree.root.at? v.path = some n ∧
    Batch R (.before "body") (Directive.ofComments R.marker n.leading) v v'

/-- The directives that trail a node put their files behind it. -/
def Trails (v v' : Visit) : Prop :=
  ∃ n, v.tree.root.at? v.path = some n ∧
    Batch R (.after "body") (Directive.ofComments R.marker n.trailing).reverse v v'

variable {R}

theorem fills_of_foldlM (hf : Fetches R (AllClean R.marker)) {keys : List String}
    {v v' : Visit} (hm : v.tree.root.at? v.path = some m) (h : keys.foldlM (fun v key =>
      match inEmptyList R.lib host v key with
      | some (p, ds) => ds.foldlM (R.insert p) v
      | none => .ok v) v = .ok v') :
    Fills R host keys v v' ∧ ∃ m', v'.tree.root.at? v'.path = some m' := by
  induction keys generalizing v m with
  | nil =>
    cases h
    exact ⟨.nil, m, hm⟩
  | cons key keys ih =>
    rw [foldlM_cons] at h
    obtain ⟨v₁, hk, hr⟩ := bind_ok_iff.1 h
    cases he : inEmptyList R.lib host v key with
    | none =>
      rw [he] at hk
      cases hk
      exact (ih hm hr).imp_left (.skip he)
    | some batch =>
      obtain ⟨p, ds⟩ := batch
      rw [he] at hk
      obtain ⟨n, range, hn, hra, hs, hl, rfl, rfl⟩ := inEmptyList_eq_some_iff.1 he
      have hb := batch_of_foldlM hf (isIn_of_mem_ofComments fun _ hd => hd) hn hk
      obtain ⟨m₁, hm₁⟩ := hb.exists_at? hn
      exact (ih hm₁ hr).imp_left (.fill hn hra hs hl hb)

theorem enter_turns (hf : Fetches R (AllClean R.marker)) {v v' : Visit}
    (hm : v.tree.root.at? v.path = some m) (h : R.enter v = .ok v') :
    ∃ v₁ v₂ v₃, Quotes R v v₁ ∧ Fills R v.tree.root.source? lendableKeys v₁ v₂ ∧
      Leads R v₂ v₃ ∧ Trails R v₃ v' := by
  obtain ⟨v₁, hq, h⟩ := bind_ok_iff.1 h
  obtain ⟨v₂, hfi, h⟩ := bind_ok_iff.1 h
  obtain ⟨v₃, hl, ht⟩ := bind_ok_iff.1 h
  dsimp only at hq hfi hl ht
  rw [hm, Option.bind_some] at hq
  have hqu := batch_of_foldlM hf (fun d hd com hc => by
    rw [Directive.comment_of_ofLiteral? (Option.mem_toList.1 hd)] at hc
    cases hc) hm hq
  obtain ⟨m₁, hm₁⟩ := hqu.exists_at? hm
  obtain ⟨hfil, m₂, hm₂⟩ := fills_of_foldlM hf hm₁ hfi
  rw [hm₂, Option.elim_some] at hl
  have hle := batch_of_foldlM hf (isIn_of_mem_ofComments fun _ hd => hd) hm₂ hl
  obtain ⟨m₃, hm₃⟩ := hle.exists_at? hm₂
  rw [hm₃, Option.elim_some] at ht
  have htr := batch_of_foldlM hf (isIn_of_mem_ofComments fun _ hd => mem_reverse.1 hd) hm₃ ht
  exact ⟨v₁, v₂, v₃, ⟨m, hm, hqu⟩, hfil, ⟨m₂, hm₂, hle⟩, ⟨m₃, hm₃, htr⟩⟩

end Inclusion

end Inlay
