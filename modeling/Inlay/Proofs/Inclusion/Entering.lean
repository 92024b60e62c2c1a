/-
Entering a node.

The walk of a run is followed in the tree as it would be if no comment
were ever erased: what is seen of it is that tree without the comments
that are gone so far (`Shows`). There each batch is one splice
(`Batch.shows`), and entering a node puts nodes around it and changes the
node itself (`enter_shows`).

Nodes of included files are inert, so a run passes them without a change
(`Inert.idles`). That is known of directives that are taken (`Tame`): those
whose comment is gone from the store `T` at the end.
-/
import Inlay.Proofs.Inclusion.Weave

namespace Inlay

open Directive (ofComments isIn ofLiteral? within)

open Walk (Tours ToursOf)

namespace Inclusion

open List Node

section Entering

variable {R : Round} {host : Option String} {S T E : List Comment} {root n m : Node} {path : Path}
  {v v' v₁ v₂ last : Visit} {p : Placement} {ds : List Directive} {d : Directive}
  {keys : List String} {s : Sleeve}

-- == visits

/-- A visit as it is seen when some comments are gone. -/
structure Shows (S E : List Comment) (root : Node) (path : Path) (v : Visit) : Prop where
  root_eq : v.tree.root = root.eraseAll E
  comments_eq : v.tree.comments = S.diff E
  path_eq : v.path = path

theorem Shows.at? (h : Shows S E root path v) (hn : root.at? path = some n) :
    v.tree.root.at? v.path = some (n.eraseAll E) := by
  rw [h.root_eq, h.path_eq, at?_mapComments, hn]
  rfl

theorem Shows.nodup (h : Shows S E root path v) (hS : S.Nodup) : v.tree.comments.Nodup :=
  h.comments_eq ▸ hS.diff

theorem Shows.congr {root' : Node} (h : Shows S E root path v) (heq : root = root') :
    Shows S E root' path v := heq ▸ h

/-- What a run weaves with: each directive stands for the top level nodes
of its file. -/
def Round.weft (R : Round) (store : List Comment) : Weft :=
  ⟨R.marker, store, fun d => (R.fetch d).toOption.getD []⟩

theorem content_eq {ns : List Node} (h : R.fetch d = .ok ns) : (R.weft S).content d = ns := by
  show (R.fetch d).toOption.getD [] = ns
  rw [h]
  rfl

/-- A directive that a run takes: its file was read, and its comment is
gone in the end. -/
structure Taken (R : Round) (T : List Comment) (d : Directive) : Prop where
  fetched : ∃ ns, R.fetch d = .ok ns
  gone : Gone T d

theorem contents_eq {contents : List (List Node)}
    (h : List.Forall₂ (fun d ns => R.fetch d = .ok ns) ds contents) :
    contents = ds.map (R.weft S).content ∧ ∀ d ∈ ds, ∃ ns, R.fetch d = .ok ns := by
  induction h with
  | nil => exact ⟨rfl, nofun⟩
  | cons hf _ ih =>
    rw [map_cons, content_eq hf, ← ih.1]
    exact ⟨rfl, forall_mem_cons.2 ⟨⟨_, hf⟩, ih.2⟩⟩

theorem clean_of_mem_content (hb : Brings R) (hm : m ∈ (R.weft S).content d) :
    AllClean R.marker m := by
  cases hf : R.fetch d with
  | ok ns =>
    rw [content_eq hf] at hm
    exact hb.clean d ns hf m hm
  | error e =>
    have hn : (R.weft S).content d = [] := by
      show (R.fetch d).toOption.getD [] = []
      rw [hf]
      rfl
    rw [hn] at hm
    cases hm

theorem Batch.shows (h : Batch R p ds v v') (hb : Brings R)
    (hE : ∀ e ∈ E, isIn R.marker e = true) (hS : S.Nodup) (hT : T ⊆ v'.tree.comments)
    (hv : Shows S E root path v) :
    (∀ d ∈ ds, Taken R T d) ∧
      ∃ root' path', Shows S (E ++ ds.filterMap (·.comment)) root' path' v' ∧
        (ds = [] ∧ root' = root ∧ path' = path ∨
          p.splice? (gather p (ds.map (R.weft S).content)) root path = some (root', path')) := by
  have hg := h.gone (hv.nodup hS)
  cases h with
  | idle =>
    refine ⟨nofun, root, path, ?_, .inl ⟨rfl, rfl, rfl⟩⟩
    rwa [filterMap_nil, append_nil]
  | splice hne hf hs =>
    obtain ⟨rfl, hfe⟩ := contents_eq (S := S) hf
    refine ⟨fun d hd => ⟨hfe d hd, (hg d hd).mono hT⟩, ?_⟩
    have hc : (gather p (ds.map (R.weft S).content)).map (Node.eraseAll E) =
        gather p (ds.map (R.weft S).content) := by
      conv => rhs; rw [← map_id (gather p (ds.map (R.weft S).content))]
      exact map_congr_left fun n hn =>
        (forall_mem_gather hf (hb.clean.supplied ds) n hn).eraseAll_eq hE
    rw [hv.root_eq, hv.path_eq, ← hc, splice?_mapComments] at hs
    obtain ⟨⟨root', path'⟩, hsp, heq⟩ := Option.map_eq_some_iff.1 hs
    cases heq
    refine ⟨root', path', ⟨?_, ?_, rfl⟩, .inr hsp⟩
    · rw [eraseAll_append]
    · rw [hv.comments_eq, diff_append]

section Comments

variable {marker : String} {l : List Comment} {range : Span}

/-- Of the directives none is gone. -/
def Free (E : List Comment) (ds : List Directive) : Prop :=
  ∀ com ∈ ds.filterMap (·.comment), com ∉ E

/-- What is gone elsewhere makes no difference. -/
theorem filterMap_diff {f : Comment → Option Directive}
    (hf : ∀ e d, f e = some d → d.comment = some e) (h : Free E (l.filterMap f)) :
    (l.diff E).filterMap f = l.filterMap f := by
  induction E generalizing l with
  | nil => rfl
  | cons e E ih =>
    by_cases hm : e ∈ l
    · obtain ⟨front, rest, -, rfl, her⟩ := exists_erase_eq hm
      have he : f e = none := Option.eq_none_iff_forall_ne_some.2 fun d hd =>
        h e (mem_filterMap.2 ⟨d, mem_filterMap.2 ⟨e, hm, hd⟩, hf e d hd⟩) mem_cons_self
      have heq : (front ++ rest).filterMap f = (front ++ e :: rest).filterMap f := by
        rw [filterMap_append, filterMap_append, filterMap_cons_none he]
      rw [diff_cons, her, ih, heq]
      exact fun com hc => mt (mem_cons_of_mem e) (h com (heq ▸ hc))
    · rw [diff_cons, erase_of_not_mem hm, ih fun com hc => mt (mem_cons_of_mem e) (h com hc)]

theorem ofComments_diff (h : Free E (ofComments marker l)) :
    ofComments marker (l.diff E) = ofComments marker l :=
  filterMap_diff (fun _ _ => Directive.comment_of_ofComment?) h

theorem within_diff (h : Free E (within marker range l)) :
    within marker range (l.diff E) = within marker range l := by
  unfold within ofComments at h ⊢
  rw [filterMap_filter] at h ⊢
  rw [filterMap_filter]
  refine filterMap_diff (fun e d hd => ?_) h
  split at hd
  · exact Directive.comment_of_ofComment? hd
  · cases hd

end Comments

-- == nodes

/-- A node of an included file: it has no directives, and no comments of
the file that is being resolved are looked for in it. -/
def Inert (marker : String) (host : Option String) (n : Node) : Prop :=
  n.Every fun m => Clean marker m ∧ (m.range = none ∨ m.source? ≠ host)

/-- The files of the directives that a run takes bring inert nodes. -/
def Tame (R : Round) (host : Option String) (S T : List Comment) (ds : List Directive) : Prop :=
  ∀ d ∈ ds, Taken R T d → ∀ m ∈ (R.weft S).content d, Inert R.marker host m

/-- A node of the file that is being resolved. Its directives are among
the given ones. -/
structure Native (w : Weft) (host : Option String) (ds : List Directive) (n : Node) : Prop where
  shaped : Shaped n
  /-- A list that nodes may be included into is all that the node has. -/
  sole : ∀ key ∈ lendableKeys, ∀ list, n.children? key = some list → ∀ k ∈ n.kids, k.1.key = key
  leaf : n.kind = .literal → n.kids = []
  source : ∀ range, n.range = some range → n.source? = host
  taken : w.taken n ⊆ ds

/-- What the directives of a node need for the walk to get through. -/
structure Apt (R : Round) (S T : List Comment) (n : Node) : Prop where
  taken : ∀ d ∈ (R.weft S).taken n, Taken R T d
  sole : ∀ d, ((R.weft S).replacing n).getLast? = some d →
    ∃ a, (R.weft S).content d = [a]

theorem Quotes.shows (h : Quotes R v v₁) (hbr : Brings R) (hE : ∀ e ∈ E, isIn R.marker e = true)
    (hS : S.Nodup) (hT : T ⊆ v₁.tree.comments) (hv : Shows S E root path v)
    (hn : root.at? path = some n) :
    ofLiteral? R.marker n = none ∧ v₁ = v ∨ ∃ d a, ofLiteral? R.marker n = some d ∧ Taken R T d ∧
        (R.weft S).content d = [a] ∧
        Shows S E (root.modifyAt (fun _ => a) path) path v₁ := by
  obtain ⟨n', hn', hb⟩ := h
  rw [hv.at? hn] at hn'
  cases hn'
  rw [Directive.ofLiteral?_mapComments] at hb
  cases hd : ofLiteral? R.marker n with
  | none =>
    rw [hd] at hb
    cases hb with
    | idle => exact .inl ⟨rfl, rfl⟩
    | splice hne => exact absurd rfl hne
  | some d =>
    rw [hd, Option.toList_some] at hb
    obtain ⟨hf, root', path', hv₁, hs⟩ := hb.shows hbr hE hS hT hv
    obtain ⟨hni, -⟩ | hs := hs
    · cases hni
    · cases spliced_of_splice? hs hn with
      | @replace _ _ t a hno =>
        refine .inr ⟨d, a, rfl, hf d (mem_singleton_self d), hno, ?_⟩
        have hc : [d].filterMap (·.comment) = [] := by
          rw [filterMap_cons_none (Directive.comment_of_ofLiteral? hd), filterMap_nil]
        rwa [hc, append_nil] at hv₁

-- == empty lists

theorem Fills.comments_subset (h : Fills R host keys v v') :
    v'.tree.comments ⊆ v.tree.comments := by
  induction h with
  | nil => exact .refl _
  | skip _ _ ih => exact ih
  | fill _ _ _ _ hb _ ih => exact List.Subset.trans ih hb.comments_subset

/-- Nothing is filled where no list is empty. -/
theorem Fills.idle (h : Fills R host keys v v') (hm : v.tree.root.at? v.path = some m)
    (hi : ∀ key ∈ keys, ∀ range, m.range = some range → m.source? = host →
      m.children? key ≠ some []) : v' = v := by
  induction h with
  | nil => rfl
  | skip _ _ ih => exact ih hm fun key hk => hi key (mem_cons_of_mem _ hk)
  | fill hn hr hs hl =>
    obtain rfl := Option.some.inj (hm.symm.trans hn)
    exact absurd hl (hi _ mem_cons_self _ hr hs)

/-- In a node of an included file no list is filled. -/
theorem Fills.inert (h : Fills R host keys v v') (hm : v.tree.root.at? v.path = some (m.eraseAll E))
    (hi : Inert R.marker host m) : v' = v := by
  refine h.idle hm fun key _ range hr hs _ => ?_
  rw [range_mapComments] at hr
  rw [source?_mapComments] at hs
  obtain hn | hne := hi.self.2
  · rw [hr] at hn
    cases hn
  · exact hne hs

/-- The first empty list that is filled. -/
theorem Fills.cases_first (h : Fills R host keys v v') (hk : keys.Nodup) :
    v' = v ∧ (∀ key ∈ keys, inEmptyList R.lib host v key = none) ∨
      ∃ key ∈ keys, ∃ m range rest v₁, v.tree.root.at? v.path = some m ∧ m.range = some range ∧
        m.children? key = some [] ∧
        Batch R (if m.kind.isAtomic then .replace else .into key)
          (within R.marker range v.tree.comments) v v₁ ∧
        Fills R host rest v₁ v' ∧ rest ⊆ keys ∧ key ∉ rest := by
  induction h with
  | nil => exact .inl ⟨rfl, nofun⟩
  | skip hno _ ih =>
    obtain ⟨heq, ha⟩ | ⟨key, hke, m, range, rest, v₁, hm, hr, hl, hb, hre, hs, hnot⟩ :=
      ih (nodup_cons.1 hk).2
    · exact .inl ⟨heq, forall_mem_cons.2 ⟨hno, ha⟩⟩
    · exact .inr ⟨key, mem_cons_of_mem _ hke, m, range, rest, v₁, hm, hr, hl, hb,
        hre, subset_cons_of_subset _ hs, hnot⟩
  | fill hn hr _ hl hb hre =>
    exact .inr ⟨_, mem_cons_self, _, _, _, _, hn, hr, hl, hb, hre,
      subset_cons_self .., (nodup_cons.1 hk).1⟩

/-- The file that is there in the end, of those that were to stand in one
place. -/
theorem exists_last_of_gather {a : Node} {content : Directive → List Node}
    (h : gather .replace (ds.map content) = [a]) : ∃ d, ds.getLast? = some d ∧ content d = [a] := by
  have hl : ((ds.map content).getLast?).getD [] = [a] := h
  rw [getLast?_map] at hl
  cases hd : ds.getLast? with
  | none =>
    rw [hd] at hl
    exact absurd hl.symm (cons_ne_nil a [])
  | some d =>
    rw [hd] at hl
    exact ⟨d, rfl, hl⟩

theorem Shows.of_nothing (hv : Shows S E root path v) (hn : root.at? path = some n)
    (hl : ofLiteral? R.marker n = none) (hi : (R.weft S).inside n = []) :
    Shows S E (root.modifyAt (fun _ => (R.weft S).entered n) path) path v := by
  rw [Weft.entered_eq_self, modifyAt_self hn]
  · exact hv
  · rw [Weft.replacing_of_none (w := R.weft S) hl, hi, ite_self]
  · rw [Weft.filling, hi, ite_self]

/-- Directives are followed at a node: their files are there, one node
takes its place if it is replaced, and it is the only node to change. -/
def Follows (R : Round) (S T E : List Comment) (root : Node) (path : Path) (n : Node)
    (ds : List Directive) (v : Visit) : Prop :=
  (∀ d ∈ ds, Taken R T d) ∧
    (∀ d, ((R.weft S).replacing n).getLast? = some d → ∃ a, (R.weft S).content d = [a]) ∧
    Shows S (E ++ ds.filterMap (·.comment))
      (root.modifyAt (fun _ => (R.weft S).entered n) path) path v

theorem Fills.shows (h : Fills R host lendableKeys v v') (hbr : Brings R)
    (hta : Tame R host S T ds) (hE : ∀ e ∈ E, isIn R.marker e = true) (hS : S.Nodup)
    (hT : T ⊆ v'.tree.comments) (hv : Shows S E root path v) (hn : root.at? path = some n)
    (hna : Native (R.weft S) host ds n) (hlit : ofLiteral? R.marker n = none)
    (hf : Free E ((R.weft S).inside n)) :
    Follows R S T E root path n ((R.weft S).inside n) v' := by
  have hr := Weft.replacing_of_none (w := R.weft S) hlit
  have hnoth (hi : (R.weft S).inside n = []) (hv' : Shows S E root path v') :
      Follows R S T E root path n ((R.weft S).inside n) v' := by
    rw [Follows, hr, hi, ite_self, filterMap_nil, append_nil]
    exact ⟨nofun, nofun, hv'.of_nothing hn hlit hi⟩
  obtain ⟨rfl, hnon⟩ | ⟨key, hke, m, range, rest, v₁, hm, hra, hl, hb, hre, hsub, hnot⟩ :=
    h.cases_first (by decide)
  · refine hnoth ?_ hv
    by_contra hne
    obtain ⟨key, hke, range, hl, hra⟩ := Weft.hollow_of_inside hne
    have hso : inEmptyList R.lib host v' key = some (_, _) := inEmptyList_eq_some_iff.2
      ⟨n.eraseAll E, range, hv.at? hn, by rw [range_mapComments, hra],
        by rw [source?_mapComments, hna.source range hra],
        by rw [children?_mapComments, hl]; rfl, rfl, rfl⟩
    rw [hnon key hke] at hso
    cases hso
  · rw [hv.at? hn] at hm
    cases hm
    rw [range_mapComments] at hra
    rw [children?_mapComments] at hl
    obtain ⟨list, hl, hni⟩ := Option.map_eq_some_iff.1 hl
    obtain rfl := map_eq_nil_iff.1 hni
    have hi : (R.weft S).inside n = within R.marker range S :=
      Weft.inside_of_hollow hke hl hra
    rw [hi] at hf
    rw [kind_mapComments, hv.comments_eq, within_diff hf, ← hi] at hb
    -- no other list is looked at, for a node has only one
    have hli := hna.shaped.lists key hke [] hl
    have ho {m : Node} {E : List Comment} (how : m.own = n.own) :
        ∀ key' ∈ rest, ∀ range, (m.eraseAll E).range = some range → (m.eraseAll E).source? = host →
          (m.eraseAll E).children? key' ≠ some [] := by
      intro key' hke' _ _ _ hl'
      rw [children?_mapComments] at hl'
      obtain ⟨list', hl', -⟩ := Option.map_eq_some_iff.1 hl'
      have hli' := (hna.shaped.of_own how).lists key' (hsub hke') list' hl'
      have hk : m.own.kind = n.own.kind := by rw [how]
      change m.kind = n.kind at hk
      rw [hk, hli] at hli'
      cases hli'
      exact hnot hke'
    obtain ⟨hfe, root', path', hv₁, hs⟩ :=
      hb.shows hbr hE hS (List.Subset.trans hT hre.comments_subset) hv
    obtain ⟨hni, rfl, rfl⟩ | hs := hs
    · apply hnoth hni
      rw [hni, filterMap_nil, append_nil] at hv₁
      rw [hre.idle (hv₁.at? hn) (ho rfl)]
      exact hv₁
    · refine ⟨hfe, ?_⟩
      by_cases ha : n.kind.isAtomic = true
      · rw [if_pos ha] at hs hr
        cases spliced_of_splice? hs hn with
        | @replace _ _ t a hno =>
          obtain ⟨d, hla, hc⟩ := exists_last_of_gather hno
          have ht := hfe d (mem_of_getLast? hla)
          rw [← hr] at hla
          have he : (R.weft S).entered n = a := by
            rw [Weft.entered_of_replacing hla, hc]
            rfl
          have hd := hna.taken (Weft.replacing_subset_taken _ n (mem_of_getLast? hla))
          have hin : Inert R.marker host a := hta d hd ht a (by rw [hc]; simp)
          rw [he, hre.inert (hv₁.at? (at?_modifyAt _ hn)) hin]
          refine ⟨fun d' hd' => ?_, hv₁⟩
          obtain rfl := Option.some.inj (hla.symm.trans hd')
          exact ⟨a, hc⟩
      · rw [if_neg ha] at hs hr
        rw [hr]
        refine ⟨nofun, ?_⟩
        obtain ⟨rfl, -⟩ := Kind.isContainer_of_listKey hli (.inl (by simpa using ha))
        cases spliced_of_splice? hs hn with
        | @into _ _ t _ list ht hl' =>
          obtain rfl := Option.some.inj (hn.symm.trans ht)
          obtain rfl := Option.some.inj (hl.symm.trans hl')
          have hno : gather (.into "body") (((R.weft S).inside n).map (R.weft S).content) =
                ((R.weft S).filling n).flatMap (R.weft S).content := by
            rw [Weft.filling, if_neg ha]
            rfl
          have he : n.modifyList "body" (Splice.insertAt ([] : List Node).length
              (gather (.into "body") (((R.weft S).inside n).map (R.weft S).content))) =
                (R.weft S).entered n := by
            rw [Weft.entered_of_nil hr, hno]
            exact modifyList_congr hl (by simp [Splice.insertAt])
          rw [hre.idle (hv₁.at? (at?_modifyAt _ hn)) (ho (own_modifyList ..))]
          exact hv₁.congr (modifyAt_congr hn he)

-- == entering

theorem Free.mono {E' : List Comment} {ds' : List Directive} (h : Free E ds) (hE : E' ⊆ E)
    (hds : ds' ⊆ ds) : Free E' ds' := fun com hco hm => by
  obtain ⟨d, hd, hc⟩ := mem_filterMap.1 hco
  exact h com (mem_filterMap.2 ⟨d, hds hd, hc⟩) (hE hm)

theorem free_of_nodup (h : (E ++ ds.filterMap (·.comment)).Nodup) : Free E ds :=
  fun com hc hm => (nodup_append.1 h).2.2 com hm com hc rfl

theorem Quotes.fills_shows (hq : Quotes R v v₁) (hf : Fills R host lendableKeys v₁ v₂)
    (hb : Brings R) (hta : Tame R host S T ds) (hE : ∀ e ∈ E, isIn R.marker e = true)
    (hS : S.Nodup) (hT : T ⊆ v₂.tree.comments) (hv : Shows S E root path v)
    (hn : root.at? path = some n) (hna : Native (R.weft S) host ds n)
    (hfr : Free E ((R.weft S).inside n)) :
    Follows R S T E root path n ((R.weft S).replacing n ++ (R.weft S).filling n) v₂ := by
  obtain ⟨hl, rfl⟩ | ⟨d, a, hl, ht, hc, hv₁⟩ :=
    hq.shows hb hE hS (List.Subset.trans hT hf.comments_subset) hv hn
  · rw [Weft.replacing_append_filling (w := R.weft S) hl]
    exact hf.shows hb hta hE hS hT hv hn hna hl hfr
  · have hr := Weft.replacing_of_literal (w := R.weft S) hl
    have hfi := Weft.filling_of_literal (w := R.weft S) hl
    have he : (R.weft S).entered n = a := by
      rw [Weft.entered_of_replacing (d := d) (by rw [hr]; rfl), hc]
      rfl
    have hd : d ∈ ds := hna.taken (Weft.replacing_subset_taken _ n (by rw [hr]; simp))
    have hi : Inert R.marker host a := hta d hd ht a (by rw [hc]; simp)
    rw [Follows, hfi, he, hr, append_nil,
      filterMap_cons_none (Directive.comment_of_ofLiteral? hl), filterMap_nil,
      append_nil, hf.inert (hv₁.at? (at?_modifyAt _ hn)) hi]
    refine ⟨fun d' hd' => ?_, fun d' hd' => ?_, hv₁⟩
    · obtain rfl := mem_singleton.1 hd'
      exact ht
    · cases hd'
      exact ⟨a, hc⟩

/-- A node that took the place of another is one of an included file. -/
theorem inert_entered (hta : Tame R host S T ds) (hn : Native (R.weft S) host ds n)
    (ht : ∀ d ∈ (R.weft S).replacing n, Taken R T d)
    (hs : ∀ d, ((R.weft S).replacing n).getLast? = some d → ∃ a, (R.weft S).content d = [a])
    (hne : (R.weft S).replacing n ≠ []) : Inert R.marker host ((R.weft S).entered n) := by
  cases hl : ((R.weft S).replacing n).getLast? with
  | none => exact absurd (getLast?_eq_none_iff.1 hl) hne
  | some d =>
    obtain ⟨a, hc⟩ := hs d hl
    rw [Weft.entered_of_replacing hl, hc]
    have hm := mem_of_getLast? hl
    have hd := hn.taken (Weft.replacing_subset_taken _ n hm)
    exact hta d hd (ht d hm) a (by rw [hc]; exact mem_singleton_self a)

theorem Inert.ofComments_eq (h : Inert R.marker host m) :
    ofComments R.marker m.leading = [] ∧ ofComments R.marker m.trailing = [] := by
  have hc := h.self.1.comments
  rw [forall_mem_append] at hc
  exact ⟨Directive.ofComments_eq_nil_iff.2 hc.1, Directive.ofComments_eq_nil_iff.2 hc.2⟩

theorem ofComments_entered (hta : Tame R host S T ds) (hn : Native (R.weft S) host ds n)
    (ht : ∀ d ∈ (R.weft S).replacing n, Taken R T d)
    (hs : ∀ d, ((R.weft S).replacing n).getLast? = some d → ∃ a, (R.weft S).content d = [a]) :
    ofComments R.marker ((R.weft S).entered n).leading = (R.weft S).preceding n ∧
      ofComments R.marker ((R.weft S).entered n).trailing = (R.weft S).following n := by
  by_cases hni : (R.weft S).replacing n = []
  · rw [Weft.preceding_of_nil hni, Weft.following_of_nil hni, Weft.entered_of_nil hni]
    exact ⟨rfl, rfl⟩
  · rw [Weft.preceding_of_replacing hni, Weft.following_of_replacing hni]
    exact (inert_entered hta hn ht hs hni).ofComments_eq

section Sides

variable (hbr : Brings R) (hE : ∀ e ∈ E, isIn R.marker e = true) (hS : S.Nodup)
  (hT : T ⊆ v'.tree.comments) (hv : Shows S E s.tree s.path v) (hf : s.Fits n)

include hbr hE hS hT hv hf

theorem Leads.shows (h : Leads R v v') (hfr : Free E (ofComments R.marker n.leading)) :
    (∀ d ∈ ofComments R.marker n.leading, Taken R T d) ∧
      Shows S (E ++ (ofComments R.marker n.leading).filterMap (·.comment))
        (s.put ((ofComments R.marker n.leading).flatMap (R.weft S).content) n []).tree
        (s.put ((ofComments R.marker n.leading).flatMap (R.weft S).content) n []).path
        v' := by
  obtain ⟨n', hn', hb⟩ := h
  rw [hv.at? (Sleeve.at?_path hf)] at hn'
  cases hn'
  rw [leading_mapComments, ofComments_diff hfr] at hb
  obtain ⟨hfe, root', path', hv', hs⟩ := hb.shows hbr hE hS hT hv
  refine ⟨hfe, ?_⟩
  obtain ⟨hn, rfl, rfl⟩ | hs := hs
  · rw [hn] at hv' ⊢
    rwa [flatMap_nil, Sleeve.put_self hf]
  · obtain ⟨rfl, rfl⟩ := Sleeve.before_eq hf hs
    rwa [Sleeve.put, modifyAt_self hf.node, nil_append]

theorem Trails.shows (h : Trails R v v') (hfr : Free E (ofComments R.marker n.trailing)) :
    (∀ d ∈ ofComments R.marker n.trailing, Taken R T d) ∧
      Shows S (E ++ (ofComments R.marker n.trailing).reverse.filterMap (·.comment))
        (s.put [] n ((ofComments R.marker n.trailing).flatMap (R.weft S).content)).tree
        (s.put [] n ((ofComments R.marker n.trailing).flatMap (R.weft S).content)).path
        v' := by
  obtain ⟨n', hn', hb⟩ := h
  rw [hv.at? (Sleeve.at?_path hf)] at hn'
  cases hn'
  rw [trailing_mapComments, ofComments_diff hfr] at hb
  obtain ⟨hfe, root', path', hv', hs⟩ := hb.shows hbr hE hS hT hv
  refine ⟨fun d hd => hfe d (mem_reverse.2 hd), ?_⟩
  obtain ⟨hn, rfl, rfl⟩ | hs := hs
  · rw [reverse_eq_nil_iff] at hn
    rw [hn] at hv' ⊢
    rwa [flatMap_nil, Sleeve.put_self hf]
  · have hg : gather (.after "body")
        ((ofComments R.marker n.trailing).reverse.map (R.weft S).content) =
          (ofComments R.marker n.trailing).flatMap (R.weft S).content := by
      rw [gather, map_reverse, reverse_reverse]
      rfl
    rw [hg] at hs
    obtain ⟨rfl, rfl⟩ := Sleeve.after_eq hf hs
    rwa [Sleeve.put, modifyAt_self hf.node, append_nil]

end Sides

theorem isIn_of_mem_claims {w : Weft} {com : Comment}
    (h : com ∈ (w.claims n).filterMap (·.comment)) : isIn w.marker com = true := by
  have hof {cs : List Comment} {d : Directive} (hd : d ∈ ofComments w.marker cs)
      (hc : d.comment = some com) : isIn w.marker com = true :=
    isIn_of_mem_ofComments (fun _ h => h) d hd com (Option.mem_toList.2 hc)
  obtain ⟨d, hd, hc⟩ := mem_filterMap.1 h
  rw [Weft.claims, mem_append, mem_append, mem_reverse] at hd
  obtain (hd | hd) | hd := hd
  · obtain ⟨key, hk, range, hl, hr⟩ := Weft.hollow_of_inside (ne_nil_of_mem hd)
    rw [Weft.inside_of_hollow hk hl hr] at hd
    exact hof hd hc
  · exact hof hd hc
  · exact hof hd hc

/-- Entering a node puts nodes around it and changes the node itself. -/
theorem enter_shows (hb : Brings R) (hta : Tame R host S T ds)
    (hE : ∀ e ∈ E, isIn R.marker e = true) (hS : S.Nodup) (hT : T ⊆ v'.tree.comments)
    (hv : Shows S E s.tree s.path v) (hfi : s.Fits n) (hna : Native (R.weft S) host ds n) (hh : s.tree.source? = host)
    (hc : (E ++ ((R.weft S).claims n).filterMap (·.comment)).Nodup) (h : R.enter v = .ok v') :
    Apt R S T n ∧ ∃ s', s' = s.put (((R.weft S).preceding n).flatMap (R.weft S).content)
          ((R.weft S).entered n)
          (((R.weft S).following n).flatMap (R.weft S).content) ∧
        Shows S (E ++ ((R.weft S).taken n).filterMap (·.comment)) s'.tree s'.path v' := by
  have hn := Sleeve.at?_path hfi
  obtain ⟨v₁, v₂, v₃, hq, hfil, hle, htr⟩ := enter_turns hb.clean (hv.at? hn) h
  rw [hv.root_eq, source?_mapComments, hh] at hfil
  have hT₃ := List.Subset.trans hT (htr.elim fun _ h => h.2.comments_subset)
  have hT₂ := List.Subset.trans hT₃ (hle.elim fun _ h => h.2.comments_subset)
  have hi : Free E ((R.weft S).inside n) :=
    (free_of_nodup hc).mono (.refl E) (by simp [Weft.claims])
  have hcl := (Weft.taken_sublist_claims (R.weft S) n)
  replace hc := hc.sublist ((List.Sublist.refl E).append hcl)
  have hg : ∀ e ∈ E ++ ((R.weft S).taken n).filterMap (·.comment), isIn R.marker e = true :=
    forall_mem_append.2 ⟨hE, fun com hco =>
      isIn_of_mem_claims (w := R.weft S) (hcl.subset hco)⟩
  rw [Weft.taken, filterMap_append, filterMap_append, ← append_assoc, ← append_assoc] at hc hg ⊢
  obtain ⟨hg₂, -⟩ := forall_mem_append.1 hg
  obtain ⟨hg₁, -⟩ := forall_mem_append.1 hg₂
  -- the node itself
  obtain ⟨hf, hs, hv₂⟩ := hq.fills_shows hfil hb hta hE hS hT₂ hv hn hna hi
  obtain ⟨hl, ht⟩ := ofComments_entered hta hna (forall_mem_append.1 hf).1 hs
  rw [← Sleeve.tree_put, ← Sleeve.path_put s ((R.weft S).entered n)] at hv₂
  -- what goes before it
  have hfr := free_of_nodup (nodup_append.1 hc).1
  obtain ⟨hf₁, hv₃⟩ := hle.shows hb hg₁ hS hT₃ hv₂ (hfi.put [] _ []) (by rwa [hl])
  rw [hl, Sleeve.put_put] at hv₃
  rw [hl] at hf₁
  -- what goes behind it
  replace hfr := (free_of_nodup hc).mono (.refl _) (fun _ => mem_reverse.2)
  obtain ⟨hf₂, hv'⟩ := htr.shows hb hg₂ hS hT hv₃ (hfi.put _ _ _) (by rwa [ht])
  rw [ht, Sleeve.put_put] at hv'
  rw [ht] at hf₂
  refine ⟨⟨fun d hd => ?_, hs⟩, _, rfl, ?_⟩
  · rw [Weft.taken, mem_append, mem_append, mem_reverse] at hd
    obtain (hd | hd) | hd := hd
    · exact hf d hd
    · exact hf₁ d hd
    · exact hf₂ d hd
  · simpa only [nil_append, append_nil] using hv'

-- == inert nodes

theorem Batch.eq_of_nil (h : Batch R p [] v v') : v' = v := by
  cases h with
  | idle => rfl
  | splice hne => exact absurd rfl hne

theorem Inert.enter_eq (hi : Inert R.marker v.tree.root.source? m) (hb : Brings R)
    (hm : v.tree.root.at? v.path = some m) (h : R.enter v = .ok v') : v' = v := by
  obtain ⟨v₁, v₂, v₃, ⟨n₁, hn₁, hq⟩, hf, ⟨n₂, hn₂, hl⟩, n₃, hn₃, ht⟩ :=
    enter_turns hb.clean hm h
  obtain ⟨hle, htr⟩ := hi.ofComments_eq
  obtain rfl := Option.some.inj (hm.symm.trans hn₁)
  rw [hi.self.1.literal] at hq
  obtain rfl := hq.eq_of_nil
  rw [← eraseAll_nil m] at hm
  obtain rfl := hf.inert hm hi
  rw [eraseAll_nil] at hm
  obtain rfl := Option.some.inj (hm.symm.trans hn₂)
  rw [hle] at hl
  obtain rfl := hl.eq_of_nil
  obtain rfl := Option.some.inj (hm.symm.trans hn₃)
  rw [htr] at ht
  exact ht.eq_of_nil

/-- A node that a run passes without a change. -/
def Idles (R : Round) (host : Option String) (m : Node) : Prop :=
  ∀ v v₁ last, v.tree.root.at? v.path = some m → v.tree.root.Keyed → v.tree.root.source? = host →
    R.enter v = .ok v₁ → Tours R.visitor .start v₁ last → last = v

theorem idles_kids (before : List Step) (kids : List (Step × Node)) {rest : List Step}
    (hn : v.tree.root.at? v.path = some n) (hke : v.tree.root.Keyed)
    (hh : v.tree.root.source? = host) (hk : ∀ k ∈ kids, Idles R host k.2)
    (hs : ∀ k ∈ kids, n.step? k.1 = some k.2)
    (ha : n.kids.map (·.1) = before ++ (kids.map (·.1) ++ rest))
    (h : ToursOf R.visitor (kids.map (·.1) ++ rest) v last) : ToursOf R.visitor rest v last := by
  induction kids generalizing before with
  | nil => exact h
  | cons k kids ih =>
    obtain ⟨hi, hk⟩ := forall_mem_cons.1 hk
    obtain ⟨hst, hs⟩ := forall_mem_cons.1 hs
    rw [map_cons, cons_append] at ha h
    obtain ⟨v₁, v₂, he, ht, -, hr⟩ := h.cons hke (fun _ => rfl) hn
    have hv₂ : v₂ = { v with path := v.path ++ [k.1] } :=
      hi _ v₁ v₂ (by rw [at?_snoc hn, hst]) hke hh he ht
    subst hv₂
    refine ih (before ++ [k.1]) hk hs ?_ ?_
    · rw [ha, append_cons]
    · exact hr v.path n k.1 _ _ rfl rfl hn rfl ha

theorem tours_of_idles (hm : v.tree.root.at? v.path = some m) (hke : v.tree.root.Keyed)
    (hh : v.tree.root.source? = host) (hki : ∀ k ∈ m.kids, Idles R host k.2)
    (h : Tours R.visitor .start v last) : last = v := by
  refine ToursOf.nil (idles_kids [] m.kids hm hke hh hki (fun k hk => ?_) ?_ ?_) hke
  · exact (step?_eq_some_iff (hke.at? hm).nodup).2 hk
  · rw [nil_append, append_nil]
  · rw [append_nil]
    exact h.toursOf hm

theorem Inert.idles (hb : Brings R) (m : Node) (hi : Inert R.marker host m) : Idles R host m := by
  induction m using induction_kids with
  | h m ih =>
    intro v v₁ last hm hke hh he ht
    obtain rfl := (hh ▸ hi).enter_eq hb hm he
    obtain ⟨-, hki⟩ := every_iff.1 hi
    exact tours_of_idles hm hke hh (fun k hk => ih k hk (hki k hk)) ht

theorem Inert.kids (hb : Brings R) (hi : Inert R.marker host m) : ∀ k ∈ m.kids, Idles R host k.2 :=
  fun k hk => Inert.idles hb k.2 ((every_iff.1 hi).2 k hk)

theorem Inert.eraseAll_eq (hi : Inert R.marker host m)
    (hE : ∀ e ∈ E, isIn R.marker e = true) : m.eraseAll E = m :=
  AllClean.eraseAll_eq (fun k hk => (hi k hk).1) hE

-- == keys

theorem enter_keyed (hb : Brings R) (hm : v.tree.root.at? v.path = some m)
    (h : R.enter v = .ok v') (hv : v.tree.root.Keyed) : v'.tree.root.Keyed :=
  enter_preserves (J := fun v => v.tree.root.Keyed) hb
    (fun _ _ _ _ _ ht hv => ht.batch.keyed hb ht.here hv) hm h hv

theorem tours_keyed {cursor : Walk.Cursor} (hb : Brings R) (h : Tours R.visitor cursor v last)
    (hv : v.tree.root.Keyed) : last.tree.root.Keyed :=
  h.invariant (J := fun t => t.root.Keyed) (fun _ ht => ht) (fun _ => rfl)
    (fun _ _ _ hn he hk => enter_keyed hb hn he hk) hv

/-- What a tour leaves in the store was there before. -/
theorem tours_comments {cursor : Walk.Cursor} (hb : Brings R) (h : Tours R.visitor cursor v last)
    (hv : v.tree.root.Keyed) : last.tree.comments ⊆ v.tree.comments := by
  refine (h.invariant (J := fun t => t.root.Keyed ∧ t.comments ⊆ v.tree.comments)
    (fun _ ht => ht.1) (fun _ => rfl) ?_ ⟨hv, .refl _⟩).2
  intro n w w' hn he hw
  refine enter_preserves (J := fun w => w.tree.root.Keyed ∧ w.tree.comments ⊆ v.tree.comments) hb
    (fun _ _ _ _ _ ht hw => ?_) hn he hw
  exact ⟨ht.batch.keyed hb ht.here hw.1, List.Subset.trans ht.batch.comments_subset hw.2⟩

theorem Shows.keyed_iff (h : Shows S E root path v) : v.tree.root.Keyed ↔ root.Keyed := by
  rw [h.root_eq]
  exact (relabels_mapComments _).keyed_iff root

end Entering

end Inclusion

end Inlay
