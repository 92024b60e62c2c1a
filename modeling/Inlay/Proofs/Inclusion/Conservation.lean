/-
What inclusion leaves as it was.

A node is kept if it is there again with its kind, place, data and
children, each of which is kept in its turn. There are three ways to be
less than the same: a node that yields may be replaced by an atomic node of
an included file, a body may have more items between its own, and comments
that are directives may be gone (`Kept`). Whatever is done at a path is done
to a kept node (`Kept.modifyAt`), so each turn leaves the tree kept.
-/
import Inlay.Proofs.Inclusion.Turns

namespace Inlay

open Directive (isIn)

open List Node

variable {nodes : List Node}

-- == shapes

theorem Spliced.shaped {p : Placement} {root root' : Node} {path path' : Path}
    (hs : Spliced nodes p root path root' path') (hno : ∀ n ∈ nodes, n.Every Shaped)
    (hr : root.Every Shaped) : root'.Every Shaped := by
  refine hs.every (fun n hn => (hr n hn).keys) ?_ ?_ hno hr
  · exact fun n s f hn => hn.of_own (own_modifyStep s f n)
  · exact fun n key position nodes hn => hn.of_own (own_modifyList key _ n)

theorem Splice.loose_of_accepts {kind : Kind} {key : String} (hk : kind.isContainer = true)
    (ha : accepts kind key nodes = true) : ∀ n ∈ nodes, n.kind.isAtomic = false := by
  intro n hn
  simp only [accepts, hk, Bool.not_true, Bool.false_or, Bool.and_eq_true,
    all_eq_true, Bool.not_eq_true'] at ha
  exact ha.2 n hn

namespace Inclusion

-- == comments

/-- Comments of which only directives are gone. -/
structure Sheds (marker : String) (cs cs' : List Comment) : Prop where
  sublist : cs'.Sublist cs
  others : cs'.filter (!Directive.isIn marker ·) = cs.filter (!Directive.isIn marker ·)

section Comments

variable {marker : String} {cs cs' es : List Comment}

theorem Sheds.refl (marker : String) (cs : List Comment) : Sheds marker cs cs :=
  ⟨List.Sublist.refl cs, rfl⟩

theorem filter_erase_of_isIn {e : Comment} (he : isIn marker e = true) :
    (cs.erase e).filter (!Directive.isIn marker ·) = cs.filter (!Directive.isIn marker ·) := by
  induction cs with
  | nil => rfl
  | cons c cs ih =>
    by_cases hc : c = e
    · rw [hc, erase_cons_head, filter_cons_of_neg (by simp [he])]
    · rw [erase_cons_tail (by simpa using hc), filter_cons, filter_cons, ih]

theorem Sheds.diff (h : Sheds marker cs cs') (hes : ∀ e ∈ es, isIn marker e = true) :
    Sheds marker cs (cs'.diff es) := by
  induction es generalizing cs' with
  | nil => exact h
  | cons e es ih =>
    obtain ⟨he, hes⟩ := forall_mem_cons.1 hes
    rw [diff_cons]
    apply ih ⟨erase_sublist.trans h.sublist, ?_⟩ hes
    rw [filter_erase_of_isIn he, h.others]

end Comments

-- == kept nodes

/-- A node that is the same by itself, properties apart. -/
structure Like (marker : String) (h r : Node) : Prop where
  kind : r.kind = h.kind
  range : r.range = h.range
  loc : r.loc = h.loc
  leading : Sheds marker h.leading r.leading
  trailing : Sheds marker h.trailing r.trailing

theorem Like.refl (marker : String) (n : Node) : Like marker n n :=
  ⟨rfl, rfl, rfl, .refl marker _, .refl marker _⟩

theorem Like.eraseAll {marker : String} {h r : Node} {es : List Comment} (hl : Like marker h r)
    (hes : ∀ e ∈ es, isIn marker e = true) : Like marker h (r.eraseAll es) := by
  refine ⟨?_, ?_, ?_, ?_, ?_⟩
  · rw [kind_mapComments, hl.kind]
  · rw [range_mapComments, hl.range]
  · rw [loc_mapComments, hl.loc]
  · rw [leading_mapComments]
    exact hl.leading.diff hes
  · rw [trailing_mapComments]
    exact hl.trailing.diff hes

variable (O : Node → Prop) (marker : String)

mutual
/-- The node of a file as it is found in the result of a run. The nodes
of `O` are those that included files have at their top level. -/
inductive Kept : Node → Node → Prop
  | kept {h r : Node} (hlike : Like marker h r)
      (hprops : KeptProps h.kind.isContainer h.props r.props) : Kept h r
  | replaced {h a r : Node} (hyields : Yields marker h) (ha : O a)
      (hatomic : a.kind.isAtomic = true) (hr : Kept a r) : Kept h r

/-- Properties under the same keys; a list that is a body may grow. -/
inductive KeptProps : Bool → List (String × Field Node) → List (String × Field Node) → Prop
  | nil {grows} : KeptProps grows [] []
  | cons {grows key v w ps qs} (hfield : KeptField (grows && key == "body") v w)
      (hrest : KeptProps grows ps qs) : KeptProps grows ((key, v) :: ps) ((key, w) :: qs)

inductive KeptField : Bool → Field Node → Field Node → Prop
  | node {grows h r} (hnode : Kept h r) : KeptField grows (.node h) (.node r)
  | nodes {grows hs rs} (hnodes : KeptNodes grows hs rs) : KeptField grows (.nodes hs) (.nodes rs)
  | data {grows j} : KeptField grows (.data j) (.data j)

/-- Items in the same order; where the list grows, with items of included
files between them, none of which is atomic. -/
inductive KeptNodes : Bool → List Node → List Node → Prop
  | nil {grows} : KeptNodes grows [] []
  | keep {grows h r hs rs} (hitem : Kept h r) (hrest : KeptNodes grows hs rs) :
      KeptNodes grows (h :: hs) (r :: rs)
  | gain {a r hs rs} (ha : O a) (hatomic : a.kind.isAtomic = false) (hitem : Kept a r)
      (hrest : KeptNodes true hs rs) : KeptNodes true hs (r :: rs)
end

variable {O marker} {grows : Bool} {h r m : Node} {hs rs : List Node}
  {ps qs : Node.Props} {key : String}

mutual
theorem Kept.refl : ∀ n : Node, Kept O marker n n
  | ⟨_, props, _, _, _, _⟩ => .kept (.refl marker _) (KeptProps.refl _ props)

theorem KeptProps.refl (grows : Bool) : ∀ props : Node.Props, KeptProps O marker grows props props
  | [] => .nil
  | (_, .node n) :: rest => .cons (.node (Kept.refl n)) (KeptProps.refl grows rest)
  | (_, .nodes ns) :: rest => .cons (.nodes (KeptNodes.refl _ ns)) (KeptProps.refl grows rest)
  | (_, .data _) :: rest => .cons .data (KeptProps.refl grows rest)

theorem KeptNodes.refl (grows : Bool) : ∀ ns : List Node, KeptNodes O marker grows ns ns
  | [] => .nil
  | n :: rest => .keep (Kept.refl n) (KeptNodes.refl grows rest)
end

theorem Yields.isAtomic (hy : Yields marker h) : h.kind.isAtomic = true := by
  obtain hl | he := hy
  · obtain ⟨d, hd⟩ := Option.isSome_iff_exists.1 hl
    rw [Directive.kind_of_ofLiteral? hd]
    rfl
  · exact he.1

theorem Kept.kind_eq (hk : Kept O marker h r) (ha : h.kind.isAtomic = false) : r.kind = h.kind := by
  cases hk with
  | kept hl => exact hl.kind
  | replaced hy =>
    rw [hy.isAtomic] at ha
    cases ha

theorem Kept.isAtomic_eq : ∀ {h r : Node}, Kept O marker h r → r.kind.isAtomic = h.kind.isAtomic
  | _, _, .kept hl _ => by rw [hl.kind]
  | _, _, .replaced hy _ ha hr => by
      rw [hr.isAtomic_eq, ha, hy.isAtomic]

section Every

variable {P Q : Node → Prop}

/-- What is known of a node of a file gives what is known of the node of
the result. -/
def Carries (O : Node → Prop) (marker : String) (P Q : Node → Prop) : Prop :=
  ∀ h r, Like marker h r → KeptProps O marker h.kind.isContainer h.props r.props → P h → Q r

mutual
/-- What is known of all nodes of a file gives what is known of all nodes
of the result. -/
theorem Kept.every (hO : ∀ a, O a → a.Every P) (hc : Carries O marker P Q) {h r : Node} :
    Kept O marker h r → h.Every P → r.Every Q
  | .kept hl hp, hh => by
      obtain ⟨hself, hal⟩ := every_iff_props.1 hh
      exact every_iff_props.2 ⟨hc _ _ hl hp hself, hp.every hO hc hal⟩
  | .replaced _ ha _ hr, _ => hr.every hO hc (hO _ ha)

theorem KeptProps.every (hO : ∀ a, O a → a.Every P) (hc : Carries O marker P Q) {grows : Bool}
    {ps qs : Node.Props} : KeptProps O marker grows ps qs →
      (∀ e ∈ ps, ∀ m ∈ e.2.children, m.Every P) → ∀ e ∈ qs, ∀ m ∈ e.2.children, m.Every Q
  | .nil, _ => nofun
  | .cons hf hr, hps => by
      obtain ⟨hv, hps⟩ := forall_mem_cons.1 hps
      exact forall_mem_cons.2 ⟨hf.every hO hc hv, hr.every hO hc hps⟩

theorem KeptField.every (hO : ∀ a, O a → a.Every P) (hc : Carries O marker P Q) {grows : Bool}
    {v w : Field Node} :
    KeptField O marker grows v w → (∀ m ∈ v.children, m.Every P) → ∀ m ∈ w.children, m.Every Q
  | .node hn, hv => forall_mem_singleton.2 (hn.every hO hc (forall_mem_singleton.1 hv))
  | .nodes hno, hv => hno.every hO hc hv
  | .data, _ => nofun

theorem KeptNodes.every (hO : ∀ a, O a → a.Every P) (hc : Carries O marker P Q) {grows : Bool}
    {hs rs : List Node} :
    KeptNodes O marker grows hs rs → (∀ m ∈ hs, m.Every P) → ∀ m ∈ rs, m.Every Q
  | .nil, _ => nofun
  | .keep hi hr, hhs => by
      obtain ⟨hh, hhs⟩ := forall_mem_cons.1 hhs
      exact forall_mem_cons.2 ⟨hi.every hO hc hh, hr.every hO hc hhs⟩
  | .gain ha _ hi hr, hhs =>
      forall_mem_cons.2 ⟨hi.every hO hc (hO _ ha), hr.every hO hc hhs⟩
end

end Every

section Changes

variable {es : List Comment} {f : Node → Node} {nodes : List Node}

mutual
theorem Kept.eraseAll (hes : ∀ e ∈ es, isIn marker e = true) {h r : Node} :
    Kept O marker h r → Kept O marker h (r.eraseAll es)
  | .kept hl hp => by
      apply Kept.kept (hl.eraseAll hes)
      rw [props_mapComments]
      exact hp.eraseAll hes
  | .replaced hy ha hat hr => .replaced hy ha hat (hr.eraseAll hes)

theorem KeptProps.eraseAll (hes : ∀ e ∈ es, isIn marker e = true) {grows : Bool}
    {ps qs : Node.Props} : KeptProps O marker grows ps qs →
      KeptProps O marker grows ps (qs.map fun e => (e.1, e.2.map (Node.eraseAll es)))
  | .nil => .nil
  | .cons hf hr => .cons (hf.eraseAll hes) (hr.eraseAll hes)

theorem KeptField.eraseAll (hes : ∀ e ∈ es, isIn marker e = true) {grows : Bool}
    {v w : Field Node} : KeptField O marker grows v w →
      KeptField O marker grows v (w.map (Node.eraseAll es))
  | .node hn => .node (hn.eraseAll hes)
  | .nodes hno => .nodes (hno.eraseAll hes)
  | .data => .data

theorem KeptNodes.eraseAll (hes : ∀ e ∈ es, isIn marker e = true) {grows : Bool}
    {hs rs : List Node} : KeptNodes O marker grows hs rs →
      KeptNodes O marker grows hs (rs.map (Node.eraseAll es))
  | .nil => .nil
  | .keep hi hr => .keep (hi.eraseAll hes) (hr.eraseAll hes)
  | .gain ha hat hi hr => .gain ha hat (hi.eraseAll hes) (hr.eraseAll hes)
end

/-- A change that every node behind `r` survives. -/
def Keeps (O : Node → Prop) (marker : String) (r r' : Node) : Prop :=
  ∀ h, Kept O marker h r → Kept O marker h r'

theorem KeptNodes.modify {i : Nat} (hk : KeptNodes O marker grows hs rs) (hm : rs[i]? = some m)
    (hf : Keeps O marker m (f m)) : KeptNodes O marker grows hs (rs.modify i f) := by
  induction rs generalizing hs i with
  | nil => cases hm
  | cons r rs ih =>
    cases i with
    | zero =>
      cases hm
      cases hk with
      | keep hi hr => exact .keep (hf _ hi) hr
      | gain ha hat hi hr => exact .gain ha hat (hf _ hi) hr
    | succ i =>
      rw [modify_succ_cons]
      cases hk with
      | keep hi hr => exact .keep hi (ih hr hm)
      | gain ha hat hi hr => exact .gain ha hat hi (ih hr hm)

theorem KeptProps.of_cons {w : Field Node} (hk : KeptProps O marker grows ps ((key, w) :: qs)) :
    ∃ v ps', ps = (key, v) :: ps' ∧ KeptField O marker (grows && key == "body") v w ∧
      KeptProps O marker grows ps' qs := by
  cases hk with
  | cons hf hr => exact ⟨_, _, rfl, hf, hr⟩

theorem KeptProps.lookup (hk : KeptProps O marker grows ps qs) (key : String) :
    ps.lookup key = none ∧ qs.lookup key = none ∨
      ∃ v w, ps.lookup key = some v ∧ qs.lookup key = some w ∧
        KeptField O marker (grows && key == "body") v w := by
  induction ps generalizing qs with
  | nil =>
    cases hk
    exact .inl ⟨rfl, rfl⟩
  | cons e ps ih =>
    cases hk with
    | @cons _ k v w _ qs hf hr =>
      by_cases hke : key = k
      · subst hke
        exact .inr ⟨v, w, lookup_cons_self, lookup_cons_self, hf⟩
      · have hne : (key == k) = false := by simpa using hke
        simp only [lookup_cons, hne]
        exact ih hr

theorem KeptProps.exists_lookup {w : Field Node} (hke : KeptProps O marker grows ps qs)
    (hw : qs.lookup key = some w) :
    ∃ v, ps.lookup key = some v ∧ KeptField O marker (grows && key == "body") v w ∧
      ∀ f : Field Node → Field Node, KeptField O marker (grows && key == "body") v (f w) →
        KeptProps O marker grows ps (Entries.modify key f qs) := by
  induction qs generalizing ps with
  | nil => cases hw
  | cons e qs ih =>
    obtain ⟨k, w'⟩ := e
    obtain ⟨v, ps, rfl, hfi, hr⟩ := hke.of_cons
    by_cases hk : key = k
    · subst hk
      rw [lookup_cons_self] at hw
      cases hw
      refine ⟨v, lookup_cons_self, hfi, fun f hf => ?_⟩
      rw [Entries.modify, beq_self_eq_true, if_pos rfl]
      exact .cons hf hr
    · have hne : (key == k) = false := by simpa using hk
      rw [lookup_cons, hne] at hw
      obtain ⟨v', hl, hfi', hc⟩ := ih hr hw
      refine ⟨v', ?_, hfi', fun f hf => ?_⟩
      · rw [lookup_cons, hne, hl]
      · rw [Entries.modify, if_neg (by simpa using Ne.symm hk)]
        exact .cons hfi (hc f hf)

/-- It is enough to look at nodes that were not replaced. -/
theorem Keeps.of_like {r' : Node} (hr' : ∀ h, Like marker h r →
    KeptProps O marker h.kind.isContainer h.props r.props → Kept O marker h r') :
    Keeps O marker r r'
  | _, .kept hl hp => hr' _ hl hp
  | _, .replaced hy ha hat hr => .replaced hy ha hat (Keeps.of_like hr' _ hr)

theorem Keeps.modifyStep {s : Step} (hm : r.step? s = some m) (hf : Keeps O marker m (f m)) :
    Keeps O marker r (r.modifyStep s f) := by
  refine .of_like fun h hl hp => .kept ⟨hl.1, hl.2, hl.3, hl.4, hl.5⟩ ?_
  obtain ⟨w, hw, hi⟩ := Option.bind_eq_some_iff.1 hm
  obtain ⟨v, -, hfi, hc⟩ := hp.exists_lookup hw
  apply hc
  cases hfi with
  | node hn =>
    cases hin : s.index with
    | none =>
      rw [hin] at hi
      cases hi
      exact .node (hf _ hn)
    | some i => exact .node hn
  | nodes hno =>
    cases hin : s.index with
    | none => exact .nodes hno
    | some i =>
      rw [hin] at hi
      exact .nodes (hno.modify hi hf)
  | data => exact .data

theorem Keeps.modifyAt {path : Path} (hm : r.at? path = some m) (hf : Keeps O marker m (f m)) :
    Keeps O marker r (r.modifyAt f path) := by
  induction path generalizing r with
  | nil =>
    cases hm
    exact hf
  | cons s path ih =>
    obtain ⟨n, hn, hm⟩ := at?_cons_eq_some_iff.1 hm
    exact Keeps.modifyStep hn (ih hm)

/-- What the nodes of a list come from. -/
def Stocked (O : Node → Prop) (marker : String) (ns : List Node) : Prop :=
  ∀ n ∈ ns, ∃ a, O a ∧ Kept O marker a n

theorem KeptNodes.prepend (hk : KeptNodes O marker true hs rs) (hno : Stocked O marker nodes)
    (hat : ∀ n ∈ nodes, n.kind.isAtomic = false) : KeptNodes O marker true hs (nodes ++ rs) := by
  induction nodes with
  | nil => exact hk
  | cons n nodes ih =>
    obtain ⟨⟨a, ha, hi⟩, hno⟩ := forall_mem_cons.1 hno
    obtain ⟨hn, hat⟩ := forall_mem_cons.1 hat
    rw [hi.isAtomic_eq] at hn
    exact .gain ha hn hi (ih hno hat)

theorem KeptNodes.insertAt (hk : KeptNodes O marker true hs rs) (hn : Stocked O marker nodes)
    (hat : ∀ n ∈ nodes, n.kind.isAtomic = false) (position : Nat) :
    KeptNodes O marker true hs (Splice.insertAt position nodes rs) := by
  induction rs generalizing hs position with
  | nil =>
    rw [Splice.insertAt, take_nil, drop_nil, nil_append]
    exact hk.prepend hn hat
  | cons r rs ih =>
    cases position with
    | zero => exact hk.prepend hn hat
    | succ position =>
      show KeptNodes O marker true hs (r :: Splice.insertAt position nodes rs)
      cases hk with
      | keep hi hr => exact .keep hi (ih hr position)
      | gain ha hl hi hr => exact .gain ha hl hi (ih hr position)

theorem Keeps.insertAt {list : List Node} (hk : r.kind.isContainer = true)
    (hli : r.children? "body" = some list) (hn : Stocked O marker nodes)
    (ha : ∀ n ∈ nodes, n.kind.isAtomic = false) (position : Nat) :
    Keeps O marker r (r.modifyList "body" (Splice.insertAt position nodes)) := by
  refine .of_like fun h hl hp => .kept ⟨hl.1, hl.2, hl.3, hl.4, hl.5⟩ ?_
  obtain ⟨v, -, hf, hc⟩ := hp.exists_lookup (children?_eq_some_iff.1 hli)
  apply hc
  rw [← hl.kind, hk] at hf ⊢
  cases hf with
  | nodes hn' => exact .nodes (hn'.insertAt hn ha position)

theorem KeptNodes.eq_nil (hk : KeptNodes O marker grows hs []) : hs = [] := by
  cases hk
  rfl

theorem stringValue?_of_like {value : String} (hl : Like marker h r)
    (hp : KeptProps O marker grows h.props r.props) (hva : r.stringValue? = some value) :
    h.stringValue? = some value := by
  unfold Node.stringValue? Node.string? Node.data? Node.get? at hva ⊢
  rw [hl.kind] at hva
  split at hva
  · next hk =>
    rw [if_pos hk]
    split at hva
    · next j hw =>
      obtain ⟨v, hv, hf, -⟩ := hp.exists_lookup hw
      cases hf
      rw [hv]
      exact hva
    · cases hva
  · cases hva

/-- Whether a node yields shows in the file it comes from. -/
theorem Yields.of_like (hy : Yields marker r) (hl : Like marker h r)
    (hp : KeptProps O marker grows h.props r.props) : Yields marker h := by
  obtain hlit | ⟨ha, key, hk, hli⟩ := hy
  · left
    obtain ⟨d, hd⟩ := Option.isSome_iff_exists.1 hlit
    obtain ⟨value, hva, hd⟩ := Option.bind_eq_some_iff.1 hd
    obtain ⟨path, hpa, -⟩ := Option.bind_eq_some_iff.1 hd
    rw [Directive.ofLiteral?, stringValue?_of_like hl hp hva]
    show ((Directive.path? marker value).bind _).isSome = true
    rw [hpa]
    rfl
  · right
    rw [hl.kind] at ha
    obtain ⟨v, hv, hf, -⟩ := hp.exists_lookup (children?_eq_some_iff.1 hli)
    cases hf with
    | nodes hn =>
      obtain rfl := hn.eq_nil
      exact ⟨ha, key, hk, children?_eq_some_iff.2 hv⟩

theorem Keeps.replace {a : Node} (hy : Yields marker r) (hs : Stocked O marker [a])
    (ha : a.kind.isAtomic = true) : Keeps O marker r a := by
  refine .of_like fun h hl hp => ?_
  obtain ⟨o, ho, hk⟩ := hs a (mem_singleton_self a)
  exact .replaced (hy.of_like hl hp) ho (by rw [← hk.isAtomic_eq, ha]) hk

end Changes

section Splices

/-- All that a splice does, kept nodes survive. -/
theorem keeps_of_spliced {nodes : List Node} {p : Placement} {root root' n : Node}
    {path path' : Path} (hs : Spliced nodes p root path root' path')
    (hn : root.at? path = some n) (hc : Calls marker n p) (hr : root.Every Shaped)
    (hno : Stocked O marker nodes) : Keeps O marker root root' := by
  have grown {o : Node} {q : Path} {key : String} {list : List Node} (ho : root.at? q = some o)
      (hke : key ∈ lendableKeys) (hl : o.children? key = some list)
      (hlo : o.kind.isAtomic = false ∨ key = "body")
      (hac : Splice.accepts o.kind key nodes = true) (position : Nat) : Keeps O marker root
        (root.modifyAt (·.modifyList key (Splice.insertAt position nodes)) q) := by
    have hli := (hr.at? ho).self.lists key hke list hl
    obtain ⟨rfl, hk⟩ := Kind.isContainer_of_listKey hli hlo
    have hat := Splice.loose_of_accepts hk hac
    exact Keeps.modifyAt ho (Keeps.insertAt hk hl hno hat position)
  cases hs with
  | replace ha ht hat hat' =>
    subst ha
    exact Keeps.modifyAt hn (Keeps.replace hc hno hat')
  | into ht hl hat hac =>
    exact grown ht hc hl (.inl hat) hac _
  | before hcr ho hl hj hac =>
    obtain rfl : _ = "body" := hc
    exact grown ho (by simp) hl (.inr rfl) hac _
  | after hcr ho hl hj hac =>
    obtain rfl : _ = "body" := hc
    exact grown ho (by simp) hl (.inr rfl) hac _

end Splices

section Runs

variable {R : Round} {lib : Library} {c : Context} {t t' : Tree} {ds : List Directive}

/-- What is left of a tree. -/
structure Conserved (O : Node → Prop) (marker : String) (t t' : Tree) : Prop where
  root : Kept O marker t.root t'.root
  comments : Sheds marker t.comments t'.comments

theorem isIn_of_mem_directives {marker : String} (hds : ds ⊆ directives marker t) :
    ∀ com ∈ ds.filterMap (·.comment), isIn marker com = true := by
  have hc {cs : List Comment} {d : Directive} {com : Comment}
      (hd : d ∈ Directive.ofComments marker cs) (hco : d.comment = some com) :
      isIn marker com = true := by
    obtain ⟨com', -, hof⟩ := mem_filterMap.1 hd
    rw [Directive.comment_of_ofComment? hof] at hco
    cases hco
    rw [isIn, hof]
    rfl
  intro com hco
  obtain ⟨d, hd, hco⟩ := mem_filterMap.1 hco
  obtain hd | hd := mem_append.1 (hds hd)
  · obtain ⟨n, -, hd⟩ := mem_flatMap.1 hd
    obtain hd | hd := mem_append.1 hd
    · obtain hd | hd := mem_append.1 hd
      · rw [Directive.comment_of_ofLiteral? (Option.mem_toList.1 hd)] at hco
        cases hco
      · exact hc hd hco
    · exact hc hd hco
  · exact hc hd hco

theorem Turn.conserves {p : Placement} {n : Node} {v v' : Visit} (ht : Turn R p ds n v v')
    (hds : Supplied R ds fun n => n.Every Shaped ∧ ∃ a, O a ∧ Kept O R.marker a n)
    (hv : v.tree.root.Every Shaped ∧ Conserved O R.marker t v.tree) :
    v'.tree.root.Every Shaped ∧ Conserved O R.marker t v'.tree := by
  obtain ⟨hh, hb, hsu, hc⟩ := ht
  cases hb with
  | idle => exact hv
  | @splice _ _ contents root path hne hf hspl =>
    obtain ⟨hs, hro, hco⟩ := hv
    have hsp := spliced_of_splice? hspl hh
    have hno := forall_mem_gather (p := p) hf hds
    have hi := isIn_of_mem_directives hsu
    have hr := relabels_mapComments (·.diff (ds.filterMap (·.comment)))
    refine ⟨?_, ?_, hco.diff hi⟩
    · rw [hr.every_iff hr.shaped_iff]
      exact hsp.shaped (fun n hn => (hno n hn).1) hs
    · apply Kept.eraseAll hi
      exact keeps_of_spliced hsp hh (hc hne) hs (fun n hn => (hno n hn).2) _ hro

/-- The nodes at the top level of the files that are included when a tree
is resolved, directly or through other files. -/
def Included (lib : Library) (c : Context) (t : Tree) (a : Node) : Prop :=
  ∃ d tech text u, Reaches lib c t d tech text u ∧ a ∈ u.body

theorem Included.through {d : Directive} {tech : Tech} {text : String} {u : Tree} {a : Node}
    (hd : Consumes lib c t d) (ho : Opens lib c d tech text u)
    (ha : Included lib (c.descend d.path) u a) : Included lib c t a := by
  obtain ⟨d', tech', text', u', hr, ha⟩ := ha
  exact ⟨d', tech', text', u', .through hd ho hr, ha⟩

theorem KeptNodes.exists_of_mem (hk : KeptNodes O marker grows hs rs) (hr : r ∈ rs) :
    ∃ h, (h ∈ hs ∨ grows = true ∧ O h) ∧ Kept O marker h r := by
  induction rs generalizing hs with
  | nil => cases hr
  | cons r' rs ih =>
    cases hk with
    | keep hi hre =>
      obtain rfl | hr := mem_cons.1 hr
      · exact ⟨_, .inl mem_cons_self, hi⟩
      · obtain ⟨h, hm, hk⟩ := ih hre hr
        exact ⟨h, hm.imp_left (mem_cons_of_mem _), hk⟩
    | gain ha hat hi hre =>
      obtain rfl | hr := mem_cons.1 hr
      · exact ⟨_, .inr ⟨rfl, ha⟩, hi⟩
      · exact ih hre hr

/-- What the top level of a file that was resolved comes from. -/
theorem Conserved.exists_of_mem_body (hc : Conserved O marker t t') (hki : t.root.kind = .program)
    {b : Node} (hb : b ∈ t'.body) : ∃ a, (a ∈ t.body ∨ O a) ∧ Kept O marker a b := by
  obtain ⟨list, hl, hb⟩ := Tree.mem_body_iff.1 hb
  cases hc.root with
  | replaced hy =>
    have hat := hy.isAtomic
    rw [hki] at hat
    cases hat
  | kept hli hp =>
    obtain ⟨v, hv, hf, -⟩ := hp.exists_lookup (children?_eq_some_iff.1 hl)
    cases hf with
    | @nodes _ as _ hn =>
      obtain ⟨a, ha, hk⟩ := hn.exists_of_mem hb
      refine ⟨a, ha.imp (fun ha => ?_) And.right, hk⟩
      exact Tree.mem_body_iff.2 ⟨as, children?_eq_some_iff.2 hv, ha⟩

/-- What is conserved of included files is conserved of the tree, also if
the run starts from what an earlier run has left. -/
theorem resolve_conserves_from {t₁ : Tree} (depth : Nat) (ht₁ : t₁.root.Every Shaped)
    (hno : t₁.comments.Nodup) (hO : ∀ a, Included lib c t₁ a → O a) (hc : Conserved O lib.marker t t₁)
    (h : resolve lib depth c t₁ = .ok t') : t'.root.Every Shaped ∧ Conserved O lib.marker t t' := by
  refine resolve_induction (M := fun c t₁ t' => t₁.root.Every Shaped → t₁.comments.Nodup →
    ∀ O : Node → Prop, (∀ a, Included lib c t₁ a → O a) → ∀ t, Conserved O lib.marker t t₁ →
      t'.root.Every Shaped ∧ Conserved O lib.marker t t') ?_ depth h ht₁ hno O hO t hc
  intro depth c t₁ t' hi hru ht₁ hno O hO t hc
  have hsu : ∀ d, Consumes lib c t₁ d → ∀ ns, (round lib depth c).fetch d = .ok ns → ∀ n ∈ ns,
      n.Every Shaped ∧ ∃ a, O a ∧ Kept O lib.marker a n := by
    intro d hd ns hf n hn
    obtain ⟨tech, text, u, u', ho, hr, rfl⟩ := fetch_eq_ok_iff.1 hf
    obtain ⟨hs, hc⟩ := hi _ u u' hr (Tech.shaped_of_parse ho.parsed) (Tech.nodup_of_parse ho.parsed)
      O (fun a ha => hO a (ha.through hd ho)) u ⟨Kept.refl _, Sheds.refl _ _⟩
    refine ⟨every_of_mem_body hs hn, ?_⟩
    obtain ⟨a, ha, hk⟩ :=
      hc.exists_of_mem_body (Tech.kind_of_parse ho.parsed) hn
    refine ⟨a, ha.elim (fun ha => hO a ?_) id, hk⟩
    exact ⟨d, tech, text, u, .here hd ho, ha⟩
  refine resolveWith_turns (J := fun t' => t'.root.Every Shaped ∧ Conserved O lib.marker t t')
    (brings_below lib depth c) (fun n hn => (ht₁ n hn).keys) hno hru ?_ ⟨ht₁, hc⟩
  intro p ds n v v' ht hds hv
  refine ht.conserves (fun d hd => hsu d ⟨(hds d hd).1, depth, t', ?_, (hds d hd).2⟩) hv
  rw [resolve_eq, hru]

theorem resolve_conserves_shaped (depth : Nat) (ht : t.root.Every Shaped) (hno : t.comments.Nodup)
    (h : resolve lib depth c t = .ok t') :
    t'.root.Every Shaped ∧ Conserved (Included lib c t) lib.marker t t' :=
  resolve_conserves_from depth ht hno (fun _ ha => ha) ⟨Kept.refl _, Sheds.refl _ _⟩ h

end Runs

end Inclusion

/-- Of a file that was resolved every node is there again, with its kind,
place, data and children, in the order of the file. The exceptions: a
literal that is a directive and an empty object or array may be replaced
by an atomic node, the bodies of programs and blocks may have items of
included files between their own, and comments that are directives may
be gone. -/
theorem resolve_conserves {lib : Library} {depth : Nat} {c : Context} {tech : Tech} {text : String}
    {source : Option String} {t t' : Tree} (ht : tech.parse text source = .ok t)
    (h : resolve lib depth c t = .ok t') :
    Inclusion.Kept (Inclusion.Included lib c t) lib.marker t.root t'.root ∧
      Inclusion.Sheds lib.marker t.comments t'.comments :=
  have hconserved := (Inclusion.resolve_conserves_shaped depth (Tech.shaped_of_parse ht)
    (Tech.nodup_of_parse ht) h).2
  ⟨hconserved.root, hconserved.comments⟩

/-- A script with files in the place of a literal and of an array, and
between two statements. -/
def Script.filling : String :=
  "f(['borschik:include:c.txt', [/* borschik:include:c.txt */]]); /*borschik:include:a.js*/ /**/ g();"

theorem resolve_conserves_filling :
    ∃ t t', Tech.js.parse Script.filling none = .ok t ∧
      resolve .nested 3 (.start none none) t = .ok t' ∧
      Inclusion.Kept (Inclusion.Included .nested (.start none none) t) Library.nested.marker
        t.root t'.root ∧
      Inclusion.Sheds Library.nested.marker t.comments t'.comments := by
  have hok : (Tech.js.parse Script.filling none >>= resolve .nested 3 (.start none none)).toBool =
      true := by decide +kernel
  obtain ⟨t', h⟩ := exists_of_toBool hok
  obtain ⟨t, hparse, hresolve⟩ := bind_ok_iff.1 h
  exact ⟨t, t', hparse, hresolve, resolve_conserves hparse hresolve⟩

end Inlay
