/-
A run weaves.

By induction over the nodes of the file each of them is woven (`Weaves`);
what else a walk has before it are inert nodes. The children of a node
without a body share the item that the node belongs to (`weaves_kids`). The
items of a body are woven one after the other, and in between the walk
passes what was put behind the first (`weaves_body`).
-/
import Inlay.Proofs.Inclusion.Entering

namespace Inlay

open Directive (ofComments isIn ofLiteral?)

open Walk (Tours ToursOf)

namespace Inclusion

open List Node

section Weaving

variable {R : Round} {host : Option String} {S T E : List Comment} {root n m o : Node} {path : Path}
  {v v₁ v₂ last : Visit} {ds : List Directive} {step : Step} {s : Sleeve} {list : List Node}
  {w : Weft}

-- == woven nodes

/-- A node that a run weaves: it stands there woven, with what comes
before and behind its item put there. -/
def Weaves (R : Round) (host : Option String) (S T : List Comment) (n : Node) : Prop :=
  ∀ (s : Sleeve) E v v₁ last, s.Fits n → Shows S E s.tree s.path v → s.tree.Keyed →
    s.tree.source? = host → (∀ e ∈ E, isIn R.marker e = true) →
    (E ++ (n.preorder.flatMap (R.weft S).claims).filterMap (·.comment)).Nodup →
    R.enter v = .ok v₁ → Tours R.visitor .start v₁ last → T ⊆ last.tree.comments →
    n.Every (Apt R S T) ∧
      ∃ s', s' = s.put ((R.weft S).front n) ((R.weft S).weave n)
          ((R.weft S).back n) ∧
        Shows S (E ++ (R.weft S).spent n) s'.tree s'.path last

/-- The directives of some nodes and of all nodes below them. -/
def claimsOf (w : Weft) (ns : List Node) : List Comment :=
  (ns.flatMap fun n => n.preorder.flatMap w.claims).filterMap (·.comment)

theorem claimsOf_cons (w : Weft) (n : Node) (ns : List Node) :
    claimsOf w (n :: ns) =
      (n.preorder.flatMap w.claims).filterMap (·.comment) ++ claimsOf w ns := by
  rw [claimsOf, flatMap_cons, filterMap_append, claimsOf]

theorem spent_sublist (w : Weft) (n : Node) :
    (w.spent n).Sublist ((n.preorder.flatMap w.claims).filterMap (·.comment)) := by
  rw [Weft.spent, filterMap_flatMap, filterMap_flatMap]
  induction n.preorder with
  | nil => exact List.Sublist.refl _
  | cons m ms ih =>
    rw [flatMap_cons, flatMap_cons]
    exact (Weft.taken_sublist_claims w m).append ih

theorem isIn_of_mem_spent {com : Comment} (h : com ∈ w.spent n) : isIn w.marker com = true := by
  have hc := (spent_sublist w n).subset h
  rw [filterMap_flatMap] at hc
  obtain ⟨m, -, hm⟩ := mem_flatMap.1 hc
  exact isIn_of_mem_claims hm

theorem Shows.ascend (h : Shows S E (s.descend step).tree (s.descend step).path v) :
    Shows S E s.tree s.path { v with path := s.path } := ⟨h.root_eq, h.comments_eq, rfl⟩

theorem Shows.path_descend (h : Shows S E (s.descend step).tree (s.descend step).path v) :
    v.path = s.path ++ [step] := by
  rw [h.path_eq, Sleeve.path_descend]

/-- The children of a node without a body, one after the other. -/
theorem weaves_kids (hbr : Brings R) (before todo : List (Step × Node)) (hf : s.Fits m)
    (hb : m.children? "body" = none) (hk : m.kids = before ++ todo) (hv : Shows S E s.tree s.path v)
    (hke : s.tree.Keyed) (hh : s.tree.source? = host) (hE : ∀ e ∈ E, isIn R.marker e = true)
    (hc : (E ++ claimsOf (R.weft S) (todo.map (·.2))).Nodup)
    (hw : ∀ k ∈ todo, Weaves R host S T k.2) (hT : T ⊆ last.tree.comments)
    (h : ToursOf R.visitor (todo.map (·.1)) v last) :
    (∀ k ∈ todo, k.2.Every (Apt R S T)) ∧ ∃ m' s', m'.own = m.own ∧
        m'.kids = before ++ todo.map (fun k => (k.1, (R.weft S).weave k.2)) ∧
        s' = s.put (todo.flatMap fun k => (R.weft S).front k.2) m'
          (todo.reverse.flatMap fun k => (R.weft S).back k.2) ∧
        Shows S (E ++ todo.flatMap fun k => (R.weft S).spent k.2) s'.tree s'.path last := by
  induction todo generalizing before s m E v with
  | nil =>
    obtain rfl := h.nil (hv.keyed_iff.2 hke)
    refine ⟨nofun, m, s, rfl, hk, ?_, ?_⟩
    · rw [flatMap_nil, reverse_nil, flatMap_nil, Sleeve.put_self hf]
    · rwa [flatMap_nil, append_nil]
  | cons k todo ih =>
    obtain ⟨hwe, hw⟩ := forall_mem_cons.1 hw
    have hm := hv.at? (Sleeve.at?_path hf)
    have hkey : m.keys.Nodup := (hke.at? (Sleeve.at?_path hf)).nodup
    have hs : m.step? k.1 = some k.2 := (step?_eq_some_iff hkey).2 (by rw [hk]; simp)
    rw [map_cons, claimsOf_cons, ← append_assoc] at hc
    -- the first child
    obtain ⟨v₁, v₂, hen, ht, ⟨_, hto⟩, hr⟩ := h.cons (hv.keyed_iff.2 hke) (fun _ => rfl) hm
    have hd : Shows S E (s.descend k.1).tree (s.descend k.1).path
        { v with path := v.path ++ [k.1] } :=
      ⟨hv.root_eq, hv.comments_eq, by rw [Sleeve.path_descend, hv.path_eq]⟩
    have hat := hd.at? (Sleeve.at?_path (hf.descend hb hs))
    have hk₂ := tours_keyed hbr ht (enter_keyed hbr hat hen (hd.keyed_iff.2 hke))
    have hT₂ := List.Subset.trans hT (tours_comments hbr hto hk₂)
    obtain ⟨hap, s₂, hs₂, hv₂⟩ := hwe _ E _ v₁ v₂ (hf.descend hb hs) hd hke
      hh hE (nodup_append.1 hc).1 hen ht hT₂
    rw [Sleeve.put_descend hf] at hs₂
    subst hs₂
    -- the others, in the node where the first is woven
    have hf₁ := hf.put ((R.weft S).front k.2)
      (m.modifyStep k.1 fun _ => (R.weft S).weave k.2) ((R.weft S).back k.2)
    have hk₁ := kids_modifyStep hkey hk fun _ => (R.weft S).weave k.2
    have hke₁ := hv₂.keyed_iff.1 hk₂
    have hh₁ := (Sleeve.source?_put s ((R.weft S).front k.2)
      (m.modifyStep k.1 fun _ => (R.weft S).weave k.2)
      ((R.weft S).back k.2)).trans hh
    have hb₁ := children?_eq_none_of_own (own_modifyStep k.1 (fun _ => (R.weft S).weave k.2) m) hb
    have hE₁ : ∀ e ∈ E ++ (R.weft S).spent k.2, isIn R.marker e = true :=
      forall_mem_append.2 ⟨hE, fun e he => isIn_of_mem_spent (w := R.weft S) he⟩
    have hc₁ := hc.sublist (((List.Sublist.refl E).append
      (spent_sublist (R.weft S) k.2)).append (List.Sublist.refl _))
    have hv₁ := hv₂.ascend
    have hr₁ := hr _ _ k.1 (before.map (·.1)) (todo.map (·.1)) hv₂.path_descend rfl
      (hv₁.at? (Sleeve.at?_path hf₁)) (by simp [keys_modifyStep])
      (by rw [kids_mapComments, hk₁]; simp [Function.comp_def])
    obtain ⟨ha, m', s', ho, hk', hs', hl⟩ :=
      ih (before ++ [(k.1, (R.weft S).weave k.2)]) hf₁ hb₁
        (by rw [hk₁, append_cons]) hv₁ hke₁ hh₁ hE₁ hc₁ hw hr₁
    refine ⟨forall_mem_cons.2 ⟨hap, ha⟩, m', s', ?_, ?_, ?_, ?_⟩
    · rw [ho, own_modifyStep]
    · rw [hk', map_cons, append_assoc, singleton_append]
    · rw [hs', Sleeve.put_put, flatMap_cons, reverse_cons, flatMap_append, flatMap_singleton]
    · rwa [flatMap_cons, ← append_assoc]

-- == bodies

/-- The node at a path has a body and nothing else. -/
structure Bodied (root : Node) (path : Path) (o : Node) : Prop where
  here : root.at? path = some o
  keys : o.keys.Nodup
  body : ∃ list, o.children? "body" = some list
  sole : ∀ k ∈ o.kids, k.1.key = "body"

/-- The tree with another body at a path. -/
def withBody (root : Node) (path : Path) (list : List Node) : Node :=
  root.modifyAt (·.modifyList "body" fun _ => list) path

theorem Bodied.at? (h : Bodied root path o) (list : List Node) :
    (withBody root path list).at? path = some (o.modifyList "body" fun _ => list) :=
  at?_modifyAt _ h.here

theorem Bodied.kids (h : Bodied root path o) (list : List Node) :
    (o.modifyList "body" fun _ => list).kids = items "body" 0 list := by
  obtain ⟨list₀, hl₀⟩ := h.body
  exact kids_modifyList_of_sole h.keys hl₀ h.sole fun _ => list

theorem Bodied.step? (h : Bodied root path o) (list : List Node) (i : Nat) :
    (o.modifyList "body" fun _ => list).step? ⟨"body", some i⟩ = list[i]? := by
  obtain ⟨list₀, hl₀⟩ := h.body
  apply step?_item
  rw [children?_modifyList, hl₀]
  rfl

theorem Bodied.fits (h : Bodied root path o) (front : List Node) (item : Node) (back : List Node) :
    (⟨root, path, front, item, back, []⟩ : Sleeve).Fits item := by
  obtain ⟨list₀, hl₀⟩ := h.body
  exact Sleeve.fits_item h.here hl₀ front item back

theorem steps_around (key : String) (front : List Node) (n : Node) (back : List Node) :
    (items key 0 (front ++ n :: back)).map (·.1) = (items key 0 front).map (·.1) ++
        ⟨key, some front.length⟩ :: (items key (front ++ [n]).length back).map (·.1) := by
  rw [items_append, map_append, items, map_cons, Nat.zero_add, length_append]
  rfl

theorem idles_items (hb : Brings R) (h : Bodied root path o) (before skipped rest : List Node)
    (hv : Shows S E (withBody root path (before ++ (skipped ++ rest))) path v)
    (hke : v.tree.root.Keyed) (hh : root.source? = host) (hE : ∀ e ∈ E, isIn R.marker e = true)
    (hi : ∀ n ∈ skipped, Inert R.marker host n)
    (ht : ToursOf R.visitor ((items "body" before.length (skipped ++ rest)).map (·.1)) v last) :
    ToursOf R.visitor ((items "body" (before ++ skipped).length rest).map (·.1)) v last := by
  have hi' : ∀ k ∈ items "body" before.length skipped, Inert R.marker host k.2 := by
    intro k hk
    obtain ⟨j, -, -, -, hg⟩ := mem_items hk
    exact hi k.2 (mem_of_getElem? hg)
  rw [length_append]
  refine idles_kids ((items "body" 0 before).map (·.1)) (items "body" before.length skipped)
    (hv.at? (h.at? _)) hke ?_ (fun k hk => Inert.idles hb k.2 (hi' k hk))
    (fun k hk => ?_) ?_ ?_
  · rw [hv.root_eq, source?_mapComments, withBody, source?_modifyAt_modifyList, hh]
  · obtain ⟨j, hs, hle, hlt, hg⟩ := mem_items hk
    have hlt' : j - before.length < skipped.length := by omega
    rw [hs, step?_mapComments, h.step?, getElem?_append_right hle, getElem?_append_left hlt', hg]
    exact congrArg some ((hi' k hk).eraseAll_eq hE)
  · rw [kids_mapComments, h.kids, items_append, items_append]
    simp [Function.comp_def]
  · rwa [← map_append, ← items_append]

/-- The items of a body, one after the other. -/
theorem weaves_body (hbr : Brings R) (h : Bodied root path o) (before todo tail : List Node)
    (hv : Shows S E (withBody root path (before ++ (todo ++ tail))) path v) (hk : v.tree.root.Keyed)
    (hh : root.source? = host) (hE : ∀ e ∈ E, isIn R.marker e = true)
    (hc : (E ++ claimsOf (R.weft S) todo).Nodup) (hw : ∀ n ∈ todo, Weaves R host S T n)
    (hb : ∀ n ∈ todo, n.Every (Apt R S T) → ∀ m ∈ (R.weft S).back n, Inert R.marker host m)
    (hta : ∀ n ∈ tail, Inert R.marker host n) (hT : T ⊆ last.tree.comments)
    (ht : ToursOf R.visitor ((items "body" before.length (todo ++ tail)).map (·.1)) v last) :
    (∀ n ∈ todo, n.Every (Apt R S T)) ∧ Shows S (E ++ todo.flatMap (R.weft S).spent)
        (withBody root path (before ++ (todo.flatMap (R.weft S).spread ++ tail))) path
        last := by
  induction todo generalizing before E v with
  | nil =>
    rw [nil_append, ← append_nil tail] at hv ht
    obtain rfl := (idles_items hbr h before tail [] hv hk hh hE hta ht).nil hk
    refine ⟨forall_mem_nil _, ?_⟩
    rw [append_nil] at hv
    rwa [flatMap_nil, flatMap_nil, append_nil, nil_append]
  | cons n todo ih =>
    obtain ⟨hwe, hw⟩ := forall_mem_cons.1 hw
    obtain ⟨hb', hb⟩ := forall_mem_cons.1 hb
    rw [claimsOf_cons, ← append_assoc] at hc
    rw [cons_append] at hv ht
    -- the first item
    obtain ⟨v₁, v₂, hen, ht₁, ⟨_, hto⟩, hr⟩ := ht.cons hk (fun _ => rfl) (hv.at? (h.at? _))
    have hf := h.fits before n (todo ++ tail)
    have hi : Shows S E (⟨root, path, before, n, todo ++ tail, []⟩ : Sleeve).tree
        (⟨root, path, before, n, todo ++ tail, []⟩ : Sleeve).path
        { v with path := v.path ++ [⟨"body", some before.length⟩] } :=
      ⟨hv.root_eq, hv.comments_eq, by rw [hv.path_eq]; rfl⟩
    have hso : (⟨root, path, before, n, todo ++ tail, []⟩ : Sleeve).tree.source? = host := by
      rw [Sleeve.source?_tree, hh]
    have hk₃ : v₂.tree.root.Keyed := tours_keyed hbr ht₁
      (enter_keyed hbr (hi.at? (Sleeve.at?_path hf)) hen hk)
    have hT₂ := List.Subset.trans hT (tours_comments hbr hto hk₃)
    obtain ⟨hap, s₂, hs₂, hv₂⟩ := hwe _ E _ v₁ v₂ hf hi (hv.keyed_iff.1 hk)
      hso hE (nodup_append.1 hc).1 hen ht₁ hT₂
    subst hs₂
    -- the cursor is behind it, with what was put there next
    have hl : before ++ (R.weft S).front n ++ (R.weft S).weave n ::
        ((R.weft S).back n ++ (todo ++ tail)) =
        (before ++ (R.weft S).front n ++ [(R.weft S).weave n]) ++
          ((R.weft S).back n ++ (todo ++ tail)) := append_cons ..
    have hv₃ : Shows S (E ++ (R.weft S).spent n)
        (withBody root path ((before ++ (R.weft S).front n ++ [(R.weft S).weave n]) ++
          ((R.weft S).back n ++ (todo ++ tail)))) path { v₂ with path } := by
      rw [← hl]
      exact ⟨hv₂.root_eq, hv₂.comments_eq, rfl⟩
    have hE₃ : ∀ e ∈ E ++ (R.weft S).spent n, isIn R.marker e = true :=
      forall_mem_append.2 ⟨hE, fun e he => isIn_of_mem_spent (w := R.weft S) he⟩
    have hr₃ := hr path _ ⟨"body", some (before ++ (R.weft S).front n).length⟩
      ((items "body" 0 (before ++ (R.weft S).front n)).map (·.1))
      ((items "body" (before ++ (R.weft S).front n ++ [(R.weft S).weave n]).length
        ((R.weft S).back n ++ (todo ++ tail))).map (·.1))
      hv₂.path_eq rfl (hv₃.at? (h.at? _)) (by simp [keys_modifyList])
      (by rw [kids_mapComments, map_map, h.kids, ← hl]; exact steps_around ..)
    have hs := idles_items hbr h _ _ _ hv₃ hk₃ hh hE₃ (hb' hap) hr₃
    have hsp : before ++ (R.weft S).front n ++ [(R.weft S).weave n] ++
        (R.weft S).back n = before ++ (R.weft S).spread n := by
      simp [Weft.spread]
    rw [← append_assoc, hsp] at hv₃
    rw [hsp] at hs
    -- the other items
    have hc₃ := hc.sublist (((List.Sublist.refl E).append
      (spent_sublist (R.weft S) n)).append (List.Sublist.refl _))
    obtain ⟨ha, hla⟩ := ih (before ++ (R.weft S).spread n) hv₃ hk₃ hE₃ hc₃ hw hb hs
    refine ⟨forall_mem_cons.2 ⟨hap, ha⟩, ?_⟩
    rwa [flatMap_cons, flatMap_cons, ← append_assoc, append_assoc _ _ tail, ← append_assoc before]

-- == trees

/-- A list that nodes may be included into has all children. -/
theorem Native.kids_eq_items {key : String} (h : Native w host ds n) (hk : key ∈ lendableKeys)
    (hl : n.children? key = some list) : n.kids = items key 0 list :=
  Node.kids_eq_items h.shaped.keys hl (h.sole key hk list hl)

/-- A node that is replaced has no children. -/
theorem Native.kids_eq_nil (h : Native w host ds n) (hne : w.replacing n ≠ []) : n.kids = [] := by
  cases hl : ofLiteral? w.marker n with
  | some d => exact h.leaf (Directive.kind_of_ofLiteral? hl)
  | none =>
    rw [Weft.replacing_of_none hl] at hne
    split at hne
    · obtain ⟨key, hk, range, hli, -⟩ := Weft.hollow_of_inside hne
      exact h.kids_eq_items hk hli
    · exact absurd rfl hne

/-- What comes to stand behind an item is inert. -/
theorem inert_back (hta : Tame R host S T ds) (hn : n.Every (Native (R.weft S) host ds))
    (ha : n.Every (Apt R S T)) :
    ∀ m ∈ (R.weft S).back n, Inert R.marker host m := by
  intro m hm
  obtain ⟨k, hk, hm⟩ := mem_flatMap.1 hm
  obtain ⟨d, hd, hm⟩ := mem_flatMap.1 hm
  have ht : d ∈ (R.weft S).taken k := by simp [Weft.taken, hd]
  have hp : k ∈ n.preorder := n.surface_sublist.subset (mem_reverse.1 hk)
  exact hta d ((hn k hp).taken ht) ((ha k hp).taken d ht) m hm

theorem weaves_of_body (hbr : Brings R) (htm : Tame R host S T ds)
    (hn : n.Every (Native (R.weft S) host ds)) (hfi : ∀ d ∈ (R.weft S).filling n, Taken R T d)
    (hb : n.children? "body" = some list)
    (hni : (R.weft S).replacing n = []) (hw : ∀ k ∈ n.kids, Weaves R host S T k.2)
    (hr : root.at? path = some ((R.weft S).entered n)) (hv : Shows S E root path v)
    (hke : v.tree.root.Keyed) (hh : root.source? = host)
    (hE : ∀ e ∈ E, isIn R.marker e = true)
    (hc : (E ++ claimsOf (R.weft S) (n.kids.map (·.2))).Nodup)
    (ht : Tours R.visitor .start v last) (hT : T ⊆ last.tree.comments) :
    (∀ k ∈ n.kids, k.2.Every (Apt R S T)) ∧ Shows S (E ++ (n.kids.map (·.2)).flatMap (R.weft S).spent)
        (root.modifyAt (fun _ => (R.weft S).weave n) path) path last := by
  obtain ⟨hna, hki⟩ := every_iff.1 hn
  have hs := hna.sole "body" (by simp) list hb
  have hl := hna.kids_eq_items (by simp) hb
  have he := Weft.entered_of_nil hni
  have hbo : Bodied root path ((R.weft S).entered n) := by
    refine ⟨hr, ?_, ?_, ?_⟩
    · rw [he, keys_modifyList]
      exact hna.shaped.keys
    · exact ⟨_, by rw [he, children?_modifyList, hb]; rfl⟩
    · rw [he, kids_modifyList_of_sole hna.shaped.keys hb hs]
      intro k hk
      obtain ⟨j, hste, -⟩ := mem_items hk
      rw [hste]
  have hp (list' : List Node) : ((R.weft S).entered n).modifyList "body" (fun _ => list') =
      n.modifyList "body" fun _ => list' := by
    rw [he, modifyList_modifyList]
    rfl
  -- the walk comes with what the body was filled with
  have hst : withBody root path (list ++ ((R.weft S).filling n).flatMap
      (R.weft S).content) = root := by
    refine (modifyAt_congr hr ?_).trans (modifyAt_self hr)
    rw [hp, he]
    exact modifyList_congr hb rfl
  rw [← hst] at hv
  have ht' := ht.toursOf (hv.at? (hbo.at? _))
  rw [kids_mapComments, map_map, hbo.kids] at ht'
  rw [hl, map_snd_items] at hc
  have hta : ∀ m ∈ ((R.weft S).filling n).flatMap (R.weft S).content, Inert R.marker host m := by
    intro m hm
    obtain ⟨d, hd, hm⟩ := mem_flatMap.1 hm
    exact htm d (hna.taken (by simp [Weft.taken, hd])) (hfi d hd) m hm
  have hi : ∀ m ∈ list, Weaves R host S T m ∧
      (m.Every (Apt R S T) → ∀ b ∈ (R.weft S).back m, Inert R.marker host b) := by
    intro m hm
    rw [← map_snd_items "body" 0 list, ← hl] at hm
    obtain ⟨k, hk, rfl⟩ := mem_map.1 hm
    exact ⟨hw k hk, inert_back htm (hki k hk)⟩
  obtain ⟨ha, hla⟩ := weaves_body hbr hbo [] list _ hv hke hh hE hc
    (fun m hm => (hi m hm).1) (fun m hm => (hi m hm).2) hta hT ht'
  refine ⟨fun k hk => ha k.2 ?_, ?_⟩
  · rw [← map_snd_items "body" 0 list, ← hl]
    exact mem_map_of_mem hk
  · rw [hl, map_snd_items]
    refine hla.congr (modifyAt_congr hr ?_)
    rw [hp, Weft.weave_of_body hna.shaped.keys hb hs hni]
    exact modifyList_congr hb rfl

theorem claims_eq (w : Weft) (n : Node) :
    (n.preorder.flatMap w.claims).filterMap (·.comment) =
      (w.claims n).filterMap (·.comment) ++ claimsOf w (n.kids.map (·.2)) := by
  rw [preorder_eq, flatMap_cons, filterMap_append, flatMap_assoc, claimsOf, flatMap_map]

theorem Native.weaves (hbr : Brings R) (htm : Tame R host S T ds) (hS : S.Nodup) (n : Node)
    (hn : n.Every (Native (R.weft S) host ds)) : Weaves R host S T n := by
  induction n using induction_kids with
  | h n ih =>
    intro s E v v₁ last hf hv hke hh hE hc he ht hT
    obtain ⟨hna, hki⟩ := every_iff.1 hn
    have hw := fun k hk => ih k hk (hki k hk)
    rw [claims_eq, ← append_assoc] at hc
    have hke₁ := enter_keyed hbr (hv.at? (Sleeve.at?_path hf)) he (hv.keyed_iff.2 hke)
    have hT₁ := List.Subset.trans hT (tours_comments hbr ht hke₁)
    obtain ⟨hap, s₁, hs₁, hv₁⟩ :=
      enter_shows hbr htm hE hS hT₁ hv hf hna hh (nodup_append.1 hc).1 he
    have hf₁ : s₁.Fits ((R.weft S).entered n) := hs₁ ▸ hf.put _ _ _
    have hh₁ : s₁.tree.source? = host := by rw [hs₁, Sleeve.source?_put, hh]
    have hta := Weft.taken_sublist_claims (R.weft S) n
    have hE₁ : ∀ e ∈ E ++ ((R.weft S).taken n).filterMap (·.comment), isIn R.marker e = true :=
      forall_mem_append.2 ⟨hE, fun com hco =>
        isIn_of_mem_claims (w := R.weft S) (hta.subset hco)⟩
    replace hc := hc.sublist (((List.Sublist.refl E).append hta).append (List.Sublist.refl _))
    rw [every_iff, Weft.spent_eq, ← append_assoc]
    by_cases hni : (R.weft S).replacing n = []
    · cases hb : n.children? "body" with
      | some list =>
        have hfi : ∀ d ∈ (R.weft S).filling n, Taken R T d := fun d hd =>
          hap.taken d (by simp [Weft.taken, hd])
        obtain ⟨ha, hl⟩ := weaves_of_body hbr htm hn hfi hb hni hw
          (Sleeve.at?_path hf₁) hv₁ hke₁ hh₁ hE₁ hc ht hT
        refine ⟨⟨hap, ha⟩, s₁.put [] ((R.weft S).weave n) [], ?_, ?_⟩
        · rw [hs₁, Sleeve.put_put, Weft.front_of_body hb, Weft.back_of_body hb,
            append_nil, nil_append]
        · rwa [Sleeve.tree_put, Sleeve.path_put]
      | none =>
        have hfi := Weft.filling_of_loose (w := R.weft S) hna.shaped hb
        rw [Weft.entered_eq_self hni hfi] at hf₁ hs₁
        have ht₁ := ht.toursOf (hv₁.at? (Sleeve.at?_path hf₁))
        rw [kids_mapComments, map_map] at ht₁
        obtain ⟨ha, m', s', ho, hki', hs', hl⟩ := weaves_kids hbr [] n.kids hf₁ hb
          rfl hv₁ (hv₁.keyed_iff.1 hke₁) hh₁ hE₁ hc hw hT ht₁
        have hkey := hna.shaped.keys
        have hm' : m' = (R.weft S).weave n := eq_of_own_of_kids (hna.shaped.of_own ho).keys
            (ho.trans (Weft.own_weave_of_loose hkey hb hni).symm)
            (hki'.trans (Weft.kids_weave_of_loose hkey hb hni).symm)
        refine ⟨⟨hap, ha⟩, s', ?_, ?_⟩
        · rw [hs', hs₁, Sleeve.put_put, Weft.front_of_loose hb, Weft.back_of_loose hb, hm']
        · rwa [flatMap_map]
    · -- a node of an included file stands there
      have hi := inert_entered htm hna
        (fun d hd => hap.taken d (Weft.replacing_subset_taken _ n hd)) hap.sole hni
      have hat := hv₁.at? (Sleeve.at?_path hf₁)
      rw [hi.eraseAll_eq hE₁] at hat
      have hso : v₁.tree.root.source? = host := by
        rw [hv₁.root_eq, source?_mapComments, hh₁]
      obtain rfl := tours_of_idles hat hke₁ hso (hi.kids hbr) ht
      have hch := hna.kids_eq_nil hni
      obtain ⟨hfr, hba⟩ := Weft.around_of_childless (w := R.weft S) hch
      refine ⟨⟨hap, fun k hk => by rw [hch] at hk; cases hk⟩, s₁, ?_, ?_⟩
      · rw [hs₁, hfr, hba, Weft.weave_eq_entered hni]
      · rwa [hch, map_nil, flatMap_nil, append_nil]

/-- A tree whose nodes have their comments for themselves. -/
structure Warped (w : Weft) (ds : List Directive) (root : Node) : Prop where
  native : root.Every (Native w root.source? ds)
  kind : root.kind = .program
  body : ∃ list, root.children? "body" = some list
  bare : root.leading = [] ∧ root.trailing = []
  apart : ((root.preorder.flatMap w.claims).filterMap (·.comment)).Nodup

/-- The root is not replaced, and nothing is put around it. -/
theorem Warped.replacing_root (h : Warped w ds root) : w.replacing root = [] := by
  have hl : ofLiteral? w.marker root = none := by
    rw [ofLiteral?, Node.stringValue?, h.kind]
    rfl
  rw [Weft.replacing_of_none hl, h.kind]
  rfl

theorem Warped.taken_root (h : Warped w ds root) : w.taken root = w.filling root := by
  have hn := h.replacing_root
  rw [Weft.taken, Weft.preceding_of_nil hn, Weft.following_of_nil hn, h.bare.1, h.bare.2, hn]
  simp [ofComments]

theorem resolveWith_weaves {t t' : Tree} (hb : Brings R)
    (htm : Tame R t.root.source? t.comments t'.comments ds)
    (ht : Warped (R.weft t.comments) ds t.root) (hno : t.comments.Nodup) (h : R.run t = .ok t') :
    t'.root = ((R.weft t.comments).weave t.root).eraseAll ((R.weft t.comments).spent t.root) ∧
      t'.comments = t.comments.diff ((R.weft t.comments).spent t.root) ∧
      t.root.Every (Apt R t.comments t'.comments) := by
  obtain ⟨hna, hki⟩ := every_iff.1 ht.native
  obtain ⟨list, hbo⟩ := ht.body
  have hke : t.root.Keyed := fun n hn => (ht.native n hn).shaped.keys
  obtain ⟨visit, last, hent, hto, rfl⟩ := resolveWith_tours hb hke h
  have hv : Shows t.comments [] t.root [] (⟨directiveCount R.marker t, t, []⟩ : Visit) :=
    ⟨(eraseAll_nil t.root).symm, rfl, rfl⟩
  obtain ⟨v₁, v₂, v₃, hq, hfi, ⟨n₂, hn₂, hl⟩, n₃, hn₃, htr⟩ :=
    enter_turns hb.clean (hv.at? (at?_nil _)) hent
  have hni := ht.replacing_root
  have hta := ht.taken_root
  have hc := ht.apart
  rw [claims_eq] at hc
  have hsu := Weft.taken_sublist_claims (R.weft t.comments) t.root
  replace hc := hc.sublist (hsu.append (List.Sublist.refl _))
  have hg : ∀ e ∈ ((R.weft t.comments).taken t.root).filterMap (·.comment),
      isIn R.marker e = true := fun e he =>
    isIn_of_mem_claims (w := R.weft t.comments) (hsu.subset he)
  have hfr : Free [] ((R.weft t.comments).inside t.root) := fun _ _ => nofun
  have hke₁ := enter_keyed hb (hv.at? (at?_nil _)) hent hke
  have hT := tours_comments hb hto hke₁
  have hT₂ := List.Subset.trans (List.Subset.trans hT htr.comments_subset) hl.comments_subset
  obtain ⟨hf, hso, hv₂⟩ :=
    hq.fills_shows (E := []) hfi hb htm nofun hno hT₂ hv (at?_nil _) hna hfr
  rw [hni, nil_append] at hf
  rw [hni, nil_append, nil_append, ← hta] at hv₂
  have hr := at?_modifyAt (fun _ => (R.weft t.comments).entered t.root) (at?_nil t.root)
  have hen := Weft.entered_of_nil hni
  rw [hv₂.at? hr] at hn₂
  cases hn₂
  rw [leading_mapComments, hen] at hl
  change Batch R _ (ofComments R.marker (t.root.leading.diff _)) v₂ v₃ at hl
  rw [ht.bare.1, nil_diff] at hl
  obtain rfl := hl.eq_of_nil
  rw [hv₂.at? hr] at hn₃
  cases hn₃
  rw [trailing_mapComments, hen] at htr
  change Batch R _ (ofComments R.marker (t.root.trailing.diff _)).reverse v₃ visit at htr
  rw [ht.bare.2, nil_diff] at htr
  obtain rfl := htr.eq_of_nil
  -- so all that is left is its body
  have hh : (t.root.modifyAt (fun _ => (R.weft t.comments).entered t.root) []).source? =
      t.root.source? := by
    rw [Node.modifyAt, hen]
    rfl
  obtain ⟨ha, hla⟩ := weaves_of_body hb htm ht.native hf hbo hni
    (fun k hk => Native.weaves hb htm hno k.2 (hki k hk)) hr hv₂ hke₁ hh hg hc hto
    (.refl _)
  rw [Weft.spent_eq]
  refine ⟨hla.root_eq, hla.comments_eq, every_iff.2 ⟨⟨?_, hso⟩, ha⟩⟩
  rwa [hta]

end Weaving

end Inclusion

end Inlay
