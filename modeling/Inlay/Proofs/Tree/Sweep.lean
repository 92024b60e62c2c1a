/-
Walks that leave nothing behind.

A visitor that puts each node it enters in order, and that inserts only
nodes that are in order, leaves a tree in which every node is. The invariant
is what the walk has swept so far (`Swept`): the nodes on its path, and with
all that is below them the children that it is past (`walk_sweeps`).
-/
import Inlay.Proofs.Tree.Grafts
import Inlay.Proofs.Tree.Erasure

namespace Inlay

namespace Walk

open List Node

variable {n n' m : Node} {s : Step} {p p' : Path} {P Q : Node → Prop}

/-- The nodes that a walk on its way to the end of a path is past, the
one at the end aside. -/
def Swept (P : Node → Prop) : Node → Path → Prop
  | _, [] => True
  | n, s :: p => P n ∧ (∀ k ∈ n.kids, k.1 = s ∨ k ∈ n.behind s ∨ k.2.Every P) ∧
      ∃ m, n.step? s = some m ∧ Swept P m p

namespace Swept

theorem snoc {child : Node} (h : Swept P n p) (hm : n.at? p = some m) (hP : P m)
    (hs : m.step? s = some child)
    (hk : ∀ k ∈ m.kids, k.1 = s ∨ k ∈ m.behind s ∨ k.2.Every P) : Swept P n (p ++ [s]) := by
  induction p generalizing n with
  | nil =>
    cases hm
    exact ⟨hP, hk, child, hs, trivial⟩
  | cons t p ih =>
    obtain ⟨hn, hb, l, ht, hl⟩ := h
    obtain ⟨l', ht', hm⟩ := at?_cons_eq_some_iff.1 hm
    obtain rfl := Option.some.inj (ht.symm.trans ht')
    exact ⟨hn, hb, l, ht, ih hl hm⟩

theorem of_snoc (h : Swept P n (p ++ [s])) (hm : n.at? p = some m) :
    Swept P n p ∧ P m ∧ ∀ k ∈ m.kids, k.1 = s ∨ k ∈ m.behind s ∨ k.2.Every P := by
  induction p generalizing n with
  | nil =>
    cases hm
    obtain ⟨hn, hb, -⟩ := h
    exact ⟨trivial, hn, hb⟩
  | cons t p ih =>
    obtain ⟨hn, hb, l, ht, hl⟩ := h
    obtain ⟨l', ht', hm⟩ := at?_cons_eq_some_iff.1 hm
    obtain rfl := Option.some.inj (ht.symm.trans ht')
    obtain ⟨hp, hr⟩ := ih hl hm
    exact ⟨⟨hn, hb, l, ht, hp⟩, hr⟩

theorem modifyStep {f : Node → Node} (hn : n.Keyed) (hs : n.step? s = some m)
    (hP : P (n.modifyStep s f)) (h : Swept P n (s :: p)) (hm : Swept P (f m) p') :
    Swept P (n.modifyStep s f) (s :: p') := by
  obtain ⟨-, hb, -⟩ := h
  refine ⟨hP, fun k hk => ?_, f m, step?_modifyStep hn.nodup hs f, hm⟩
  rw [behind_modifyStep hn.nodup hs]
  obtain ⟨A, B, hki, hc⟩ := kids_split hs
  rw [hki] at hb
  rw [hc] at hk
  rcases mem_append.1 hk with hk | hk
  · exact hb k (mem_append_left _ hk)
  · rcases mem_cons.1 hk with rfl | hk
    · exact .inl rfl
    · exact hb k (mem_append_right _ (mem_cons_of_mem _ hk))

theorem child (h : Swept P n (s :: p)) (hs : n.step? s = some m) : Swept P m p := by
  obtain ⟨-, -, m', hs', hm⟩ := h
  obtain rfl := Option.some.inj (hs.symm.trans hs')
  exact hm

theorem modifyAt (hn : n.Keyed)
    (hst : ∀ n s f, P n → P (n.modifyStep s f))
    (h : Swept P n p) (hm : n.at? p = some m) (f : Node → Node) : Swept P (n.modifyAt f p) p := by
  induction p generalizing n with
  | nil => trivial
  | cons s p ih =>
    obtain ⟨l, hs, hl⟩ := at?_cons_eq_some_iff.1 hm
    exact h.modifyStep hn hs (hst n s _ h.1) (ih (hn.step hs) (h.child hs) hl)

theorem grafted {g : Graft} {depth : Nat} (hg : Grafted g depth n p n' p') (hn : n.Keyed)
    (hst : ∀ n s f, P n → P (n.modifyStep s f))
    (hi : ∀ n : Node, P n → P (n.modifyList g.key (Splice.insertAt g.position g.nodes)))
    (hno : ∀ m ∈ g.nodes, m.Every P) (h : Swept P n p) : Swept P n' p' := by
  induction hg with
  | step hs _ ih => exact h.modifyStep hn hs (hst _ _ _ h.1) (ih (hn.step hs) (h.child hs))
  | @here n p list hli hp =>
    cases p with
    | nil => trivial
    | cons s p =>
      obtain ⟨hP, hbe, m, hs, hm⟩ := h
      obtain ⟨hs', A, B, hb, hb'⟩ := behind_insertAt hn.nodup hli hp hs true p
      obtain ⟨front, rest, -, hki, hki'⟩ :=
        kids_insertAt hn.nodup hli hp g.nodes g.depth
      have hP' := hi n hP
      generalize n.modifyList g.key (Splice.insertAt g.position g.nodes) = n' at *
      refine ⟨hP', fun k hk => ?_, m, hs', hm⟩
      -- a child that was there before stands on the same side of the path
      have hold : ∀ l ∈ n.kids, k = (l.1.shift g.insertion, l.2) →
          k.1 = s.shift g.insertion ∨ k ∈ n'.behind (s.shift g.insertion) ∨ k.2.Every P := by
        rintro l hl rfl
        rcases hbe l hl with heq | hme | ha
        · exact .inl (by rw [heq])
        · rw [hb] at hme
          rw [hb']
          rcases mem_append.1 hme with hme | hme
          · exact .inr (.inl (mem_append_left _ (mem_append_left _ (mem_map.2 ⟨l, hme, rfl⟩))))
          · exact .inr (.inl (mem_append_right _ (mem_map.2 ⟨l, hme, rfl⟩)))
        · exact .inr (.inr ha)
      rw [hki'] at hk
      rcases mem_append.1 hk with hk | hk
      · rcases mem_append.1 hk with hk | hk
        · obtain ⟨l, hl, rfl⟩ := mem_map.1 hk
          exact hold l (hki ▸ mem_append_left _ hl) rfl
        · obtain ⟨j, -, -, -, hge⟩ := mem_items hk
          exact .inr (.inr (hno _ (mem_of_getElem? hge)))
      · obtain ⟨l, hl, rfl⟩ := mem_map.1 hk
        exact hold l (hki ▸ mem_append_right _ hl) rfl

theorem mapComments {f : List Comment → List Comment} (hn : n.Keyed)
    (hPQ : ∀ n : Node, P n → Q (n.mapComments f)) (h : Swept P n p) :
    Swept Q (n.mapComments f) p := by
  induction p generalizing n with
  | nil => trivial
  | cons s p ih =>
    obtain ⟨hP, hb, m, hs, hm⟩ := h
    have hbe : (n.mapComments f).behind s = (n.behind s).map fun k => (k.1, k.2.mapComments f) := by
      obtain ⟨A, hki⟩ := exists_kids_eq_behind hs
      have hma := kids_mapComments f n
      rw [hki, map_append, map_cons] at hma
      exact behind_eq (by rw [keys_mapComments]; exact hn.nodup) hma
    refine ⟨hPQ n hP, fun k hk => ?_, m.mapComments f, by rw [step?_mapComments, hs]; rfl,
      ih (hn.step hs) hm⟩
    rw [kids_mapComments] at hk
    obtain ⟨k', hk', rfl⟩ := mem_map.1 hk
    rcases hb k' hk' with heq | hme | ha
    · exact .inl heq
    · exact .inr (.inl (hbe ▸ mem_map.2 ⟨k', hme, rfl⟩))
    · exact .inr (.inr (ha.mapComments hPQ))

end Swept

theorem Aligned.mapComments {cs : List Cursor} (h : Aligned n p cs) (f : List Comment → List Comment) :
    Aligned (n.mapComments f) p cs := by
  induction p generalizing n cs with
  | nil => exact h
  | cons s p ih =>
    obtain ⟨c, more, m, hcs, hs, hc, hm⟩ := h
    refine ⟨c, more, m.mapComments f, hcs, ?_, ?_, ih hm⟩
    · rw [step?_mapComments, hs]
      rfl
    · rw [hc, keys_mapComments]

-- == the walk

variable {σ ε : Type} {v : Visitor σ ε}

/-- A visit in the course of a walk that sweeps the tree. -/
structure Visited (P : List Comment → Node → Prop) (X : σ → Tree → Prop) (cs : List Cursor)
    (visit : Visit σ) : Prop where
  keyed : visit.tree.root.Keyed
  aligned : Aligned visit.tree.root visit.path cs
  swept : Swept (P visit.tree.comments) visit.tree.root visit.path
  extra : X visit.memory visit.tree

/-- A visitor that sweeps the tree: it puts the nodes that it enters in
order and pays for its changes. -/
structure Sweeps (v : Visitor σ ε) (P : List Comment → Node → Prop) (X : σ → Tree → Prop) : Prop where
  leave : ∀ visit, v.leave visit = .ok visit
  enter : ∀ cs visit visit', Visited P X cs visit → v.enter visit = .ok visit' →
    Visited P X cs visit' ∧
      (∃ n, visit'.tree.root.at? visit'.path = some n ∧ P visit'.tree.comments n) ∧
      (v.budget visit'.memory < v.budget visit.memory ∨
        v.budget visit'.memory = v.budget visit.memory ∧ visit'.tree = visit.tree ∧
          visit'.path = visit.path)

/-- Between two stops. -/
structure Sweeping (P : List Comment → Node → Prop) (X : σ → Tree → Prop) (s : State σ) : Prop where
  standing : Standing s
  extra : X s.visit.memory s.visit.tree
  swept : match s.cursors with
    | [] => s.visit.tree.root.Every (P s.visit.tree.comments)
    | c :: _ => Swept (P s.visit.tree.comments) s.visit.tree.root s.visit.path ∧
        ∃ n, s.visit.tree.root.at? s.visit.path = some n ∧ P s.visit.tree.comments n ∧
          ∀ k ∈ n.kids, k ∈ c.ahead n ∨ k.2.Every (P s.visit.tree.comments)

variable {P : List Comment → Node → Prop} {X : σ → Tree → Prop} {visit : Visit σ}

theorem Sweeping.of_entered {above : List Cursor} (h : Visited P X above.reverse visit)
    (hn : visit.tree.root.at? visit.path = some n) (hP : P visit.tree.comments n) :
    Sweeping P X ⟨visit, .start :: above⟩ := by
  refine ⟨⟨h.keyed, ?_⟩, h.extra, h.swept, n, hn, hP, fun k hk => .inl ?_⟩
  · rintro c more heq
    cases heq
    exact h.aligned
  · rwa [Cursor.ahead_start]

/-- A node all of whose children are swept is left behind. -/
theorem Sweeping.of_left {current : Cursor} {above : List Cursor}
    (h : Sweeping P X ⟨visit, current :: above⟩) (hn : visit.tree.root.at? visit.path = some n)
    (hah : current.ahead n = []) :
    Sweeping P X ⟨{ visit with path := visit.path.dropLast }, resume visit.path above⟩ := by
  have ha := h.standing.aligned current above rfl
  obtain ⟨hsw, n', hn', hP, hki⟩ := h.swept
  obtain rfl := Option.some.inj (hn.symm.trans hn')
  have he : n.Every (P visit.tree.comments) := by
    refine every_iff.2 ⟨hP, fun k hk => (hki k hk).resolve_left ?_⟩
    rw [hah]
    exact not_mem_nil
  refine ⟨(left_resume h.standing.keyed ha).1, h.extra, ?_⟩
  rcases resume_cases ha with
    ⟨hp, hr⟩ | ⟨q, s, c, above', m, child, hp, hr, -, hm, hs, hbe⟩
  · dsimp only
    rw [hr]
    rw [hp] at hn
    cases hn
    exact he
  · dsimp only at hsw hn ⊢
    rw [hp] at hsw hn
    rw [hr, hp, dropLast_concat]
    obtain ⟨hsw, hPm, hb⟩ := hsw.of_snoc hm
    refine ⟨hsw, m, hm, hPm, fun k hk => ?_⟩
    rw [hbe]
    rcases hb k hk with heq | hme | hal
    · refine .inr ?_
      rw [at?_snoc hm, hs] at hn
      cases hn
      have hke := (h.standing.keyed.at? hm).nodup
      have hkid := (step?_eq_some_iff hke).2 hk
      rw [heq, hs] at hkid
      cases hkid
      exact he
    · exact .inl hme
    · exact .inr hal

/-- What a sweeping walk leaves, and the tour that it is. -/
theorem walk_sweeps (hv : Sweeps v P X) {memory memory' : σ} {t t' : Tree} (ht : t.root.Keyed)
    (hX : X memory t) (h : t.walk v memory = .ok (memory', t')) :
    t'.root.Keyed ∧ t'.root.Every (P t'.comments) ∧ X memory' t' ∧
      ∃ visit last, v.enter ⟨memory, t, []⟩ = .ok visit ∧ Tours v .start visit last ∧
        last.tree = t' := by
  have hstar : Visited P X ([] : List Cursor).reverse ⟨memory, t, []⟩ := ⟨ht, rfl, trivial, hX⟩
  let I (s : State σ) : Prop := Sweeping P X s ∧ ∃ visit, v.enter ⟨memory, t, []⟩ = .ok visit ∧
    ∀ last, Rests v s last → Rests v ⟨visit, [.start]⟩ last
  have hI : ∀ s, I s → Standing s := fun _ hs => hs.1.standing
  have hen : (∃ memory' tree path, t.walk v memory = .ok (memory', tree) ∧
      I ⟨⟨memory', tree, path⟩, []⟩) ∨ ∃ e, t.walk v memory = .error e ∧ True := by
    refine walk_ends hI ?_ ?_
    · cases he : v.enter ⟨memory, t, []⟩ with
      | error e => trivial
      | ok visit =>
        obtain ⟨hvi, ⟨n, hn, hP⟩, -⟩ := hv.enter _ _ _ hstar he
        exact ⟨.of_entered hvi hn hP, visit, he, fun _ hr => hr⟩
    · intro visit current above ⟨hsw, first, hf, hr⟩
      have hb : ∀ next, step v current above visit = .ok next → ∀ last, Rests v next last →
          Rests v ⟨first, [.start]⟩ last := fun next hst last hla => hr last (hla.of_step hst)
      rcases step_eq v hsw.standing with
        ⟨s, cursor, m, child, hsta, hm, ha, hc, hl, hst⟩ | ⟨m, hm, ha, hl, hst⟩
      · rw [hst] at hb ⊢
        rw [hl]
        cases he : v.enter { visit with path := visit.path ++ [s] } with
        | error e => trivial
        | ok visit' =>
          rw [he] at hb
          obtain ⟨hswe, m', hm', hP, hki⟩ := hsw.swept
          obtain rfl := Option.some.inj (hm.symm.trans hm')
          have hvi : Visited P X (cursor :: above).reverse
              { visit with path := visit.path ++ [s] } := by
            refine ⟨hsta.keyed, hsta.aligned _ _ rfl, ?_, hsw.extra⟩
            have hs : m.step? s = some child := by
              rwa [at?_snoc hm] at hc
            refine hswe.snoc hm hP hs fun k hk => ?_
            rcases hki k hk with hk | hal
            · rw [ha] at hk
              rcases mem_cons.1 hk with rfl | hk
              · exact .inl rfl
              · exact .inr (.inl hk)
            · exact .inr (.inr hal)
          obtain ⟨hvi', ⟨n, hn, hPn⟩, hp⟩ := hv.enter _ _ _ hvi he
          refine ⟨⟨.of_entered hvi' hn hPn, first, hf, hb _ rfl⟩, ?_⟩
          rcases hp with hlo | ⟨hsa, htr, hpa⟩
          · exact .inl hlo
          · obtain ⟨memory', tree', path'⟩ := visit'
            obtain rfl : tree' = visit.tree := htr
            obtain rfl : path' = visit.path ++ [s] := hpa
            exact .inr ⟨hsa, Nat.lt_succ_self _⟩
      · rw [hst] at hb ⊢
        rw [hl]
        rw [hv.leave] at hb ⊢
        refine ⟨⟨hsw.of_left hm ha, first, hf, hb _ rfl⟩, .inr ⟨rfl, ?_⟩⟩
        rw [(left_resume hsw.standing.keyed (hsw.standing.aligned _ _ rfl)).2]
        exact Nat.lt_succ_self _
  rcases hen with ⟨m', tree, path, hw, hsw, first, hf, hr⟩ | ⟨e, hw, -⟩
  · rw [hw] at h
    cases h
    refine ⟨hsw.standing.keyed, hsw.swept, hsw.extra, first, ?_⟩
    cases hr _ .over with
    | level hto hle ho =>
      rw [hv.leave] at hle
      cases hle
      cases ho
      exact ⟨_, hf, hto, rfl⟩
  · rw [hw] at h
    cases h

end Walk

end Inlay
