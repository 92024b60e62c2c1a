/-
Scripts that have grown are scripts.

What inclusion makes of a script is a tree that no text was read for.
Tokens for it can be put together all the same: a rule that made a node
that is kept makes it again of the tokens of its parts, and the tokens of
a statement that has come in go between those of its neighbours
(`regrows`). Such a statement may have more around it than it had, which
allows it more jumps (`Frame.Le`), or a label that is around it already,
so all of it is said of trees with their labels apart.
-/
import Inlay.Proofs.Inclusion.StatementLists
import Inlay.Proofs.Script.Nesting
import Inlay.Proofs.Script.StatementCode

namespace Inlay

open List

open Node (Alike AlikeAll PropsAlike)

namespace Script

-- == frames

/-- What is allowed in one frame is allowed in the other, labels of
statements apart. -/
structure Frame.Le (F F' : Frame) : Prop where
  inFunction : F.inFunction = true → F'.inFunction = true
  labels : F.labels ⊆ F'.labels

theorem Frame.Le.refl (F : Frame) : F.Le F := ⟨id, .refl _⟩

theorem Frame.top_le (F : Frame) : Frame.top.Le F := ⟨nofun, nil_subset _⟩

theorem Frame.Le.push {F F' : Frame} (h : F.Le F') (label : String) :
    (F.push label).Le (F'.push label) :=
  ⟨h.inFunction, fun _ hl => mem_append.2 ((mem_append.1 hl).imp_left fun hl => h.labels hl)⟩

-- == readable

/-- There are tokens that stand for nodes like these. -/
def Readable (T : Token → Prop) (F : Frame) (s : Symbol) (rs : List Node) : Prop :=
  ∃ ts ns, Derives F s ts ns ∧ ts.Forall T ∧ AlikeAll rs ns

variable {T : Token → Prop} {F : Frame} {s : Symbol} {r : Node} {rs : List Node}

theorem Readable.one (h : Readable T F s [r]) :
    ∃ ts n, Derives F s ts [n] ∧ ts.Forall T ∧ r.Alike n := by
  obtain ⟨ts, ns, hd, hts, ha⟩ := h
  obtain ⟨n, rfl⟩ := length_eq_one_iff.1 ha.length_eq.symm
  obtain ⟨_, _, heq, hr, -⟩ := AlikeAll.cons_iff.1 ha
  cases heq
  exact ⟨ts, n, hd, hts, hr⟩

theorem readable_one {ts : List Token} {n : Node} (hd : Derives F s ts [n]) (hts : ts.Forall T)
    (h : r.Alike n) : Readable T F s [r] :=
  ⟨ts, [n], hd, hts, .cons h .nil⟩

/-- A list of statements can be read if each of them can. -/
theorem readable_statements_iff :
    Readable T F .statements rs ↔ ∀ r ∈ rs, Readable T F .statement [r] := by
  constructor
  · rintro ⟨ts, ns, hd, hts, ha⟩
    induction ns generalizing ts rs with
    | nil =>
      rw [AlikeAll.nil_iff.1 ha]
      exact forall_mem_nil _
    | cons n ns ih =>
      obtain ⟨r, rs, rfl, hr, hrs⟩ := AlikeAll.cons_iff.1 ha
      cases hd with
      | statementsCons hd hds =>
        rw [forall_append] at hts
        exact forall_mem_cons.2 ⟨readable_one hd hts.1 hr, ih _ hds hts.2 hrs⟩
  · intro h
    induction rs with
    | nil => exact ⟨[], [], .statementsNil, trivial, .nil⟩
    | cons r rs ih =>
      obtain ⟨hr, hrs⟩ := forall_mem_cons.1 h
      obtain ⟨ts, n, hd, hts, hn⟩ := hr.one
      obtain ⟨us, ns, hds, hus, hns⟩ := ih hrs
      exact ⟨_, _, .statementsCons hd hds, (forall_append ..).2 ⟨hts, hus⟩, .cons hn hns⟩

end Script

namespace Inclusion

open Script Node

variable {T : Token → Prop} {O : Node → Prop} {marker : String} {N : Nat} {F F₀ : Frame}
  {s : Symbol} {ts : List Token} {h n r : Node} {hs ns rs : List Node} {grows : Bool}
  {key : String} {ps qs : Node.Props} {labels : List String}

-- == kept nodes

theorem Kept.like (hlo : ∀ a, O a → a.kind.isAtomic = false) (hk : Kept O marker h r) :
    r.kind = h.kind ∧ KeptProps O marker h.kind.isContainer h.props r.props := by
  cases hk with
  | kept hl hp => exact ⟨hl.kind, hp⟩
  | replaced _ ha hat =>
    rw [hlo _ ha] at hat
    cases hat

theorem KeptNodes.exists_cons (hk : KeptNodes O marker false (h :: hs) rs) :
    ∃ r rs', rs = r :: rs' ∧ Kept O marker h r ∧ KeptNodes O marker false hs rs' := by
  cases hk with
  | keep hi hr => exact ⟨_, _, rfl, hi, hr⟩

theorem KeptNodes.length_eq (hk : KeptNodes O marker false hs rs) : rs.length = hs.length := by
  induction hs generalizing rs with
  | nil =>
    cases hk
    rfl
  | cons h hs ih =>
    obtain ⟨r, rs, rfl, -, hr⟩ := hk.exists_cons
    rw [length_cons, length_cons, ih hr]

/-- The items of a list that has grown are its own and those that have
come in. -/
theorem KeptNodes.exists_own (hk : KeptNodes O marker grows hs rs) :
    ∃ own, KeptNodes O marker false hs own ∧ own ⊆ rs ∧
      ∀ r ∈ rs, r ∈ own ∨ ∃ a, O a ∧ Kept O marker a r := by
  induction rs generalizing hs with
  | nil =>
    obtain rfl := hk.eq_nil
    exact ⟨[], .nil, nil_subset _, forall_mem_nil _⟩
  | cons r rs ih =>
    cases hk with
    | keep hi hr =>
      obtain ⟨own, ho, hsu, hal⟩ := ih hr
      refine ⟨r :: own, .keep hi ho, cons_subset_cons r hsu,
        forall_mem_cons.2 ⟨.inl mem_cons_self, ?_⟩⟩
      exact fun r' hr' => (hal r' hr').imp_left (mem_cons_of_mem _)
    | gain ha _ hi hr =>
      obtain ⟨own, ho, hsu, hal⟩ := ih hr
      exact ⟨own, ho, subset_cons_of_subset r hsu, forall_mem_cons.2 ⟨.inr ⟨_, ha, hi⟩, hal⟩⟩

theorem Kept.child (hlo : ∀ a, O a → a.kind.isAtomic = false) (hk : Kept O marker h r)
    (key : String) : h.child? key = none ∧ r.child? key = none ∨
      ∃ c c', h.child? key = some c ∧ r.child? key = some c' ∧ Kept O marker c c' := by
  unfold Node.child? Node.get?
  obtain ⟨hv, hw⟩ | ⟨v, w, hv, hw, hf⟩ := (hk.like hlo).2.lookup key
  · rw [hv, hw]
    exact .inl ⟨rfl, rfl⟩
  · rw [hv, hw]
    cases hf with
    | node hn => exact .inr ⟨_, _, rfl, rfl, hn⟩
    | nodes | data => exact .inl ⟨rfl, rfl⟩

/-- Where an `else` would belong to does not change. -/
theorem Kept.dangles_eq (hlo : ∀ a, O a → a.kind.isAtomic = false) {h r : Node}
    (hk : Kept O marker h r) : dangles r = dangles h := by
  refine dangles_congr (hk.like hlo).1 fun key _ d => ?_
  obtain ⟨hh, hr⟩ | ⟨c, c', hh, hr, hc⟩ := hk.child hlo key
  · rw [hh, hr]
  · rw [hh, hr]
    exact hc.dangles_eq hlo
termination_by h.size
decreasing_by exact size_lt_of_child? hh

/-- A node, and one like what it has become. -/
def Regrown (O : Node → Prop) (marker : String) (n n' : Node) : Prop :=
  ∃ h r, h.Alike n ∧ Kept O marker h r ∧ r.Alike n'

section Regrown

variable {n' : Node} (hlo : ∀ a, O a → a.kind.isAtomic = false) (hn : Regrown O marker n n')

include hlo hn

theorem Regrown.kind_eq : n'.kind = n.kind := by
  obtain ⟨h, r, hh, hk, hr⟩ := hn
  rw [← hr.kind_eq, (hk.like hlo).1, hh.kind_eq]

theorem Regrown.dangles_eq : dangles n' = dangles n := by
  obtain ⟨h, r, hh, hk, hr⟩ := hn
  rw [← Script.dangles_eq hr, hk.dangles_eq hlo, Script.dangles_eq hh]

theorem Regrown.isTarget_eq : Rules.isTarget n' = Rules.isTarget n := by
  rw [Rules.isTarget, Rules.isTarget, hn.kind_eq hlo]

omit hlo hn in
theorem isContainer_of_isLoopTarget (ht : Rules.isLoopTarget n = true) :
    n.kind.isContainer = false := by
  simp only [Rules.isLoopTarget, Rules.isTarget, Bool.and_eq_true, Bool.or_eq_true,
    beq_iff_eq] at ht
  rcases ht.1 with hk | hk | hk <;> rw [hk] <;> rfl

/-- No list but a body grows, so the head of a loop has as many
declarations as it had. -/
theorem Regrown.isLoopTarget_eq (hc : n.kind.isContainer = false) :
    Rules.isLoopTarget n' = Rules.isLoopTarget n := by
  have hl : (n'.children? "declarations").map List.length =
      (n.children? "declarations").map List.length := by
    have ha : ∀ {m m' : Node}, m.Alike m' → (m.children? "declarations").map List.length =
        (m'.children? "declarations").map List.length := by
      intro m m' hm
      have hke : "declarations" ≠ "raw" := by decide
      have heq := congrArg (Option.map List.length) (hm.children?_eq hke)
      simpa [Function.comp_def] using heq
    obtain ⟨h, r, hh, hk, hr⟩ := hn
    rw [← ha hr, ← ha hh]
    have hp := (hk.like hlo).2
    rw [hh.kind_eq, hc] at hp
    unfold Node.children? Node.get?
    obtain ⟨hv, hw⟩ | ⟨v, w, hv, hw, hf⟩ := hp.lookup "declarations"
    · rw [hv, hw]
    · rw [hv, hw]
      cases hf with
      | nodes hno => exact congrArg some hno.length_eq
      | node | data => rfl
  have ho : ∀ m : Node, Rules.isLoopTarget m =
      ((m.kind == .variableDeclaration || Rules.isTarget m) &&
        (((m.children? "declarations").map List.length).map (· == 1)).getD true) := by
    intro m
    rw [Rules.isLoopTarget, Option.map_map]
    rfl
  rw [ho, ho, hl, hn.kind_eq hlo, hn.isTarget_eq hlo]

end Regrown

-- == parts

/-- A node of the result with its labels apart from those around it, and
not too large. -/
structure Admissible (N : Nat) (labels : List String) (r : Node) : Prop where
  apart : r.labelsApart labels = true
  size_le : r.size ≤ N

/-- What has become of the nodes that a symbol stands for can be read as
that symbol, in every frame that allows as much. -/
def Regrows (T : Token → Prop) (O : Node → Prop) (marker : String) (N : Nat) (F₀ : Frame)
    (s : Symbol) (ns : List Node) : Prop :=
  ∀ F : Frame, F₀.Le F → ∀ hs rs : List Node, AlikeAll hs ns → KeptNodes O marker false hs rs →
    s.Each F (Admissible N) rs → Readable T F s rs

/-- It is enough to know how each node can be read. -/
theorem regrows_single (hn : ∀ F, F₀.Le F → ∀ h r, h.Alike n → Kept O marker h r →
      s.Each F (Admissible N) [r] → Readable T F s [r]) : Regrows T O marker N F₀ s [n] := by
  intro F hF hs rs hhs hrs hf
  obtain ⟨h, hs, rfl, hh, hhs⟩ := AlikeAll.cons_iff.1 hhs
  obtain ⟨r, rs, rfl, hk, hrs⟩ := hrs.exists_cons
  obtain rfl := AlikeAll.nil_iff.1 hhs
  cases hrs
  exact hn F hF h r hh hk hf

theorem Regrows.one (hn : Regrows T O marker N F₀ s [n]) (hs : s.isSimple = true) (hF : F₀.Le F)
    (hh : h.Alike n) (hk : Kept O marker h r) (hr : Admissible N F.labels r) :
    ∃ ts n', Derives F s ts [n'] ∧ ts.Forall T ∧ r.Alike n' :=
  (hn F hF [h] [r] (.cons hh .nil) (.keep hk .nil)
    ((Symbol.each_iff hs).2 (forall_mem_singleton.2 hr))).one

/-- The properties that the properties of a node have become, and the
labels around what they hold. -/
structure Parts (O : Node → Prop) (marker : String) (N : Nat) (grows : Bool)
    (labels : String → List String) (ps qs : List (String × Field Node)) : Prop where
  kept : ∃ hps, PropsAlike false hps ps ∧ KeptProps O marker grows hps qs
  apart : ∀ e ∈ qs, ∀ m ∈ e.2.children, m.labelsApart (labels e.1) = true
  size_lt : ∀ e ∈ qs, ∀ m ∈ e.2.children, m.size < N

section Parts

variable {labels : String → List String} {j : Json}

theorem Parts.nil (hp : Parts O marker N grows labels [] qs) : PropsAlike false qs [] := by
  obtain ⟨hps, hpa, hk⟩ := hp.kept
  obtain rfl := hpa.eq_nil
  cases hk
  exact .nil

theorem Parts.exists_node (hp : Parts O marker N grows labels ((key, .node n) :: ps) qs) :
    ∃ h r qs', qs = (key, .node r) :: qs' ∧ h.Alike n ∧ Kept O marker h r ∧
      Admissible N (labels key) r ∧ Parts O marker N grows labels ps qs' := by
  obtain ⟨⟨hps, hpa, hk⟩, ha, hs⟩ := hp
  obtain ⟨h, hps, rfl, hh, hpa⟩ := hpa.exists_node
  cases hk with
  | cons hf hre =>
    cases hf with
    | node hn =>
      obtain ⟨hr, ha⟩ := forall_mem_cons.1 ha
      obtain ⟨hr', hs⟩ := forall_mem_cons.1 hs
      refine ⟨h, _, _, rfl, hh, hn, ⟨hr _ mem_cons_self, ?_⟩, ⟨_, hpa, hre⟩, ha, hs⟩
      exact Nat.le_of_lt (hr' _ mem_cons_self)

theorem Parts.exists_nodes (hp : Parts O marker N grows labels ((key, .nodes ns) :: ps) qs) :
    ∃ hs rs qs', qs = (key, .nodes rs) :: qs' ∧ AlikeAll hs ns ∧
      KeptNodes O marker (grows && key == "body") hs rs ∧
      (∀ r ∈ rs, r.labelsApart (labels key) = true) ∧ (∀ r ∈ rs, r.size < N) ∧
      Parts O marker N grows labels ps qs' := by
  obtain ⟨⟨hps, hpa, hk⟩, ha, hsi⟩ := hp
  obtain ⟨hs, hps, rfl, hhs, hpa⟩ := hpa.exists_nodes
  cases hk with
  | cons hf hre =>
    cases hf with
    | nodes hn =>
      obtain ⟨hr, ha⟩ := forall_mem_cons.1 ha
      obtain ⟨hr', hsi⟩ := forall_mem_cons.1 hsi
      exact ⟨hs, _, _, rfl, hhs, hn, hr, hr', ⟨_, hpa, hre⟩, ha, hsi⟩

theorem Parts.exists_data (hp : Parts O marker N grows labels ((key, .data j) :: ps) qs) :
    ∃ qs', qs = (key, .data j) :: qs' ∧ Parts O marker N grows labels ps qs' := by
  obtain ⟨⟨hps, hpa, hk⟩, ha, hs⟩ := hp
  obtain ⟨hps, rfl, hr'⟩ := hpa.exists_data
  cases hk with
  | cons hf hr =>
    cases hf with
    | data =>
      exact ⟨_, rfl, ⟨_, hr', hr⟩, (forall_mem_cons.1 ha).2, (forall_mem_cons.1 hs).2⟩

/-- A child that may be missing can be read, and is missing where it
was. -/
theorem Parts.node? (hp : Parts O marker N grows labels ((key, .ofNode? ns.head?) :: ps) qs)
    (hd : Derives F₀ (.maybe s) ts ns) (hns : Regrows T O marker N F₀ (.maybe s) ns)
    (hs : s.isSimple = true) (hF : F₀.Le F) (hl : labels key = F.labels) :
    ∃ ts ns', Derives F (.maybe s) ts ns' ∧ ts.Forall T ∧ (ns' = [] ↔ ns = []) ∧ ∃ qs',
      (∀ {ps'}, PropsAlike false qs' ps' → PropsAlike false qs ((key, .ofNode? ns'.head?) :: ps')) ∧
        Parts O marker N grows labels ps qs' := by
  cases hd with
  | none =>
    obtain ⟨qs, rfl, hre⟩ := hp.exists_data
    exact ⟨[], [], .none, trivial, Iff.rfl, qs, .same, hre⟩
  | some =>
    obtain ⟨h, r, qs, rfl, hh, hk, hr, hp⟩ := hp.exists_node
    obtain ⟨ts, n', hd, hts, hn'⟩ := hns.one hs hF hh hk (hl ▸ hr)
    exact ⟨ts, [n'], hd, hts, by simp, qs, .node hn', hp⟩

end Parts

-- == properties

/-- Whatever has become of the properties of a node, there are tokens for
a node that has the like behind those that are found already. -/
def Remakes (T : Token → Prop) (O : Node → Prop) (marker : String) (N : Nat) (F : Frame)
    (s : Symbol) (kind : Kind) (done ps : List (String × Field Node)) : Prop :=
  ∀ qs, Parts O marker N kind.isContainer (fun _ => F.labels) ps qs →
    ∃ ts n ps', Derives F s ts [n] ∧ ts.Forall T ∧ (n.kind, n.props) = (kind, done ++ ps') ∧
      PropsAlike false qs ps'

namespace Remakes

variable {s' : Symbol} {kind : Kind} {done : Node.Props} {e : String × Field Node}

theorem nil (hd : Derives F s ts [n]) (hts : ts.Forall T := by simp [*])
    (hn : (n.kind, n.props) = (kind, done) := by rfl) : Remakes T O marker N F s kind done [] :=
  fun _ hp => ⟨ts, n, [], hd, hts, by rw [hn, append_nil], hp.nil⟩

theorem found (h : Remakes T O marker N F s kind (done ++ [e]) ps)
    (hp : Parts O marker N kind.isContainer (fun _ => F.labels) ps qs) :
    ∃ ts n ps', Derives F s ts [n] ∧ ts.Forall T ∧ (n.kind, n.props) = (kind, done ++ e :: ps') ∧
      PropsAlike false qs ps' := by
  obtain ⟨ts, n, ps', hd, hts, hn, hps⟩ := h qs hp
  exact ⟨ts, n, ps', hd, hts, by rw [hn, append_assoc]; rfl, hps⟩

theorem data {j : Json} (h : Remakes T O marker N F s kind (done ++ [(key, .data j)]) ps) :
    Remakes T O marker N F s kind done ((key, .data j) :: ps) := by
  intro qs hp
  obtain ⟨qs, rfl, hr⟩ := hp.exists_data
  obtain ⟨ts, n, ps', hd, hts, hn, hps⟩ := h.found hr
  exact ⟨ts, n, _, hd, hts, hn, .same hps⟩

theorem node (hn : Regrows T O marker N F₀ s' [n]) (hF : F₀.Le F)
    (h : ∀ {ts n'}, Derives F s' ts [n'] → ts.Forall T → Regrown O marker n n' →
      Remakes T O marker N F s kind (done ++ [(key, .node n')]) ps)
    (hs : s'.isSimple = true := by rfl) :
    Remakes T O marker N F s kind done ((key, .node n) :: ps) := by
  intro qs hp
  obtain ⟨m, r, qs, rfl, hm, hke, hr, hp⟩ := hp.exists_node
  obtain ⟨ts, n', hd, hts, hn'⟩ := hn.one hs hF hm hke hr
  obtain ⟨ts, k, ps', hd, hts, hk, hps⟩ := (h hd hts ⟨m, r, hm, hke, hn'⟩).found hp
  exact ⟨ts, k, _, hd, hts, hk, .node hn' hps⟩

theorem nodes (hns : Regrows T O marker N F₀ s' ns) (hF : F₀.Le F)
    (h : ∀ {ts ns'}, Derives F s' ts ns' → ts.Forall T → ns'.length = ns.length →
      Remakes T O marker N F s kind (done ++ [(key, .nodes ns')]) ps)
    (hs : s'.isSimple = true := by rfl)
    (hg : (kind.isContainer && key == "body") = false := by rfl) :
    Remakes T O marker N F s kind done ((key, .nodes ns) :: ps) := by
  intro qs hp
  obtain ⟨hs', rs, qs, rfl, hhs, hke, ha, hsi, hp⟩ := hp.exists_nodes
  rw [hg] at hke
  obtain ⟨ts, ns', hd, hts, hns'⟩ := hns F hF hs' rs hhs hke
    ((Symbol.each_iff hs).2 fun r hr => ⟨ha r hr, Nat.le_of_lt (hsi r hr)⟩)
  have hl : ns'.length = ns.length := by
    rw [← hns'.length_eq, hke.length_eq, hhs.length_eq]
  obtain ⟨ts, k, ps', hd, hts, hk, hps⟩ := (h hd hts hl).found hp
  exact ⟨ts, k, _, hd, hts, hk, .nodes hns' hps⟩

theorem node? (hd : Derives F₀ (.maybe s') ts ns) (hns : Regrows T O marker N F₀ (.maybe s') ns)
    (hF : F₀.Le F)
    (h : ∀ {ts ns'}, Derives F (.maybe s') ts ns' → ts.Forall T → (ns' = [] ↔ ns = []) →
      Remakes T O marker N F s kind (done ++ [(key, .ofNode? ns'.head?)]) ps)
    (hs : s'.isSimple = true := by rfl) :
    Remakes T O marker N F s kind done ((key, .ofNode? ns.head?) :: ps) := by
  intro qs hp
  obtain ⟨ts, ns', hd, hts, he, qs, hqs, hp⟩ := hp.node? hd hns hs hF rfl
  obtain ⟨ts, k, ps', hd, hts, hk, hps⟩ := (h hd hts he).found hp
  exact ⟨ts, k, _, hd, hts, hk, hqs hps⟩

end Remakes

-- == nodes

/-- Whether a property holds no nodes. -/
def isDatum : Field Node → Bool
  | .data _ => true
  | _ => false

theorem all_isDatum_stripped (literal : Bool) (ps : Node.Props) :
    (Node.strippedProps literal ps).all (isDatum ·.2) = ps.all (isDatum ·.2) := by
  induction ps with
  | nil => rfl
  | cons e ps ih =>
    obtain ⟨k, _ | _ | j⟩ := e
    · rfl
    · rfl
    · rw [Node.strippedProps]
      split
      · exact ih
      · exact ih

theorem KeptProps.eq_of_data (hk : KeptProps O marker grows ps qs)
    (hd : ps.all (isDatum ·.2) = true) : qs = ps := by
  induction ps generalizing qs with
  | nil =>
    cases hk
    rfl
  | cons e ps ih =>
    obtain ⟨hda, hd⟩ := Bool.and_eq_true_iff.1 (all_cons ▸ hd)
    cases hk with
    | cons hf hr =>
      cases hf with
      | node | nodes => cases hda
      | data => rw [ih hr hd]

section Nodes

variable (hlo : ∀ a, O a → a.kind.isAtomic = false)

include hlo

theorem Kept.alike_of_leaf (hk : Kept O marker h r) (hh : h.Alike n)
    (hl : n.props.all (isDatum ·.2) = true) : r.Alike n := by
  obtain ⟨hki, hp⟩ := hk.like hlo
  have hd : h.props.all (isDatum ·.2) = true := by
    rw [← all_isDatum_stripped (h.kind == .literal), ← props_stripped, hh,
      props_stripped, all_isDatum_stripped, hl]
  exact (alike_of_props hki rfl (congrArg _ (hp.eq_of_data hd))).trans hh

theorem regrows_leaf (hd : ∀ F, F₀.Le F → Derives F s ts [n]) (hts : ts.Forall T := by simp [*])
    (hl : n.props.all (isDatum ·.2) = true := by rfl) : Regrows T O marker N F₀ s [n] :=
  regrows_single fun F hF _ _ hh hk _ =>
    readable_one (hd F hF) hts (hk.alike_of_leaf hlo hh hl)

theorem Kept.exists_parts (hke : Kept O marker h r) (hh : h.Alike n) (hli : n.kind ≠ .literal)
    (hr : Admissible N labels r) :
    r.kind = n.kind ∧ (∀ l ∈ r.label?, l ∉ labels) ∧
      Parts O marker N n.kind.isContainer (r.labelsUnder labels) n.props r.props := by
  obtain ⟨hk, hp⟩ := hke.like hlo
  obtain ⟨hl, ha⟩ := labelsApart_iff.1 hr.apart
  rw [hh.kind_eq] at hk hp
  refine ⟨hk, hl, ⟨h.props, ?_, hp⟩, ha, fun e he m hm => ?_⟩
  · have hpa := congrArg Node.props hh
    rw [props_stripped, props_stripped, hh.kind_eq, beq_eq_false_iff_ne.2 hli] at hpa
    exact hpa
  · exact Nat.lt_of_lt_of_le (size_lt_of_mem_props he hm) hr.size_le

/-- A node that leaves the labels as they are can be read if its parts
can. -/
theorem regrows_of_parts (hn : ∀ F, F₀.Le F → Remakes T O marker N F s n.kind [] n.props)
    (hk : n.kind.isTransparent = true := by rfl) (hs : s.isSimple = true := by rfl) :
    Regrows T O marker N F₀ s [n] := by
  refine regrows_single fun F hF h r hh hke hf => ?_
  have hr := forall_mem_singleton.1 ((Symbol.each_iff hs).1 hf)
  obtain ⟨hli, hl, hde, he⟩ := Kind.ne_of_isTransparent hk
  obtain ⟨hrk, -, hp⟩ := hke.exists_parts hlo hh hli hr
  rw [← hrk] at hl hde he
  rw [labelsUnder_of_kind hl hde he] at hp
  obtain ⟨ts, n', ps', hd, hts, hn', hpr⟩ := hn F hF r.props hp
  obtain ⟨hk', rfl⟩ := Prod.mk.inj hn'
  refine readable_one hd hts (alike_of_props hrk hk' ?_)
  rwa [beq_eq_false_iff_ne.2 hli]

end Nodes

theorem Regrows.as {s' : Symbol} (hns : Regrows T O marker N F₀ s ns)
    (he : ∀ {F rs}, s'.Each F (Admissible N) rs → s.Each F (Admissible N) rs)
    (hd : ∀ {F ts ns'}, ns'.length = ns.length → Derives F s ts ns' → ts.Forall T →
      ∃ ts', Derives F s' ts' ns' ∧ ts'.Forall T) : Regrows T O marker N F₀ s' ns := by
  intro F hF hs rs hhs hrs hf
  obtain ⟨ts, ns', hd', hts, hns'⟩ := hns F hF hs rs hhs hrs (he hf)
  have hl : ns'.length = ns.length := by
    rw [← hns'.length_eq, hrs.length_eq, hhs.length_eq]
  obtain ⟨ts', hd', hts'⟩ := hd hl hd' hts
  exact ⟨ts', ns', hd', hts', hns'⟩

theorem Regrows.asOne {s' : Symbol} (hn : Regrows T O marker N F₀ s [n])
    (he : ∀ {F rs}, s'.Each F (Admissible N) rs → s.Each F (Admissible N) rs)
    (hd : ∀ {F ts n'}, Derives F s ts [n'] → ts.Forall T → ∃ ts', Derives F s' ts' [n'] ∧ ts'.Forall T) :
    Regrows T O marker N F₀ s' [n] := by
  refine hn.as he fun hl hd' hts => ?_
  obtain ⟨n', rfl⟩ := length_eq_one_iff.1 hl
  exact hd hd' hts

theorem regrows_cons {s' : Symbol} (hn : Regrows T O marker N F₀ s [n])
    (hns : Regrows T O marker N F₀ s' ns) (hi : s.isSimple = true) (hl : s'.isSimple = true)
    (hc : ∀ {F ts us n ns}, Derives F s ts [n] → Derives F s' us ns → ts.Forall T →
      us.Forall T → ∃ ts', Derives F s' ts' (n :: ns) ∧ ts'.Forall T) :
    Regrows T O marker N F₀ s' (n :: ns) := by
  intro F hF hs rs hhs hrs hf
  obtain ⟨h, hs, rfl, hh, hhs⟩ := AlikeAll.cons_iff.1 hhs
  obtain ⟨r, rs, rfl, hk, hrs⟩ := hrs.exists_cons
  obtain ⟨hr, hf⟩ := forall_mem_cons.1 ((Symbol.each_iff hl).1 hf)
  obtain ⟨ts, n', hd, hts, hn'⟩ := hn.one hi hF hh hk hr
  obtain ⟨us, ns', hds, hus, hns'⟩ := hns F hF hs rs hhs hrs ((Symbol.each_iff hl).2 hf)
  obtain ⟨ts', hd', hts'⟩ := hc hd hds hts hus
  exact ⟨ts', n' :: ns', hd', hts', .cons hn' hns'⟩

theorem regrows_nil (hd : ∀ F, F₀.Le F → Derives F s [] []) : Regrows T O marker N F₀ s [] := by
  intro F hF hs rs hhs hrs _
  obtain rfl := AlikeAll.nil_iff.1 hhs
  cases hrs
  exact ⟨[], [], hd F hF, trivial, .nil⟩

section Derivations

variable (hlo : ∀ a, O a → a.kind.isAtomic = false)

/-- A body can be read if its own statements can and those that have come
into it. -/
theorem readable_body (hg : ∀ a r F, O a → Kept O marker a r → r.size < N →
      r.labelsApart F.labels = true → Readable T F .statement [r])
    (hns : Regrows T O marker N F₀ .statements ns) (hF : F₀.Le F) (hhs : AlikeAll hs ns)
    (hrs : KeptNodes O marker grows hs rs) (hap : ∀ r ∈ rs, r.labelsApart F.labels = true)
    (hsi : ∀ r ∈ rs, r.size < N) : Readable T F .statements rs := by
  obtain ⟨own, ho, hsu, hal⟩ := hrs.exists_own
  have hre := hns F hF hs own hhs ho fun r hr =>
    ⟨hap r (hsu hr), Nat.le_of_lt (hsi r (hsu hr))⟩
  rw [readable_statements_iff] at hre ⊢
  intro r hr
  obtain hr' | ⟨a, ha, hk⟩ := hal r hr
  · exact hre r hr'
  · exact hg a r F ha hk (hsi r hr) (hap r hr)

include hlo

theorem exists_function {kind : Kind} {us : List Token} {id params : List Node} {body : Node}
    (hki : kind = .functionExpression ∨ kind = .functionDeclaration)
    (hid : Derives F₀ (.maybe .identifier) us id)
    (ihi : Regrows T O marker N F₀ (.maybe .identifier) id)
    (ihc : Regrows T O marker N F₀ .callable (body :: params)) (hF : F₀.Le F)
    (hh : h.Alike (spanned kind (functionProps id params body) ts)) (hk : Kept O marker h r)
    (hr : Admissible N F.labels r) :
    ∃ is cs id' body' params', Derives F (.maybe .identifier) is id' ∧ is.Forall T ∧
      (id' = [] ↔ id = []) ∧ Derives F .callable cs (body' :: params') ∧ cs.Forall T ∧
      r.Alike (Node.bare kind (functionProps id' params' body')) := by
  have hl : kind ≠ .literal := by rcases hki with rfl | rfl <;> nofun
  obtain ⟨hrk, -, hp⟩ := hk.exists_parts hlo hh hl hr
  have ho : ∀ key, key ≠ "body" → r.labelsUnder F.labels key = F.labels :=
    fun key hkey => if_neg hkey
  have hi : r.labelsUnder F.labels "body" = [] := by
    have hor : r.kind = .functionDeclaration ∨ r.kind = .functionExpression := by
      rw [hrk]
      exact hki.symm
    rw [Node.labelsUnder, if_pos rfl, if_pos hor]
  obtain ⟨is, id', hdi, his, he, qs, hqs, hp⟩ :=
    hp.node? hid ihi rfl hF (ho _ (by decide))
  obtain ⟨hs, rs, qs', rfl, hhs, hke, ha, hsi, hp⟩ := hp.exists_nodes
  obtain ⟨h', r', qs'', rfl, hh', hk', hr', hp⟩ := hp.exists_node
  rw [ho _ (by decide)] at ha
  rw [hi] at hr'
  have hno : KeptNodes O marker false hs rs := by
    rcases hki with rfl | rfl <;> exact hke
  obtain ⟨cs, ns', hdc, hc, hns'⟩ := ihc F hF (h' :: hs) (r' :: rs) (.cons hh' hhs)
    (.keep hk' hno) ⟨fun n hn => by cases hn; exact hr',
      fun n hn => ⟨ha n hn, Nat.le_of_lt (hsi n hn)⟩⟩
  obtain ⟨body', params', rfl, hb, hpa⟩ :
      ∃ body' params', ns' = body' :: params' ∧ r'.Alike body' ∧ AlikeAll rs params' := by
    cases hdc with
    | callable => exact ⟨_, _, rfl, (List.cons.inj hns').1, (List.cons.inj hns').2⟩
  refine ⟨is, cs, id', body', params', hdi, his, he, hdc, hc, ?_⟩
  refine alike_of_props hrk rfl ?_
  rw [show (spanned kind (functionProps id params body) ts).kind = kind from rfl,
    beq_eq_false_iff_ne.2 hl]
  exact hqs (.nodes hpa (.node hb hp.nil))

/-- Every derivation survives what inclusion does to its nodes, as far as
the statements that have come in can be read. -/
theorem regrows (hg : ∀ a r F, O a → Kept O marker a r → r.size < N →
      r.labelsApart F.labels = true → Readable T F .statement [r])
    (hd : Derives F₀ s ts ns) (hts : ts.Forall T) : Regrows T O marker N F₀ s ns := by
  induction hd with
    try simp only [forall_cons, forall_append, List.Forall] at hts
  -- words and literals
  | identifier hk hr => exact regrows_leaf hlo (fun _ _ => .identifier hk hr)
  | name hk => exact regrows_leaf hlo (fun _ _ => .name hk)
  | number hk hv => exact regrows_leaf hlo (fun _ _ => .number hk hv)
  | string hk hv => exact regrows_leaf hlo (fun _ _ => .string hk hv)
  | regex hk => exact regrows_leaf hlo (fun _ _ => .regex hk)
  | keyName _ ih => exact (ih hts).as id fun _ hd hts => ⟨_, .keyName hd, hts⟩
  | keyLiteral hk hd =>
    cases hd with
    | number hk' hv => exact regrows_leaf hlo (fun _ _ => .keyLiteral hk (.number hk' hv))
    | string hk' hv => exact regrows_leaf hlo (fun _ _ => .keyLiteral hk (.string hk' hv))
    | regex hk' => exact regrows_leaf hlo (fun _ _ => .keyLiteral hk (.regex hk'))
  | this hk ht => exact regrows_leaf hlo (fun _ _ => .this hk ht)
  | null hk ht => exact regrows_leaf hlo (fun _ _ => .null hk ht)
  | truth hk ht => exact regrows_leaf hlo (fun _ _ => .truth hk ht)
  -- optional parts and lists
  | none => exact regrows_nil fun _ _ => .none
  | some _ ih => exact (ih hts).asOne id fun hd hts => ⟨_, .some hd, hts⟩
  | paramsNil => exact regrows_nil fun _ _ => .paramsNil
  | elementsNil => exact regrows_nil fun _ _ => .elementsNil
  | propertiesNil => exact regrows_nil fun _ _ => .propertiesNil
  | argumentsNil => exact regrows_nil fun _ _ => .argumentsNil
  | sequenceNil => exact regrows_nil fun _ _ => .sequenceNil
  | statementsNil => exact regrows_nil fun _ _ => .statementsNil
  | casesNil => exact regrows_nil fun _ _ => .casesNil
  | paramsCons _ hsep _ ih ihs =>
    exact regrows_cons (ih hts.1) (ihs hts.2.2) rfl rfl fun hd hds _ _ =>
      ⟨_, .paramsCons hd hsep hds, by simp [*]⟩
  | elementsHole ht _ ih =>
    intro F hF hs rs hhs hrs hfi
    obtain ⟨h, hs, rfl, hh, hhs⟩ := AlikeAll.cons_iff.1 hhs
    obtain ⟨r, rs, rfl, hke, hrs⟩ := hrs.exists_cons
    obtain ⟨hr, hfi⟩ := forall_mem_cons.1 hfi
    obtain ⟨hki, -, hp⟩ := hke.exists_parts hlo hh (by rintro ⟨⟩) hr
    obtain ⟨us, ns', hds, hus, hns'⟩ := ih hts.2 F hF hs rs hhs hrs hfi
    exact ⟨_, _, .elementsHole ht hds, by simp [*], .cons (alike_of_props hki rfl hp.nil) hns'⟩
  | elementsCons _ hsep _ ih ihs =>
    exact regrows_cons (ih hts.1) (ihs hts.2.2) rfl rfl fun hd hds _ _ =>
      ⟨_, .elementsCons hd hsep hds, by simp [*]⟩
  | propertiesCons _ hsep _ ih ihs =>
    exact regrows_cons (ih hts.1) (ihs hts.2.2) rfl rfl fun hd hds _ _ =>
      ⟨_, .propertiesCons hd hsep hds, by simp [*]⟩
  | argumentsCons _ hsep _ ih ihs =>
    exact regrows_cons (ih hts.1) (ihs hts.2.2) rfl rfl fun hd hds _ _ =>
      ⟨_, .argumentsCons hd hsep hds, by simp [*]⟩
  | sequenceCons ht _ _ ih ihs =>
    exact regrows_cons (ih hts.2.1) (ihs hts.2.2) rfl rfl fun hd hds _ _ =>
      ⟨_, .sequenceCons ht hd hds, by simp [*]⟩
  | declaratorsLast _ ih => exact (ih hts).asOne id fun hd hts => ⟨_, .declaratorsLast hd, hts⟩
  | declaratorsCons _ ht _ ih ihs =>
    exact regrows_cons (ih hts.1) (ihs hts.2.2) rfl rfl fun hd hds _ _ =>
      ⟨_, .declaratorsCons hd ht hds, by simp [*]⟩
  | statementsCons _ _ ih ihs =>
    exact regrows_cons (ih hts.1) (ihs hts.2) rfl rfl fun hd hds _ _ =>
      ⟨_, .statementsCons hd hds, by simp [*]⟩
  | casesCons _ _ ih ihs =>
    exact regrows_cons (ih hts.1) (ihs hts.2) rfl rfl fun hd hds _ _ =>
      ⟨_, .casesCons hd hds, by simp [*]⟩
  -- functions
  | callable hlp _ hrp _ ihp ihb =>
    intro F hF hs rs hhs hrs hfi
    obtain ⟨h, hs, rfl, hh, hhs⟩ := AlikeAll.cons_iff.1 hhs
    obtain ⟨r, rs, rfl, hke, hrs⟩ := hrs.exists_cons
    obtain ⟨bs, body, hdb, hbs, hb⟩ :=
      (ihb hts.2.2.2).one rfl (.refl _) hh hke (hfi.1 r rfl)
    obtain ⟨ps, params, hdp, hps, hpa⟩ := ihp hts.2.1 F hF hs rs hhs hrs hfi.2
    exact ⟨_, _, .callable hlp hdp hrp hdb, by simp [*], .cons hb hpa⟩
  | function ht hid hki _ ihi ihc =>
    refine regrows_single fun F hF h r hh hke hfi => ?_
    obtain ⟨is, cs, id, body, params, hdi, his, he, hdc, hcs, hal⟩ :=
      exists_function hlo (hki.imp_right And.left) hid (ihi hts.2.1) (ihc hts.2.2) hF hh hke
        (hfi r mem_cons_self)
    exact readable_one (.function ht hdi (hki.imp_right (And.imp_right (mt he.1))) hdc)
      (by simp [*]) hal
  -- expressions
  | ofIdentifier _ ih => exact (ih hts).as id fun _ hd hts => ⟨_, .ofIdentifier hd, hts⟩
  | ofLiteral _ ih => exact (ih hts).as id fun _ hd hts => ⟨_, .ofLiteral hd, hts⟩
  | ofFunction _ ih => exact (ih hts).as id fun _ hd hts => ⟨_, .ofFunction hd, hts⟩
  | parens hlp _ hrp ih =>
    exact (ih hts.2.1).as id fun _ hd _ => ⟨_, .parens hlp hd hrp, by simp [*]⟩
  | array hlb _ hrb ih =>
    exact regrows_of_parts hlo fun F hF => .nodes (ih hts.2.1) hF fun hd₁ _ _ =>
      .nil (.array hlb hd₁ hrb)
  | propertyInit _ ht _ ihk ihv =>
    exact regrows_of_parts hlo fun F hF => .node (ihk hts.1) hF fun hd₁ _ _ =>
      .node (ihv hts.2.2) hF fun hd₂ _ _ => .data (.nil (.propertyInit hd₁ ht hd₂))
  | propertyAccessor hk ht _ _ ihk ihc =>
    refine regrows_of_parts hlo fun F hF =>
      .node (ihk hts.2.1) hF fun hd₁ _ _ qs hp => ?_
    obtain ⟨h, r, qs', rfl, hh, hke, hr, hp⟩ := hp.exists_node
    obtain ⟨is, cs, id, body, params, -, -, he, hdc, hcs, hal⟩ :=
      exists_function hlo (.inl rfl) .none (regrows_nil fun _ _ => .none) (ihc hts.2.2) hF hh hke hr
    obtain rfl := he.2 rfl
    obtain ⟨_, rfl, hre⟩ := hp.exists_data
    exact ⟨_, _, _, .propertyAccessor hk ht hd₁ hdc, by simp [*], rfl, .node hal (.same hre.nil)⟩
  | object hlb _ hrb ih =>
    exact regrows_of_parts hlo fun F hF => .nodes (ih hts.2.1) hF fun hd₁ _ _ =>
      .nil (.object hlb hd₁ hrb)
  | dot _ ht _ _ iho ihp =>
    exact regrows_of_parts hlo fun F hF => .data <| .node (iho hts.1) hF fun hd₁ _ _ =>
      .node (ihp hts.2.2) hF fun hd₂ _ _ => .nil (.dot hd₁ ht hd₂ (.inl rfl))
  | index _ hlb _ hrb _ iho ihp =>
    exact regrows_of_parts hlo fun F hF => .data <| .node (iho hts.1) hF fun hd₁ _ _ =>
      .node (ihp hts.2.2.1) hF fun hd₂ _ _ => .nil (.index hd₁ hlb hd₂ hrb (.inl rfl))
  | call _ hlp _ hrp ihc iha =>
    exact regrows_of_parts hlo fun F hF => .node (ihc hts.1) hF fun hd₁ _ _ =>
      .nodes (iha hts.2.2.1) hF fun hd₂ _ _ => .nil (.call hd₁ hlp hd₂ hrp)
  | newBare ht _ ih =>
    exact regrows_of_parts hlo fun F hF => .node (ih hts.2) hF fun hd₁ _ _ =>
      .nodes (regrows_nil fun _ _ => .argumentsNil) hF fun _ _ hlen =>
      .nil (.newBare ht hd₁) (by simp [*]) (by rw [length_eq_zero_iff.1 hlen]; rfl)
  | new ht _ hlp _ hrp ihc iha =>
    exact regrows_of_parts hlo fun F hF => .node (ihc hts.2.1) hF fun hd₁ _ _ =>
      .nodes (iha hts.2.2.2.1) hF fun hd₂ _ _ => .nil (.new ht hd₁ hlp hd₂ hrp)
  | unary ht _ ih =>
    exact regrows_of_parts hlo fun F hF => .data <| .node (ih hts.2) hF fun hd₁ _ _ =>
      .data (.nil (.unary ht hd₁))
  | updateBefore ht _ hta ih =>
    exact regrows_of_parts hlo fun F hF => .data <| .node (ih hts.2) hF fun hd₁ _ hn =>
      .data (.nil (.updateBefore ht hd₁ (hn.isTarget_eq hlo ▸ hta)))
  | updateBehind _ ht hta ih =>
    exact regrows_of_parts hlo fun F hF => .data <| .node (ih hts.1) hF fun hd₁ _ hn =>
      .data (.nil (.updateBehind hd₁ ht (hn.isTarget_eq hlo ▸ hta)))
  | binary _ ht _ ihl ihr =>
    refine regrows_of_parts hlo (fun F hF => .data <| .node (ihl hts.1) hF fun hd₁ _ _ =>
      .node (ihr hts.2.2) hF fun hd₂ _ _ => .nil (.binary hd₁ ht hd₂)) ?_
    rcases binaryKind_cases _ with hki | hki <;> exact congrArg Kind.isTransparent hki
  | conditional _ hq _ hc _ iht ihy ihn =>
    exact regrows_of_parts hlo fun F hF => .node (iht hts.1) hF fun hd₁ _ _ =>
      .node (ihy hts.2.2.1) hF fun hd₂ _ _ => .node (ihn hts.2.2.2.2) hF fun hd₃ _ _ =>
      .nil (.conditional hd₁ hq hd₂ hc hd₃)
  | assignment _ hta hk ht _ ihl ihr =>
    exact regrows_of_parts hlo fun F hF => .data <| .node (ihl hts.1) hF fun hd₁ _ hn =>
      .node (ihr hts.2.2) hF fun hd₂ _ _ =>
      .nil (.assignment hd₁ (hn.isTarget_eq hlo ▸ hta) hk ht hd₂)
  | sequence _ _ hne ih ihs =>
    refine regrows_of_parts hlo fun F hF qs hp => ?_
    obtain ⟨hs, rs, qs', rfl, hhs, hke, hap, hsi, hre⟩ := hp.exists_nodes
    have hke : KeptNodes O marker false hs rs := hke
    have hfi : ∀ r ∈ rs, Admissible N F.labels r :=
      fun r hr => ⟨hap r hr, Nat.le_of_lt (hsi r hr)⟩
    obtain ⟨h, hs, rfl, hh, hhs⟩ := AlikeAll.cons_iff.1 hhs
    obtain ⟨r, rs, rfl, hite, hit⟩ := hke.exists_cons
    obtain ⟨hr, hfi⟩ := forall_mem_cons.1 hfi
    obtain ⟨ts₁, n₁, hd₁, hT₁, ha₁⟩ := (ih hts.1).one rfl hF hh hite hr
    obtain ⟨ts₂, ns₂, hd₂, hT₂, ha₂⟩ := ihs hts.2 F hF hs rs hhs hit hfi
    have hne₂ : ns₂ ≠ [] := by
      rw [ne_eq, ← length_eq_zero_iff, ← ha₂.length_eq, hit.length_eq, hhs.length_eq,
        length_eq_zero_iff]
      exact hne
    exact ⟨_, _, _, .sequence hd₁ hd₂ hne₂, by simp [*], rfl, .nodes (.cons ha₁ ha₂) hre.nil⟩
  -- declarations
  | initializer ht _ ih =>
    exact (ih hts.2).asOne id fun hd _ => ⟨_, .initializer ht hd, by simp [*]⟩
  | declarator _ hi ihi ihn =>
    exact regrows_of_parts hlo fun F hF => .node (ihi hts.1) hF fun hd₁ _ _ =>
      .node? hi (ihn hts.2) hF fun hd₂ _ _ => .nil (.declarator hd₁ hd₂)
  | declaration hk ht _ ih =>
    exact regrows_of_parts hlo fun F hF => .nodes (ih hts.2) hF fun hd₁ _ _ =>
      .data (.nil (.declaration hk ht hd₁))
  -- statements
  | block hlb _ hrb ih =>
    refine regrows_of_parts hlo fun F hF qs hp => ?_
    obtain ⟨hs, rs, qs', rfl, hhs, hke, hap, hsi, hp⟩ := hp.exists_nodes
    obtain ⟨ts₁, ns₁, hd₁, hT₁, ha₁⟩ :=
      readable_body hg (ih hts.2.1) hF hhs hke hap hsi
    exact ⟨_, _, _, .block hlb hd₁ hrb, by simp [*], rfl, .nodes ha₁ hp.nil⟩
  | ofBlock _ ih => exact (ih hts).as id fun _ hd hts => ⟨_, .ofBlock hd, hts⟩
  | ofFunctionDeclaration _ ih =>
    exact (ih hts).as id fun _ hd hts => ⟨_, .ofFunctionDeclaration hd, hts⟩
  | empty ht => exact regrows_leaf hlo (fun _ _ => .empty ht)
  | debugger ht hse => exact regrows_leaf hlo (fun _ _ => .debugger ht hse)
  | expressionStatement _ hse ih =>
    exact regrows_of_parts hlo fun F hF => .node (ih hts.1) hF fun hd₁ _ _ =>
      .nil (.expressionStatement hd₁ hse)
  | declarationStatement _ hse ih =>
    -- the node is that of the declaration, and spans the semicolon as well
    intro F hF hs rs hhs hrs hfi
    have hsp : ∀ {m : Node} {us}, (spanned m.kind m.props us).Alike m :=
      alike_of_props rfl rfl rfl
    obtain ⟨ts₁, ns₁, hd₁, hT₁, ha₁⟩ :=
      ih hts.1 F hF hs rs (Eq.trans hhs (AlikeAll.cons hsp .nil)) hrs hfi
    cases hd₁ with
    | declaration hk ht hds =>
      exact ⟨_, _, .declarationStatement (.declaration hk ht hds) hse,
        (forall_append ..).2 ⟨hT₁, hts.2⟩, Eq.trans ha₁ (AlikeAll.cons hsp.symm .nil)⟩
  | alternate ht _ ih => exact (ih hts.2).asOne id fun hd _ => ⟨_, .alternate ht hd, by simp [*]⟩
  | ifStatement ht hlp _ hrp _ hno hda iht ihy ihn =>
    exact regrows_of_parts hlo fun F hF => .node (iht hts.2.2.1) hF
      fun hd₁ _ _ => .node (ihy hts.2.2.2.2.1) hF fun hd₂ _ hy =>
      .node? hno (ihn hts.2.2.2.2.2) hF fun hd₃ _ he =>
      .nil (.ifStatement ht hlp hd₁ hrp hd₂ hd₃ fun hne => by
        rw [hy.dangles_eq hlo, hda (mt he.2 hne)])
  | initDeclaration _ ih => exact (ih hts).as id fun _ hd hts => ⟨_, .initDeclaration hd, hts⟩
  | initExpression _ ih => exact (ih hts).as id fun _ hd hts => ⟨_, .initExpression hd, hts⟩
  | forStatement ht hlp hi hs ht' hs' hu hrp _ ihi iht ihu ihb =>
    exact regrows_of_parts hlo fun F hF => .node? hi (ihi hts.2.2.1) hF fun hd₁ _ _ =>
      .node? ht' (iht hts.2.2.2.2.1) hF fun hd₂ _ _ =>
      .node? hu (ihu hts.2.2.2.2.2.2.1) hF fun hd₃ _ _ =>
      .node (ihb hts.2.2.2.2.2.2.2.2) hF fun hd₄ _ _ =>
      .nil (.forStatement ht hlp hd₁ hs hd₂ hs' hd₃ hrp hd₄)
  | forInStatement ht hlp hl hta hi _ hrp _ ihl ihr ihb =>
    exact regrows_of_parts hlo fun F hF => .node (ihl hts.2.2.1) hF
      fun hd₁ _ hle => .node (ihr hts.2.2.2.2.1) hF fun hd₂ _ _ =>
      .node (ihb hts.2.2.2.2.2.2) hF fun hd₃ _ _ =>
      .data (.nil (.forInStatement ht hlp hd₁ (by
        rwa [hle.isLoopTarget_eq hlo (isContainer_of_isLoopTarget hta)]) hi hd₂ hrp hd₃))
  | whileStatement ht hlp _ hrp _ iht ihb =>
    exact regrows_of_parts hlo fun F hF => .node (iht hts.2.2.1) hF fun hd₁ _ _ =>
      .node (ihb hts.2.2.2.2) hF fun hd₂ _ _ => .nil (.whileStatement ht hlp hd₁ hrp hd₂)
  | doWhileStatement ht _ hw hlp _ hrp hse ihb iht =>
    exact regrows_of_parts hlo fun F hF => .node (ihb hts.2.1) hF fun hd₁ _ _ =>
      .node (iht hts.2.2.2.2.1) hF fun hd₂ _ _ =>
      .nil (.doWhileStatement ht hd₁ hw hlp hd₂ hrp hse)
  | returnStatement hin ht ha hse ih =>
    exact regrows_of_parts hlo fun F hF => .node? ha (ih hts.2.1) hF fun hd₁ _ _ =>
      .nil (.returnStatement (hF.inFunction hin) ht hd₁ hse)
  | throwStatement ht _ hse ih =>
    exact regrows_of_parts hlo fun F hF => .node (ih hts.2.1) hF fun hd₁ _ _ =>
      .nil (.throwStatement ht hd₁ hse)
  | jump hki hse => exact regrows_leaf hlo (fun _ _ => .jump hki hse)
  | jumpTo hki hl hla hse =>
    obtain ⟨t, ht, hk, hr, rfl⟩ := hl.identifier_eq
    cases ht
    refine regrows_of_parts hlo (fun F hF qs hp => ?_) ?_
    · obtain ⟨h, r, qs', rfl, hh, hke, -, hre⟩ := hp.exists_node
      exact ⟨_, _, _, .jumpTo hki (.identifier hk hr) (hF.labels hla) hse, by simp [*], rfl,
        .node (hke.alike_of_leaf hlo hh rfl) hre.nil⟩
    · rcases hki with ⟨-, rfl⟩ | ⟨-, rfl⟩ <;> rfl
  | @labeledStatement _ l _ _ _ _ hl _ ht _ _ ihb =>
    obtain ⟨_, hto, hk, hres, rfl⟩ := hl.identifier_eq
    cases hto
    refine regrows_single fun F hF h r hh hke hfi => ?_
    obtain ⟨hki, hap, hp⟩ :=
      hke.exists_parts hlo hh (by rintro ⟨⟩) (hfi r mem_cons_self)
    obtain ⟨h₁, r₁, qs, hqs, hh₁, hke₁, -, hp⟩ := hp.exists_node
    have hki : r.kind = .labeledStatement := hki
    have hr₁ := hke₁.alike_of_leaf hlo hh₁ rfl
    have hla : r.label? = some l.text := by
      rw [Node.label?, if_pos hki, Node.child?, Node.get?, hqs, lookup_cons_self]
      exact hr₁.string?_eq (by decide)
    have hins : r.labelsUnder F.labels "body" = (F.push l.text).labels := by
      rw [Node.labelsUnder, if_pos rfl, if_neg (by simp [hki]), hla]
      rfl
    obtain ⟨h₂, r₂, qs₂, rfl, hh₂, hke₂, hr₂, hp⟩ := hp.exists_node
    obtain ⟨ts₂, body, hd₂, hT₂, ha₂⟩ :=
      (ihb hts.2.2).one rfl (hF.push l.text) hh₂ hke₂ (hins ▸ hr₂)
    refine readable_one (.labeledStatement (.identifier hk hres) (hap _ hla) ht hd₂)
      (by simp [*]) (alike_of_props hki rfl ?_)
    rw [hqs]
    exact .node hr₁ (.node ha₂ hp.nil)
  | withStatement ht hlp _ hrp _ iho ihb =>
    exact regrows_of_parts hlo fun F hF => .node (iho hts.2.2.1) hF fun hd₁ _ _ =>
      .node (ihb hts.2.2.2.2) hF fun hd₂ _ _ => .nil (.withStatement ht hlp hd₁ hrp hd₂)
  | handler ht hlp _ hrp _ ihp ihb =>
    exact regrows_of_parts hlo fun F hF => .node (ihp hts.2.2.1) hF fun hd₁ _ _ =>
      .node (ihb hts.2.2.2.2) hF fun hd₂ _ _ => .nil (.handler ht hlp hd₁ hrp hd₂)
  | finalizer ht _ ih => exact (ih hts.2).asOne id fun hd _ => ⟨_, .finalizer ht hd, by simp [*]⟩
  | tryStatement ht _ hh hf hne ihb ihh ihf =>
    exact regrows_of_parts hlo fun F hF => .node (ihb hts.2.1) hF
      fun hd₁ _ _ => .node? hh (ihh hts.2.2.1) hF fun hd₂ _ hh' =>
      .node? hf (ihf hts.2.2.2) hF fun hd₃ _ hf' =>
      .nil (.tryStatement ht hd₁ hd₂ hd₃ (by rwa [hh', hf']))
  | caseDefault ht hc _ ih =>
    exact regrows_of_parts hlo fun F hF => .data <| .nodes (ih hts.2.2) hF fun hd₁ _ _ =>
      .nil (.caseDefault ht hc hd₁)
  | caseTest ht _ hc _ iht ihs =>
    exact regrows_of_parts hlo fun F hF => .node (iht hts.2.1) hF fun hd₁ _ _ =>
      .nodes (ihs hts.2.2.2) hF fun hd₂ _ _ => .nil (.caseTest ht hd₁ hc hd₂)
  | switchStatement ht hlp _ hrp hlb _ hrb ihd ihc =>
    exact regrows_of_parts hlo fun F hF => .node (ihd hts.2.2.1) hF fun hd₁ _ _ =>
      .nodes (ihc hts.2.2.2.2.2.1) hF fun hd₂ _ _ =>
      .nil (.switchStatement ht hlp hd₁ hrp hlb hd₂ hrb)

end Derivations

section Programs

variable (hO : ∀ a, O a → ∃ ts n, Derives .top .statement ts [n] ∧ ts.Forall T ∧ a.Alike n)

include hO

theorem isAtomic_of_derives : ∀ a, O a → a.kind.isAtomic = false := by
  intro a ha
  obtain ⟨ts, n, hd, -, han⟩ := hO a ha
  rw [han.kind_eq]
  exact isAtomic_of_isStatement hd.isStatement

/-- A statement that has come in can be read where it stands. -/
theorem readable_of_size (N : Nat) : ∀ a r F, O a → Kept O marker a r → r.size < N →
    r.labelsApart F.labels = true → Readable T F .statement [r] := by
  induction N with
  | zero => exact fun _ _ _ _ _ hs => absurd hs (Nat.not_lt_zero _)
  | succ N ih =>
    intro a r F ha hk hs hap
    obtain ⟨ts, n, hd, hts, han⟩ := hO a ha
    exact regrows (isAtomic_of_derives hO) ih hd hts F (Frame.top_le F) [a] [r] (.cons han .nil)
      (.keep hk .nil) (forall_mem_singleton.2 ⟨hap, Nat.le_of_lt_succ hs⟩)

/-- A program that has grown is a program again, if its labels are
apart. -/
theorem Kept.exists_program (hke : Kept O marker h r) (hd : Derives .top .statements ts ns)
    (hts : ts.Forall T) (hh : h.Alike (Node.bare .program [("body", .nodes ns)]))
    (ha : r.labelsApart [] = true) :
    ∃ ts' ns', Derives .top .statements ts' ns' ∧ ts'.Forall T ∧
      r.Alike (Node.bare .program [("body", .nodes ns')]) := by
  have hlo := isAtomic_of_derives hO
  obtain ⟨hk, -, hp⟩ :=
    hke.exists_parts hlo hh nofun ⟨ha, Nat.le_refl r.size⟩
  have hk : r.kind = .program := hk
  rw [labelsUnder_of_kind (by rw [hk]; nofun) (by rw [hk]; nofun) (by rw [hk]; nofun)] at hp
  obtain ⟨hs, rs, qs, hqs, hhs, hrs, ha, hsi, hp⟩ := hp.exists_nodes
  obtain ⟨ts', ns', hd', hts', hns'⟩ := readable_body (readable_of_size hO r.size)
    (regrows hlo (readable_of_size hO r.size) hd hts) (.refl .top) hhs hrs ha hsi
  refine ⟨ts', ns', hd', hts', alike_of_props hk rfl ?_⟩
  rw [hqs]
  exact .nodes hns' hp.nil

end Programs

end Inclusion

end Inlay
