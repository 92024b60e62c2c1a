/-
Labels inside labels.

No statement of a script has the label of a statement around it, where a
function starts anew. This is the one thing that depends on what a
statement stands in and is not only a matter of something being around it.
The labels around a node are known on the way down, so `labelsApart` is
given them, and every derivation has its labels apart
(`Derives.labelsApart`).
-/
import Inlay.Proofs.Script.Seats
import Inlay.Proofs.Tree.Stripped

namespace Inlay

open List

/-- The kinds of nodes that have the same labels inside as outside, and
nothing that depends on how they were written down. -/
def Kind.isTransparent : Kind → Bool
  | literal | labeledStatement | functionDeclaration | functionExpression => false
  | _ => true

theorem Kind.ne_of_isTransparent {kind : Kind} (h : kind.isTransparent = true) :
    kind ≠ .literal ∧ kind ≠ .labeledStatement ∧ kind ≠ .functionDeclaration ∧
      kind ≠ .functionExpression := by
  refine ⟨?_, ?_, ?_, ?_⟩ <;> (rintro rfl; cases h)

namespace Node

variable {ns : List Node} {key : String} {m : Node}

theorem size_lt_of_mem_props {n : Node} {e : String × Field Node} (he : e ∈ n.props)
    (hm : m ∈ e.2.children) : m.size < n.size := by
  have hki : m ∈ n.kids.map (·.2) := by
    rw [map_snd_kids]
    exact mem_flatMap.2 ⟨e, he, hm⟩
  obtain ⟨k, hk, rfl⟩ := mem_map.1 hki
  exact size_lt_of_mem_kids hk

-- == labels

/-- The label of a statement. -/
def label? (n : Node) : Option String :=
  if n.kind = .labeledStatement then (n.child? "label").bind (·.string? "name") else none

/-- The labels around what a node has under a key. -/
def labelsUnder (labels : List String) (n : Node) (key : String) : List String :=
  if key = "body" then
    if n.kind = .functionDeclaration ∨ n.kind = .functionExpression then []
    else labels ++ n.label?.toList
  else labels

mutual
/-- Whether no statement of the tree has the label of one around it; the
labels around the tree are given. -/
def labelsApart (labels : List String) : Node → Bool
  | ⟨kind, props, range, loc, leading, trailing⟩ =>
      let n : Node := ⟨kind, props, range, loc, leading, trailing⟩
      n.label?.all (!labels.contains ·) && labelsApartProps (n.labelsUnder labels) props

def labelsApartProps (labels : String → List String) : List (String × Field Node) → Bool
  | [] => true
  | (key, .node n) :: rest => n.labelsApart (labels key) && labelsApartProps labels rest
  | (key, .nodes ns) :: rest => labelsApartNodes (labels key) ns && labelsApartProps labels rest
  | (_, .data _) :: rest => labelsApartProps labels rest

def labelsApartNodes (labels : List String) : List Node → Bool
  | [] => true
  | n :: rest => n.labelsApart labels && labelsApartNodes labels rest
end

variable {labels : List String} {n : Node}

theorem labelsApartNodes_iff :
    labelsApartNodes labels ns = true ↔ ∀ n ∈ ns, n.labelsApart labels = true := by
  induction ns with
  | nil => simp [labelsApartNodes]
  | cons n rest ih => simp [labelsApartNodes, ih]

theorem labelsApartProps_iff {labels : String → List String} {props : Node.Props} :
    labelsApartProps labels props = true ↔
      ∀ e ∈ props, ∀ m ∈ e.2.children, m.labelsApart (labels e.1) = true := by
  induction props with
  | nil => simp [labelsApartProps]
  | cons e rest ih =>
    obtain ⟨key, field⟩ := e
    cases field with
    | node n => simp [labelsApartProps, ih]
    | nodes ns => simp [labelsApartProps, labelsApartNodes_iff, ih]
    | data j => simp [labelsApartProps, ih, Field.children]

/-- A list of at most one node, as a child that may be missing. -/
theorem labelsApartProps_head? {labels : String → List String} {rest : Node.Props}
    (h : ∀ n ∈ ns, n.labelsApart (labels key) = true) :
    labelsApartProps labels ((key, .ofNode? ns.head?) :: rest) = labelsApartProps labels rest := by
  cases ns with
  | nil => rfl
  | cons n ns =>
    rw [head?_cons, Field.ofNode?, labelsApartProps, h n mem_cons_self, Bool.true_and]

/-- The labels of a tree, from the root down. -/
theorem labelsApart_eq (labels : List String) (n : Node) : n.labelsApart labels =
    (n.label?.all (!labels.contains ·) && labelsApartProps (n.labelsUnder labels) n.props) := by
  cases n
  rw [labelsApart]

theorem labelsApart_iff : n.labelsApart labels = true ↔ (∀ l ∈ n.label?, l ∉ labels) ∧
    ∀ e ∈ n.props, ∀ m ∈ e.2.children, m.labelsApart (n.labelsUnder labels e.1) = true := by
  rw [labelsApart_eq, Bool.and_eq_true, labelsApartProps_iff]
  simp only [Option.all_eq_true, Bool.not_eq_true', contains_eq_mem, decide_eq_false_iff_not]
  rfl

theorem labelsUnder_of_kind (hla : n.kind ≠ .labeledStatement) (hd : n.kind ≠ .functionDeclaration)
    (he : n.kind ≠ .functionExpression) : n.labelsUnder labels = fun _ => labels := by
  funext key
  have hl : n.label? = none := if_neg hla
  rw [labelsUnder, hl, if_neg (not_or.2 ⟨hd, he⟩)]
  simp

-- == alike trees

theorem get?_stripped (hk : key ≠ "raw") :
    n.stripped.get? key = (n.get? key).map strippedField := by
  rw [get?, props_stripped, lookup_strippedProps fun _ => hk]
  rfl

theorem label?_stripped (n : Node) : n.stripped.label? = n.label? := by
  have hn : ∀ c : Node, c.stripped.string? "name" = c.string? "name" := by
    intro c
    rw [string?, string?, data?_eq_stripped c, ← get?_stripped (by decide)]
    rfl
  rw [label?, label?, kind_stripped, child?, child?, get?_stripped (by decide)]
  rcases n.get? "label" with _ | (c | _ | _)
  · rfl
  · simp [strippedField, hn]
  · rfl
  · rfl

mutual
theorem labelsApart_stripped (labels : List String) (n : Node) :
    n.stripped.labelsApart labels = n.labelsApart labels := by
  obtain ⟨kind, props, range, loc, leading, trailing⟩ := n
  have hl := label?_stripped ⟨kind, props, range, loc, leading, trailing⟩
  have hu : labelsUnder labels (stripped ⟨kind, props, range, loc, leading, trailing⟩) =
      labelsUnder labels ⟨kind, props, range, loc, leading, trailing⟩ := by
    funext key
    rw [labelsUnder, labelsUnder, hl, kind_stripped]
  rw [stripped] at hl hu ⊢
  rw [labelsApart, labelsApart, hl, hu, labelsApartProps_stripped]

theorem labelsApartProps_stripped (labels : String → List String) (literal : Bool)
    (props : Node.Props) :
    labelsApartProps labels (strippedProps literal props) = labelsApartProps labels props := by
  match props with
  | [] => rfl
  | (key, .node n) :: rest =>
    rw [strippedProps, labelsApartProps, labelsApartProps, labelsApart_stripped _ n,
      labelsApartProps_stripped labels literal rest]
  | (key, .nodes ns) :: rest =>
    rw [strippedProps, labelsApartProps, labelsApartProps, labelsApartNodes_stripped _ ns,
      labelsApartProps_stripped labels literal rest]
  | (key, .data j) :: rest =>
    rw [strippedProps]
    split
    · exact labelsApartProps_stripped labels literal rest
    · exact labelsApartProps_stripped labels literal rest

theorem labelsApartNodes_stripped (labels : List String) (ns : List Node) :
    labelsApartNodes labels (strippedNodes ns) = labelsApartNodes labels ns := by
  match ns with
  | [] => rfl
  | n :: rest =>
    rw [strippedNodes, labelsApartNodes, labelsApartNodes, labelsApart_stripped labels n,
      labelsApartNodes_stripped labels rest]
end

theorem Alike.labelsApart_eq (h : m.Alike n) (labels : List String) :
    m.labelsApart labels = n.labelsApart labels := by
  rw [← labelsApart_stripped labels m, h, labelsApart_stripped]

end Node

namespace Script

variable {ns : List Node} {s : Symbol} {F : Frame}

-- == derivations

/-- What holds of the nodes that are read as a symbol, each with the
labels around it. -/
def Symbol.Each : Symbol → Frame → (List String → Node → Prop) → List Node → Prop
  | .callable, F, P, ns => (∀ n ∈ ns.head?, P [] n) ∧ ∀ n ∈ ns.tail, P F.labels n
  | .maybe s, F, P, ns => s.Each F P ns
  | _, F, P, ns => ∀ n ∈ ns, P F.labels n

theorem Symbol.each_nil (s : Symbol) (F : Frame) (P : List String → Node → Prop) :
    s.Each F P [] := by
  induction s with
  | maybe s ih => exact ih
  | _ => simp [Each]

/-- The symbols whose nodes all stand in the frame of the symbol. -/
def Symbol.isSimple : Symbol → Bool
  | .callable => false
  | .maybe s => s.isSimple
  | _ => true

theorem Symbol.each_iff {P : List String → Node → Prop} (hs : s.isSimple = true) :
    s.Each F P ns ↔ ∀ n ∈ ns, P F.labels n := by
  induction s with
  | callable => cases hs
  | maybe s ih => exact ih hs
  | _ => rfl

variable {labels : List String} {kind : Kind} {props : Node.Props} {ts : List Token}

/-- Most nodes leave the labels as they are. -/
theorem labelsApart_spanned (hl : kind ≠ .labeledStatement)
    (hd : kind ≠ .functionDeclaration) (he : kind ≠ .functionExpression) :
    (spanned kind props ts).labelsApart labels = Node.labelsApartProps (fun _ => labels) props := by
  have hla : (spanned kind props ts).label? = none := if_neg hl
  have hu : (spanned kind props ts).labelsUnder labels = fun _ => labels :=
    Node.labelsUnder_of_kind hl hd he
  rw [Node.labelsApart_eq, hu, hla]
  rfl

theorem labelsApart_function {id params : List Node} {body : Node}
    (hk : kind = .functionExpression ∨ kind = .functionDeclaration)
    (hid : ∀ n ∈ id, n.labelsApart labels = true)
    (hc : Symbol.Each .callable ⟨false, labels⟩
      (fun labels n => n.labelsApart labels = true) (body :: params)) :
    (spanned kind (functionProps id params body) ts).labelsApart labels = true := by
  obtain ⟨hb, hp⟩ := hc
  have hu : (spanned kind (functionProps id params body) ts).labelsUnder labels =
      fun key => if key = "body" then [] else labels := by
    rcases hk with rfl | rfl <;> rfl
  have hl : (spanned kind (functionProps id params body) ts).label? = none := by
    rcases hk with rfl | rfl <;> rfl
  rw [Node.labelsApart_eq, hu, hl, Option.all_none, Bool.true_and]
  show Node.labelsApartProps _ (functionProps id params body) = true
  rw [functionProps, Node.labelsApartProps_head? (by simpa using hid)]
  simpa [Node.labelsApartProps, Node.labelsApartNodes_iff] using ⟨hp, hb body rfl⟩

theorem Derives.identifier_eq {n : Node} (h : Derives F .identifier ts [n]) :
    ∃ t, ts = [t] ∧ t.kind = .word ∧ isReserved t.text = false ∧
      n = spanned .identifier [("name", .ofString t.text)] [t] := by
  cases h with
  | identifier hk hr => exact ⟨_, rfl, hk, hr, rfl⟩

attribute [local simp] Symbol.Each labelsApart_spanned Node.labelsApartProps
  Node.labelsApartNodes_iff Field.ofString Field.ofBool

/-- Whatever is derived has its labels apart. -/
theorem Derives.labelsApart (h : Derives F s ts ns) :
    s.Each F (fun labels n => n.labelsApart labels = true) ns := by
  -- most parts of a node are single
  have one : ∀ {P : Node → Prop} {n : Node}, (∀ x ∈ [n], P x) → P n :=
    fun h => h _ (mem_singleton_self _)
  induction h with
  | none => exact Symbol.each_nil ..
  | some _ ih => exact ih
  | elementsHole _ _ ih => exact forall_mem_cons.2 ⟨rfl, ih⟩
  | callable _ _ _ _ ihp ihb => exact ⟨fun n hn => ihb n (by simpa using hn.symm), ihp⟩
  | function _ _ hk _ ihi ihc =>
    exact forall_mem_singleton.2 (labelsApart_function (hk.imp_right And.left) ihi ihc)
  | @propertyAccessor F _ _ cs _ body params _ _ _ _ ihk ihc =>
    have hv : (spanned .functionExpression (functionProps [] params body) cs).labelsApart
        F.labels = true := labelsApart_function (.inl rfl) (forall_mem_nil _) ihc
    simp_all
  | dot _ _ _ _ iho ihp | index _ _ _ _ _ iho ihp =>
    refine forall_mem_singleton.2
      ((Node.Alike.labelsApart_eq (n := spanned .memberExpression _ []) rfl _).trans ?_)
    simp_all
  | @binary F _ t _ _ _ _ _ _ _ ihl ihr =>
    rcases binaryKind_cases t.text with hk | hk <;> simp_all
  | declarationStatement _ _ ih =>
    refine forall_mem_singleton.2 ((Node.Alike.labelsApart_eq ?_ _).trans (one ih))
    exact Node.alike_of_props rfl rfl rfl
  | jump hk | jumpTo hk =>
    rcases hk with ⟨-, rfl⟩ | ⟨-, rfl⟩ <;> simp_all [Field.ofNode?]
  | labeledStatement hl hla _ _ ihl ihb =>
    obtain ⟨t, ht, -, -, rfl⟩ := hl.identifier_eq
    cases ht
    refine forall_mem_singleton.2 (Node.labelsApart_iff.2 ⟨?_, ?_⟩)
    · intro l hl
      cases hl
      exact hla
    · rw [← Node.labelsApartProps_iff]
      exact Bool.and_eq_true_iff.2 ⟨one ihl, Bool.and_eq_true_iff.2 ⟨one ihb, rfl⟩⟩
  | caseDefault | caseTest =>
    simp_all [Field.ofNode?]
  | _ =>
    simp_all [Node.labelsApartProps_head?, literalProps, regexProps]

end Script

end Inlay
