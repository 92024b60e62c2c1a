/-
Properties that code looks up.

A lookup that finds a child is a step to one of the node's children, and
says that the child is smaller than the node.
-/
import Inlay.Proofs.Tree.Kids
import Inlay.Script.Code

namespace Inlay.Node

variable {α : Type} {n c : Node} {cs : List Node} {key : String}

-- == children

/-- A child is a property that is a node. -/
theorem child?_eq_some_iff : n.child? key = some c ↔ n.props.lookup key = some (.node c) := by
  unfold child? get?
  split
  · next heq => rw [heq]; simp
  · next hne => exact ⟨nofun, fun h => absurd h (hne c)⟩

/-- Plain data is a property that is neither a node nor a list. -/
theorem data?_eq_some_iff {j : Json} : n.data? key = some j ↔ n.props.lookup key = some (.data j) := by
  unfold data? get?
  split
  · next heq => rw [heq]; simp
  · next hne => exact ⟨nofun, fun h => absurd h (hne j)⟩

/-- A child that is looked up is a step away. -/
theorem step?_of_child? (h : n.child? key = some c) : n.step? ⟨key, none⟩ = some c := by
  unfold child? at h
  unfold step?
  split at h
  · next hg =>
    rw [hg]
    exact h
  · cases h

/-- A child that is looked up is among the children. -/
theorem mem_kids_of_child? (h : n.child? key = some c) : (⟨key, none⟩, c) ∈ n.kids :=
  mem_kids_of_step? (step?_of_child? h)

/-- So are the items of a list that is looked up. -/
theorem mem_kids_of_children? (h : n.children? key = some cs) (hc : c ∈ cs) :
    ∃ i, (⟨key, some i⟩, c) ∈ n.kids := by
  obtain ⟨i, hi⟩ := List.getElem?_of_mem hc
  refine ⟨i, mem_kids_of_step? ?_⟩
  rw [step?, get?, children?_eq_some_iff.1 h]
  exact hi

-- == lookups

/-- A child that is needed is the one that is there. -/
theorem need_eq_ok_iff {c : { c : Node // c.size < n.size }} :
    n.need key = .ok c ↔ n.child? key = some c.1 := by
  unfold need
  split
  · next heq => simp [heq, Subtype.ext_iff]
  · next heq => simp [heq]

/-- So is a list that is needed. -/
theorem needList_eq_ok_iff {cs : { cs : List Node // sizeOfNodes cs < n.size }} :
    n.needList key = .ok cs ↔ n.children? key = some cs.1 := by
  unfold needList
  split
  · next heq => simp [heq, Subtype.ext_iff]
  · next heq => simp [heq]

/-- An optional child is the one that is there, if any. -/
theorem optional_eq_some_iff {c : { c : Node // c.size < n.size }} :
    n.optional key = some c ↔ n.child? key = some c.1 := by
  unfold optional
  split
  · next heq => simp [heq, Subtype.ext_iff]
  · next heq => simp [heq]

/-- Code goes on with a child that is there. -/
theorem need_bind (h : n.child? key = some c)
    (f : { c : Node // c.size < n.size } → Except GenerateError α) :
    (n.need key >>= f) = f ⟨c, size_lt_of_child? h⟩ := by
  have hn : n.need key = .ok ⟨c, size_lt_of_child? h⟩ := need_eq_ok_iff.2 h
  rw [hn]
  rfl

/-- Code goes on with a list that is there. -/
theorem needList_bind (h : n.children? key = some cs)
    (f : { cs : List Node // sizeOfNodes cs < n.size } → Except GenerateError α) :
    (n.needList key >>= f) = f ⟨cs, sizeOfNodes_lt_of_children? h⟩ := by
  have hn : n.needList key = .ok ⟨cs, sizeOfNodes_lt_of_children? h⟩ := needList_eq_ok_iff.2 h
  rw [hn]
  rfl

/-- A child that is missing is an error, which names the node's kind and the
key. -/
theorem need_eq_error (h : n.child? key = none) : n.need key = .error (.missing n.kind key) := by
  unfold need
  split
  · next heq =>
    rw [h] at heq
    cases heq
  · rfl

/-- So is a list that is missing. -/
theorem needList_eq_error (h : n.children? key = none) :
    n.needList key = .error (.missing n.kind key) := by
  unfold needList
  split
  · next heq =>
    rw [h] at heq
    cases heq
  · rfl

theorem optional_some (h : n.child? key = some c) :
    n.optional key = some ⟨c, size_lt_of_child? h⟩ :=
  optional_eq_some_iff.2 h

/-- A child that is not there is no error if it is optional. -/
theorem optional_none (h : n.child? key = none) : n.optional key = none := by
  cases ho : n.optional key with
  | none => rfl
  | some c =>
    rw [optional_eq_some_iff.1 ho] at h
    cases h

open Script in
/-- A literal with a finite number is written as the text of the number. -/
theorem code_number {number : Number} {d : Double} (hr : n.data? "regex" = none)
    (hv : n.data? "value" = some (.num number)) (hd : number.toDouble? = some d) :
    Code.literal n = .ok [.token (numberText d)] := by
  rw [Code.literal, hr, hv]
  dsimp only
  rw [hd]

end Inlay.Node
