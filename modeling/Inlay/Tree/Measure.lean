/-
The number of nodes of a tree.

A child is smaller than its parent, and so are the children of one list
taken together. Functions that follow properties by name end because of
that.
-/
import Inlay.Tree.Basic

namespace Inlay.Node

mutual
/-- The number of nodes of the subtree. -/
def size : Node → Nat
  | ⟨_, props, _, _, _, _⟩ => 1 + sizeOfProps props

def sizeOfProps : List (String × Field Node) → Nat
  | [] => 0
  | (_, .node n) :: rest => n.size + sizeOfProps rest
  | (_, .nodes ns) :: rest => sizeOfNodes ns + sizeOfProps rest
  | (_, .data _) :: rest => sizeOfProps rest

def sizeOfNodes : List Node → Nat
  | [] => 0
  | n :: rest => n.size + sizeOfNodes rest
end

theorem one_le_size (n : Node) : 1 ≤ n.size := by
  cases n
  simp only [size]
  omega

theorem size_le_sizeOfNodes_cons (n : Node) (rest : List Node) :
    n.size ≤ sizeOfNodes (n :: rest) := by
  simp only [sizeOfNodes]
  omega

theorem sizeOfNodes_lt_sizeOfNodes_cons (n : Node) (rest : List Node) :
    sizeOfNodes rest < sizeOfNodes (n :: rest) := by
  have := n.one_le_size
  simp only [sizeOfNodes]
  omega

theorem sizeOfProps_le_of_lookup {key : String} {field : Field Node} :
    ∀ {props : List (String × Field Node)},
      props.lookup key = some field → sizeOfProps [(key, field)] ≤ sizeOfProps props
  | (k, f) :: rest, h => by
      rw [List.lookup_cons] at h
      split at h
      · cases h
        cases field <;> simp [sizeOfProps]
      · have := sizeOfProps_le_of_lookup h
        cases f <;> simp only [sizeOfProps] <;> omega

theorem size_lt_of_child? {n c : Node} {key : String} (h : n.child? key = some c) :
    c.size < n.size := by
  cases n with
  | mk kind props range loc leading trailing =>
    simp only [child?, get?] at h
    split at h
    · cases h
      rename_i h
      have := sizeOfProps_le_of_lookup h
      simp only [sizeOfProps, size] at this ⊢
      omega
    · cases h

theorem sizeOfNodes_lt_of_children? {n : Node} {cs : List Node} {key : String}
    (h : n.children? key = some cs) : sizeOfNodes cs < n.size := by
  cases n with
  | mk kind props range loc leading trailing =>
    simp only [children?, get?] at h
    split at h
    · cases h
      rename_i h
      have := sizeOfProps_le_of_lookup h
      simp only [sizeOfProps, size] at this ⊢
      omega
    · cases h

end Inlay.Node
