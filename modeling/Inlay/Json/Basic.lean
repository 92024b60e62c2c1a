/-
JSON values.

Numbers are whole numbers or doubles: a document that says `1` and one
that says `1.0` are written back as they were read. Members of an object
keep their order.
-/
import Inlay.Entries
import Inlay.Decimal.Double

namespace Inlay

/-- A number of a JSON document. Whole numbers are those of 64 bits,
signed or not. -/
inductive Number where
  | int (n : Int)
  | dbl (d : Double)
  deriving DecidableEq, Repr

/-- A JSON value. -/
inductive Json where
  | null
  | bool (b : Bool)
  | num (n : Number)
  | str (s : String)
  | arr (items : List Json)
  | obj (members : List (String × Json))
  deriving Inhabited

namespace Json

/-- The JSON number for a natural number. -/
def ofNat (n : Nat) : Json := .num (.int n)

/-- A string, or `null` without one. -/
def ofString? (s : Option String) : Json := s.elim .null .str

def isNull : Json → Bool
  | .null => true
  | _ => false

def isString : Json → Bool
  | .str _ => true
  | _ => false

def string? : Json → Option String
  | .str s => some s
  | _ => none

def bool? : Json → Option Bool
  | .bool b => some b
  | _ => none

/-- A whole number of at most 64 bits, as offsets and columns are. -/
def nat? : Json → Option Nat
  | .num (.int n) => if 0 ≤ n ∧ n < Nat.pow 2 64 then some n.toNat else none
  | _ => none

def items? : Json → Option (List Json)
  | .arr items => some items
  | _ => none

def members? : Json → Option (List (String × Json))
  | .obj members => some members
  | _ => none

/-- The value of a member, `none` for anything but an object that has
it. -/
def get? (j : Json) (key : String) : Option Json :=
  j.members?.bind (·.lookup key)

-- == repeated members

mutual
/-- The value with each object's repeated keys merged. -/
def mergeKeys : Json → Json
  | .arr items => .arr (mergeItems items)
  | .obj members => .obj (Entries.merge (mergeMembers members))
  | j => j

def mergeItems : List Json → List Json
  | [] => []
  | j :: rest => j.mergeKeys :: mergeItems rest

def mergeMembers : List (String × Json) → List (String × Json)
  | [] => []
  | (key, j) :: rest => (key, j.mergeKeys) :: mergeMembers rest
end

end Json

end Inlay
