/-
Lists of named entries in insertion order.

The order in which entries were first added shows in everything that is
written, so records with open-ended keys are plain lists of pairs.
`insert` keeps the place of a key that is there already and replaces its
value; `List.lookup` reads.
-/

namespace Inlay.Entries

variable {α : Type}

/-- Sets `key` to `value`: in place if the key is there, else at the
end. -/
def insert (key : String) (value : α) : List (String × α) → List (String × α)
  | [] => [(key, value)]
  | (k, v) :: rest =>
      if k == key then (k, value) :: rest else (k, v) :: insert key value rest

/-- Applies `f` to the value of `key`, if there is one. -/
def modify (key : String) (f : α → α) : List (String × α) → List (String × α)
  | [] => []
  | (k, v) :: rest =>
      if k == key then (k, f v) :: rest else (k, v) :: modify key f rest

/-- The entries without `key`. -/
def erase (key : String) (entries : List (String × α)) : List (String × α) :=
  entries.filter (·.1 != key)

/-- Whether `key` has an entry. -/
def contains (key : String) (entries : List (String × α)) : Bool :=
  (entries.lookup key).isSome

/-- One entry for each key: the place of its first occurrence, the value
of its last. -/
def merge (entries : List (String × α)) : List (String × α) :=
  entries.foldl (fun merged entry => insert entry.1 entry.2 merged) []

end Inlay.Entries
