/-
Tables of TOML while they are read.

A table is written by a header, comes with a header further down, or
comes with a dotted key, and each of these allows other additions: a
table gets one header only, and dotted keys go on in tables that dotted
keys made. Everything written as a value is closed.
-/
import Inlay.Json.Basic

namespace Inlay.Toml

/-- How a table came about. -/
inductive Origin where
  /-- It has a header, or it is the whole document. -/
  | header
  /-- It holds a table that has a header. -/
  | above
  /-- A dotted key goes through it. -/
  | dotted
  deriving DecidableEq, Repr

/-- What a key stands for, over the type of tables. -/
inductive Item (α : Type) where
  | value (j : Json)
  | table (t : α)
  /-- The tables of a header in double brackets, the last one first. -/
  | tables (ts : List α)

structure Table where
  origin : Origin
  entries : List (String × Item Table)

namespace Table

def empty (origin : Origin) : Table := ⟨origin, []⟩

/-- Sets a key that is not set yet. -/
def add? (t : Table) (key : String) (item : Item Table) : Option Table :=
  if Entries.contains key t.entries then none
  else some { t with entries := t.entries ++ [(key, item)] }

/-- Changes the table that a path leads to. A table that is not there is
made, as the dotted keys or the headers that they are for make it. -/
def within? (origin : Origin) (f : Table → Option Table) : List String → Table → Option Table
  | [], t => f t
  | key :: path, t =>
      match t.entries.lookup key with
      | none => do
          let inner ← within? origin f path (empty origin)
          t.add? key (.table inner)
      | some (.table inner) => do
          if origin = .dotted ∧ inner.origin = .header then none
          else
            let inner ← within? origin f path inner
            some { t with entries := Entries.insert key (.table inner) t.entries }
      | some (.tables (last :: before)) => do
          let last ← within? origin f path last
          some { t with entries := Entries.insert key (.tables (last :: before)) t.entries }
      | some _ => none

/-- Sets the value of a key, which may be dotted. -/
def setValue? (path : List String) (key : String) (value : Json) (t : Table) : Option Table :=
  within? .dotted
    (fun t =>
      -- a dotted key ends in a table of its own, a plain one never does
      if (t.origin == .dotted) == path.isEmpty then none else t.add? key (.value value))
    path t

/-- Opens the table of a header. -/
def openTable? (path : List String) (key : String) (t : Table) : Option Table :=
  within? .above
    (fun t =>
      match t.entries.lookup key with
      | none => t.add? key (.table (empty .header))
      | some (.table inner) =>
          if inner.origin = .above then
            let opened : Table := { inner with origin := .header }
            some { t with entries := Entries.insert key (.table opened) t.entries }
          else none
      | some _ => none)
    path t

/-- Opens one more table of a header in double brackets. -/
def openItem? (path : List String) (key : String) (t : Table) : Option Table :=
  within? .above
    (fun t =>
      match t.entries.lookup key with
      | none => t.add? key (.tables [empty .header])
      | some (.tables ts) =>
          let more := .tables (empty .header :: ts)
          some { t with entries := Entries.insert key more t.entries }
      | some _ => none)
    path t

-- == values

/-- Members in the order of their keys. -/
def sorted (members : List (String × Json)) : List (String × Json) :=
  members.mergeSort fun a b => a.1 ≤ b.1

mutual
/-- The table as an object. -/
def toJson : Table → Json
  | ⟨_, entries⟩ => .obj (sorted (membersOf entries))

def membersOf : List (String × Item Table) → List (String × Json)
  | [] => []
  | (key, .value j) :: rest => (key, j) :: membersOf rest
  | (key, .table t) :: rest => (key, t.toJson) :: membersOf rest
  | (key, .tables ts) :: rest => (key, .arr (itemsOf ts).reverse) :: membersOf rest

def itemsOf : List Table → List Json
  | [] => []
  | t :: rest => t.toJson :: itemsOf rest
end

end Table

end Inlay.Toml
