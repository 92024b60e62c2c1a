/-
Differences of texts, line by line.

`edits` finds a shortest way from one list of lines to another: the
search runs from both ends at once, splits the lists where the two ways
meet, and goes on in the halves. `settle` then moves what was added as
far down as it can go, and joins what meets on the way. In the result,
`changes`, what is dropped between two kept lines stands before what is
added.
-/

namespace Inlay.Text.Diff

/-- The lines of a text with their terminators: `\n`, `\r\n` or `\r`. -/
def lines (text : List Char) : List (List Char) :=
  go [] text
where
  /-- The lines from a line on that has begun already, backwards. -/
  go (line : List Char) : List Char → List (List Char)
    | [] => if line.isEmpty then [] else [line.reverse]
    | '\r' :: '\n' :: rest => ('\n' :: '\r' :: line).reverse :: go [] rest
    | c :: rest =>
        if c = '\n' ∨ c = '\r' then (c :: line).reverse :: go [] rest
        else go (c :: line) rest

/-- A run of lines that are kept, dropped or added. -/
inductive Edit (α : Type) where
  | keep (ls : List α)
  | drop (ls : List α)
  | add (ls : List α)
  deriving DecidableEq, Repr

variable {α : Type} [DecidableEq α]

/-- How many items two lists have in common at their start. -/
def prefixLength : List α → List α → Nat
  | a :: as, b :: bs => if a = b then 1 + prefixLength as bs else 0
  | _, _ => 0

/-- How many items two lists have in common at their end. -/
def suffixLength (as bs : List α) : Nat := prefixLength as.reverse bs.reverse

-- == search

/-- How far a search has come on each diagonal, in items of the old
list. -/
structure Reach where
  offset : Nat
  cells : Array Nat

namespace Reach

def start (size : Nat) : Reach := ⟨size + 1, Array.replicate (2 * size + 3) 0⟩

def get (r : Reach) (diagonal : Int) : Nat := r.cells.getD (diagonal + r.offset).toNat 0

def set (r : Reach) (diagonal : Int) (x : Nat) : Reach :=
  { r with cells := r.cells.setIfInBounds (diagonal + r.offset).toNat x }

/-- Where the search with `d` edits enters a diagonal. -/
def entry (r : Reach) (d diagonal : Int) : Nat :=
  if diagonal = -d ∨ (diagonal ≠ d ∧ r.get (diagonal - 1) < r.get (diagonal + 1)) then
    r.get (diagonal + 1)
  else r.get (diagonal - 1) + 1

end Reach

/-- How many items two arrays have in common from two positions on. -/
def runLength (as bs : Array α) (x y : Nat) : Nat :=
  go (as.size - x) x y
where
  go : Nat → Nat → Nat → Nat
    | 0, _, _ => 0
    | fuel + 1, x, y =>
        match as[x]?, bs[y]? with
        | some a, some b => if a = b then 1 + go fuel (x + 1) (y + 1) else 0
        | _, _ => 0

/-- The diagonals that `d` edits lead to, the greatest first. -/
def diagonals (d : Nat) : List Int :=
  (List.range (d + 1)).map fun (i : Nat) => (d : Int) - 2 * (i : Int)

/-- One round of a search: extends it by an edit on each diagonal. It ends
early with the start and the end of the run on which it meets the search
from the other end. -/
def sweep (as bs : Array α) (d : Nat) (meets : Int → Nat → Bool) :
    List Int → Reach → Reach ⊕ (Nat × Nat) × (Nat × Nat)
  | [], r => .inl r
  | k :: ks, r =>
      let x := r.entry d k
      let y := ((x : Int) - k).toNat
      let length := runLength as bs x y
      if meets k (x + length) then .inr ((x, y), (x + length, y + length))
      else sweep as bs d meets ks (r.set k (x + length))

/-- A point where a shortest way can be split. -/
def middle? (old new : Array α) : Option (Nat × Nat) :=
  let n := old.size
  let m := new.size
  let delta : Int := (n : Int) - m
  let odd := delta % 2 ≠ 0
  let limit := (n + m + 1) / 2 + 1
  let oldBack := old.reverse
  let newBack := new.reverse
  go n m delta odd oldBack newBack limit 0 (Reach.start limit) (Reach.start limit)
where
  go (n m : Nat) (delta : Int) (odd : Bool) (oldBack newBack : Array α) :
      Nat → Nat → Reach → Reach → Option (Nat × Nat)
    | 0, _, _, _ => none
    | fuel + 1, d, ahead, back =>
        let meetsBack (k : Int) (x : Nat) : Bool :=
          odd && (k - delta).natAbs + 1 ≤ d && n ≤ x + back.get (delta - k)
        match sweep old new d meetsBack (diagonals d) ahead with
        | .inr (start, _) => some start
        | .inl ahead =>
            let meetsAhead (k : Int) (x : Nat) : Bool :=
              !odd && (k - delta).natAbs ≤ d && n ≤ x + ahead.get (delta - k)
            match sweep oldBack newBack d meetsAhead (diagonals d) back with
            | .inr (_, stop) => some (n - stop.1, m - stop.2)
            | .inl back => go n m delta odd oldBack newBack fuel (d + 1) ahead back

/-- A run, unless it is empty. -/
def nonempty (f : List α → Edit α) (ls : List α) : List (Edit α) :=
  if ls.isEmpty then [] else [f ls]

/-- A shortest way from a list to another one. -/
def edits : Nat → List α → List α → List (Edit α)
  | 0, old, new => nonempty .drop old ++ nonempty .add new
  | fuel + 1, old, new =>
      let front := prefixLength old new
      let kept := old.take front
      let old := old.drop front
      let new := new.drop front
      let back := suffixLength old new
      let tail := old.drop (old.length - back)
      let old := old.take (old.length - back)
      let new := new.take (new.length - back)
      let inner :=
        if old.isEmpty ∨ new.isEmpty then nonempty .drop old ++ nonempty .add new
        else
          match middle? old.toArray new.toArray with
          | some (x, y) =>
              edits fuel (old.take x) (new.take y) ++ edits fuel (old.drop x) (new.drop y)
          | none => [.drop old, .add new]
      nonempty .keep kept ++ inner ++ nonempty .keep tail

-- == settling

/-- Kept lines in front of a list of edits. -/
def consKeep (ls : List α) : List (Edit α) → List (Edit α)
  | .keep more :: rest => .keep (ls ++ more) :: rest
  | rest => .keep ls :: rest

/-- Kept lines behind a list of edits, which is given backwards. -/
def snocKeep (ls : List α) : List (Edit α) → List (Edit α)
  | .keep more :: rest => .keep (more ++ ls) :: rest
  | rest => .keep ls :: rest

/-- An edit between those before it, backwards, and those behind it. -/
structure Spot (α : Type) where
  before : List (Edit α)
  this : Edit α
  behind : List (Edit α)

/-- Moves an edit up as far as it goes. -/
def up : Nat → Spot α → Spot α
  | 0, s => s
  | fuel + 1, s =>
      match s.this, s.before with
      | .add xs, .keep ys :: before =>
          let n := suffixLength ys xs
          if n = 0 then s
          else
            let moved := ys.drop (ys.length - n)
            up fuel
              { before := nonempty .keep (ys.take (ys.length - n)) ++ before
                this := .add (moved ++ xs.take (xs.length - n))
                behind := consKeep moved s.behind }
      | .add xs, .add ys :: before => up fuel { s with before, this := .add (ys ++ xs) }
      | .drop xs, .drop ys :: before => up fuel { s with before, this := .drop (ys ++ xs) }
      | .add _, .drop ys :: before => up fuel { s with before, behind := .drop ys :: s.behind }
      | .drop _, .add ys :: before => up fuel { s with before, behind := .add ys :: s.behind }
      | _, _ => s

/-- Moves an edit down as far as it goes. -/
def down : Nat → Spot α → Spot α
  | 0, s => s
  | fuel + 1, s =>
      match s.this, s.behind with
      | .add xs, .keep ys :: behind =>
          let n := prefixLength ys xs
          if n = 0 then s
          else
            let moved := ys.take n
            down fuel
              { before := snocKeep moved s.before
                this := .add (xs.drop n ++ moved)
                behind := nonempty .keep (ys.drop n) ++ behind }
      | .add xs, .add ys :: behind => down fuel { s with behind, this := .add (xs ++ ys) }
      | .drop xs, .drop ys :: behind => down fuel { s with behind, this := .drop (xs ++ ys) }
      | .add _, .drop ys :: behind => down fuel { s with behind, before := .drop ys :: s.before }
      | .drop _, .add ys :: behind => down fuel { s with behind, before := .add ys :: s.before }
      | _, _ => s

/-- Moves the edits that `chosen` names, one after another; `before` are
those that are done, backwards. -/
def settleEach (chosen : Edit α → Bool) (reach : Nat) :
    Nat → List (Edit α) → List (Edit α) → List (Edit α)
  | 0, before, behind => before.reverse ++ behind
  | _, before, [] => before.reverse
  | fuel + 1, before, e :: behind =>
      if chosen e then
        let s := down reach (up reach ⟨before, e, behind⟩)
        settleEach chosen reach fuel (s.this :: s.before) s.behind
      else settleEach chosen reach fuel (e :: before) behind

/-- Moves first what is dropped, then what is added. -/
def settle (size : Nat) (es : List (Edit α)) : List (Edit α) :=
  let isDrop : Edit α → Bool
    | .drop _ => true
    | _ => false
  let isAdd : Edit α → Bool
    | .add _ => true
    | _ => false
  let fuel := 2 * size + es.length
  let es := settleEach isDrop fuel fuel [] es
  settleEach isAdd fuel fuel [] es

-- == changes

inductive Tag where
  | same
  | removed
  | inserted
  deriving DecidableEq, Repr

/-- The lines one by one. `removed` and `inserted` are those since the
last kept line. -/
def inOrder (removed inserted : List α) : List (Edit α) → List (Tag × α)
  | [] => flush
  | .keep ls :: rest => flush ++ ls.map (.same, ·) ++ inOrder [] [] rest
  | .drop ls :: rest => inOrder (removed ++ ls) inserted rest
  | .add ls :: rest => inOrder removed (inserted ++ ls) rest
where
  flush : List (Tag × α) := removed.map (.removed, ·) ++ inserted.map (.inserted, ·)

/-- The lines of two texts, those they share marked as the same. -/
def changes (old new : List Char) : List (Tag × List Char) :=
  let old := lines old
  let new := lines new
  let size := old.length + new.length
  inOrder [] [] (settle size (edits (size + 1) old new))

end Inlay.Text.Diff
