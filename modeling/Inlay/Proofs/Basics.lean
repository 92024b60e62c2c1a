/-
Facts about results, lists and entries that several parts of the theory
use.
-/
import Inlay.Entries
import Mathlib

namespace Inlay

variable {α β ε : Type} {f : α → Except ε β} {b : β} {a : α} {x : Except ε α}

-- == results

/-- A chain of two steps succeeds if both do. -/
theorem bind_ok_iff : x >>= f = .ok b ↔ ∃ a, x = .ok a ∧ f a = .ok b := by
  cases x with
  | error e => exact ⟨nofun, fun ⟨_, h, _⟩ => nomatch h⟩
  | ok a =>
    constructor
    · intro h
      exact ⟨a, rfl, h⟩
    · rintro ⟨a', ha, h⟩
      cases ha
      exact h

theorem bind_eq_ok (hx : x = .ok a) (hf : f a = .ok b) : x >>= f = .ok b :=
  bind_ok_iff.2 ⟨a, hx, hf⟩

/-- A result is changed only if there is one. -/
theorem map_eq_ok_iff {f : α → β} : f <$> x = .ok b ↔ ∃ a, x = .ok a ∧ f a = b := by
  cases x with
  | error e => exact ⟨nofun, fun ⟨_, h, _⟩ => nomatch h⟩
  | ok a =>
    constructor
    · intro h
      cases h
      exact ⟨a, rfl, rfl⟩
    · rintro ⟨a', ha, rfl⟩
      cases ha
      rfl

/-- Changing the error changes no result. -/
theorem mapError_eq_ok_iff {ε' : Type} {f : ε → ε'} : x.mapError f = .ok a ↔ x = .ok a := by
  cases x with
  | error e => exact ⟨nofun, nofun⟩
  | ok a' => exact ⟨fun h => by cases h; rfl, fun h => by cases h; rfl⟩

/-- What is known to succeed has a result. -/
theorem exists_of_toBool (h : x.toBool = true) : ∃ a, x = .ok a := by
  cases x with
  | error e => cases h
  | ok a => exact ⟨a, rfl⟩

/-- A result that is found is the result. -/
theorem eq_ok_of_toOption (h : x.toOption = some a) : x = .ok a := by
  cases x with
  | error e => cases h
  | ok b =>
    cases h
    rfl

-- == entries

/-- The value that was put in is found under its key, and all others as
before. -/
theorem Entries.lookup_insert (key : String) (value : α) (entries : List (String × α)) (k : String) :
    (insert key value entries).lookup k = if k = key then some value else entries.lookup k := by
  induction entries with
  | nil => grind [insert]
  | cons e rest ih => grind [insert]

end Inlay
