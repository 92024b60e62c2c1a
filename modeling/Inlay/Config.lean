/-
Configuration files.

A configuration is a TOML document with nothing in it but the settings
below. Settings that are not there leave the options as they are.
-/
import Inlay.Compiler
import Inlay.Toml.Reader

namespace Inlay

structure Config where
  /-- The word that directives start with. -/
  marker : Option String
  /-- The tech for files whose suffixes have none; the empty name asks
  for no such tech. -/
  defaultTech : Option String
  indented : Option Bool
  transforms : Option (List String)
  /-- Suffixes that stand for the names of techs. -/
  techs : List (String × String)
  /-- Settings that are handed on as they are. -/
  shared : List (String × Json)

namespace Config

/-- Where a configuration is looked for, relative to the working
directory. -/
def candidates : List String := ["weld.toml", ".weld.toml", ".config/weld.toml"]

/-- A setting, `none` if it is there but not of its form. -/
def setting? {α : Type} (key : String) (read : Json → Option α)
    (members : List (String × Json)) : Option (Option α) :=
  match members.lookup key with
  | none => some none
  | some j => (read j).map some

def strings? (j : Json) : Option (List String) := do
  (← j.items?).mapM Json.string?

/-- An object all of whose members are strings. -/
def stringMembers? (j : Json) : Option (List (String × String)) := do
  (← j.members?).mapM fun (key, value) => value.string?.map (key, ·)

def keys : List String :=
  ["marker", "default_tech", "pretty_print", "transforms", "techs", "shared"]

/-- The configuration of a table. -/
def ofMembers? (members : List (String × Json)) : Option Config := do
  if members.all (fun member => keys.contains member.1) then
    let marker ← setting? "marker" Json.string? members
    let defaultTech ← setting? "default_tech" Json.string? members
    let indented ← setting? "pretty_print" Json.bool? members
    let transforms ← setting? "transforms" strings? members
    let techs ← setting? "techs" stringMembers? members
    let shared ← setting? "shared" Json.members? members
    return { marker, defaultTech, indented, transforms
             techs := techs.getD [], shared := shared.getD [] }
  else none

/-- The configuration of a text. -/
def parse (text : String) : Except Error Config :=
  match (Toml.read? text).bind Json.members? |>.bind ofMembers? with
  | some c => .ok c
  | none => .error .config

/-- The options with the configured values in them. -/
def apply (c : Config) (o : Options) : Options :=
  { o with
    marker := c.marker.getD o.marker
    defaultTech :=
      match c.defaultTech with
      | some name => if name.isEmpty then none else some name
      | none => o.defaultTech
    indented := c.indented.getD o.indented
    transforms := c.transforms.getD o.transforms }

/-- The registry with the configured suffixes, up to the first one whose
tech is not there. -/
def register (c : Config) (r : Registry) : Registry × Option Error :=
  go c.techs r
where
  go : List (String × String) → Registry → Registry × Option Error
    | [], r => (r, none)
    | (suffix, target) :: rest, r =>
        match r.addAlias suffix target with
        | .ok r => go rest r
        | .error e => (r, some e)

end Config

end Inlay
