/-
Which tech a file gets.

No call takes a tech away, so what an alias stands for stays registered
(`Sound`), and a name is known exactly if it is registered or an alias. The
suffixes of a name are tried in the order of their lengths, so the first
that is known is the longest.
-/
import Inlay.Proofs.Basics
import Inlay.Tech

namespace Inlay.Registry

open List

variable {r r' : Registry} {s suffix target : String}

-- == calls

/-- A call that may change a registry. -/
inductive Call where
  | register (name : String) (tech : Tech)
  | addAlias (suffix target : String)

/-- The registry behind a call. A call that is refused changes nothing. -/
def call (r : Registry) : Call → Registry
  | .register name tech => r.register name tech
  | .addAlias suffix target => (r.addAlias suffix target).toOption.getD r

/-- The registry behind calls, one after another. -/
def calls (r : Registry) (cs : List Call) : Registry := cs.foldl call r

/-- What the aliases stand for is registered. -/
def Sound (r : Registry) : Prop :=
  ∀ s t, r.aliases.lookup s = some t → (r.techs.lookup t).isSome = true

/-- No call makes a registry unsound or takes an alias away. -/
theorem Sound.call (h : r.Sound) (c : Call) : (r.call c).Sound ∧
    ∀ s, (r.aliases.lookup s).isSome = true → ((r.call c).aliases.lookup s).isSome = true := by
  cases c with
  | register name tech => grind [Sound, Registry.call, register, Entries.lookup_insert]
  | addAlias suffix target =>
    rw [Registry.call]
    cases hr : r.addAlias suffix target with
    | error e => exact ⟨h, fun _ hs => hs⟩
    | ok r' =>
      -- an alias that is taken stands for a tech that is registered
      dsimp only [Except.toOption, Option.getD_some]
      grind [Sound, addAlias, Entries.contains, Entries.lookup_insert]

theorem Sound.calls (h : r.Sound) (cs : List Call) : (r.calls cs).Sound ∧
    ∀ s, (r.aliases.lookup s).isSome = true → ((r.calls cs).aliases.lookup s).isSome = true := by
  induction cs generalizing r with
  | nil => exact ⟨h, fun _ hs => hs⟩
  | cons c cs ih =>
    obtain ⟨hc, hk⟩ := h.call c
    exact ⟨(ih hc).1, fun s hs => (ih hc).2 s (hk s hs)⟩

/-- The name is registered, or it is an alias. -/
def Known (r : Registry) (name : String) : Prop :=
  (r.techs.lookup name).isSome = true ∨ (r.aliases.lookup name).isSome = true

theorem Sound.isSome_get?_iff (h : r.Sound) : (r.get? s).isSome = true ↔ r.Known s := by
  rw [get?, Known]
  cases hl : r.aliases.lookup s with
  | none => simp
  | some target => simpa using h s target hl

-- == suffixes

/-- The text stands behind a dot of the name. -/
def IsSuffix (s : String) (name : List Char) : Prop := ∃ x, name = x ++ '.' :: s.toList

theorem mem_suffixes {name : List Char} : s.toList ∈ suffixes name ↔ IsSuffix s name := by
  rw [IsSuffix]
  fun_induction suffixes name with
  | case1 => simp
  | case2 rest ih =>
    simp only [mem_cons, ih, cons_eq_append_iff]
    grind
  | case3 c rest hc ih =>
    simp only [ih, cons_eq_append_iff]
    grind

theorem pairwise_suffixes (name : List Char) :
    (suffixes name).Pairwise fun s s' => s'.length < s.length := by
  fun_induction suffixes name with
  | case1 => exact .nil
  | case2 rest ih =>
    refine .cons (fun s hs => ?_) ih
    rw [← String.toList_ofList (l := s), mem_suffixes] at hs
    obtain ⟨x, rfl⟩ := hs
    simp only [length_append, length_cons, String.toList_ofList]
    omega
  | case3 c rest hc ih => exact ih

/-- Of texts that get shorter, the first is the longest. -/
theorem find?_eq_some_iff_longest {p : String → Bool} {l : List String}
    (hl : l.Pairwise fun s s' => s'.length < s.length) :
    l.find? p = some s ↔ s ∈ l ∧ p s = true ∧ ∀ s' ∈ l, p s' = true → s'.length ≤ s.length := by
  induction hl with
  | nil => simp
  | @cons a l ha _ ih =>
    cases hp : p a with
    | true =>
      rw [find?_cons_of_pos hp]
      grind
    | false =>
      rw [find?_cons_of_neg (by simp [hp]), ih]
      grind

/-- The longest known text behind a dot of a name. -/
def IsLongest (r : Registry) (name : List Char) (s : String) : Prop :=
  IsSuffix s name ∧ r.Known s ∧ ∀ s', IsSuffix s' name → r.Known s' → s'.length ≤ s.length

/-- The name of a file, without the directories it is in. -/
def baseName (file : String) : List Char := ((Pathname.base? file).getD file).toList

theorem lookupName_eq (r : Registry) (file : String) (default : Option String) :
    r.lookupName file default =
      (((suffixes (baseName file)).map String.ofList).find? (r.get? · |>.isSome)).or
        (default.filter (r.get? · |>.isSome)) := by
  rw [lookupName, ← baseName]
  split <;> simp [*]

theorem lookupName_eq_some_iff (h : r.Sound) (file s : String) (default : Option String) :
    r.lookupName file default = some s ↔ r.IsLongest (baseName file) s ∨
      (∀ s', IsSuffix s' (baseName file) → ¬r.Known s') ∧ default = some s ∧ r.Known s := by
  have hl : ((suffixes (baseName file)).map String.ofList).Pairwise
      fun s s' => s'.length < s.length := by
    rw [pairwise_map]
    simpa using pairwise_suffixes _
  have hm (s : String) : s ∈ (suffixes (baseName file)).map .ofList ↔ IsSuffix s (baseName file) := by
    rw [← mem_suffixes, mem_map]
    grind [String.toList_ofList, String.ofList_toList]
  rw [lookupName_eq, Option.or_eq_some_iff, find?_eq_some_iff_longest hl, find?_eq_none,
    Option.filter_eq_some_iff]
  simp only [h.isSome_get?_iff, hm]
  rfl

/-- What is found stands for a tech. -/
theorem isSome_lookup (r : Registry) (file : String) (default : Option String) :
    (r.lookup file default).isSome = (r.lookupName file default).isSome := by
  rw [lookup]
  cases hs : r.lookupName file default with
  | none => rfl
  | some s =>
    rw [lookupName_eq, Option.or_eq_some_iff, Option.filter_eq_some_iff] at hs
    obtain hs | ⟨-, -, hs⟩ := hs
    · simpa using find?_some hs
    · simpa using hs

/-- A file gets the tech of the longest known suffix of its name, else the
default, and an alias never loses its tech. -/
theorem lookup_calls (cs : List Call) :
    let r := empty.calls cs
    (∀ file s default, r.lookupName file default = some s ↔ r.IsLongest (baseName file) s ∨
      (∀ s', IsSuffix s' (baseName file) → ¬r.Known s') ∧ default = some s ∧ r.Known s) ∧
    (∀ file default, (r.lookup file default).isSome = (r.lookupName file default).isSome) ∧
    ∀ suffix target r', r.addAlias suffix target = .ok r' → ∀ later,
      (r'.calls later).Known suffix ∧
      ∃ target' tech, (r'.calls later).aliases.lookup suffix = some target' ∧
        (r'.calls later).techs.lookup target' = some tech ∧
        (r'.calls later).get? suffix = some tech := by
  have h : (empty.calls cs).Sound := (Sound.calls (r := empty) nofun cs).1
  refine ⟨lookupName_eq_some_iff h, isSome_lookup _, fun suffix target r hr later => ?_⟩
  have hc : r.Sound := by
    have hc := (h.call (.addAlias suffix target)).1
    rwa [call, hr] at hc
  have hs : (r.aliases.lookup suffix).isSome = true := by
    grind [addAlias, Entries.lookup_insert]
  obtain ⟨hl, hk⟩ := hc.calls later
  obtain ⟨target', ht'⟩ := Option.isSome_iff_exists.1 (hk suffix hs)
  obtain ⟨tech, ht⟩ := Option.isSome_iff_exists.1 (hl suffix target' ht')
  refine ⟨.inr (hk suffix hs), target', tech, ht', ht, ?_⟩
  rw [get?, ht']
  exact ht

-- a suffix with a dot in it goes before the one behind the dot
example : (empty.calls [.register "js" .js, .register "txt" .txt, .addAlias "min.js" "txt"]).lookupName
    "a.b/c.min.js/" none = some "min.js" := by decide +kernel

end Inlay.Registry
