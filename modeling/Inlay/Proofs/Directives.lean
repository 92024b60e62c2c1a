/-
The form of a directive.

A directive is blanks, the marker, `:include:`, a path that does not end with
a blank, and blanks again. The parts are never in doubt, though the marker
may hold blanks itself (`eq_nil_of_append`).
-/
import Inlay.Directive
import Mathlib

namespace Inlay

open List Text

variable {cs key rest path w : List Char}

theorem Text.trimRight_eq_iff : trimRight cs = path ↔ ∃ v, cs = path ++ v ∧
    (∀ c ∈ v, isWhiteSpace c = true) ∧ ∀ c ∈ path.getLast?, isWhiteSpace c = false := by
  constructor
  · rintro rfl
    refine ⟨(cs.reverse.takeWhile isWhiteSpace).reverse, ?_, ?_, ?_⟩
    · rw [trimRight, ← reverse_append, takeWhile_append_dropWhile, reverse_reverse]
    · intro c hc
      exact all_eq_true.1 all_takeWhile c (mem_reverse.1 hc)
    · intro c hc
      have hn := head?_dropWhile_not isWhiteSpace cs.reverse
      rw [trimRight, getLast?_reverse] at hc
      rwa [hc] at hn
  · rintro ⟨v, rfl, hv, hl⟩
    rw [trimRight, reverse_append, dropWhile_append_of_pos (by simpa using hv)]
    cases hp : path.reverse with
    | nil => simpa using hp.symm
    | cons c before =>
      have hc : isWhiteSpace c = false := hl c (by rw [getLast?_eq_head?_reverse, hp]; rfl)
      rw [dropWhile_cons_of_neg (by simp [hc]), ← hp, reverse_reverse]

namespace Directive

/-- A key that is not all blanks starts in one place only behind blanks. -/
theorem eq_nil_of_append {rest' : List Char} (hk : ∃ c ∈ key, isWhiteSpace c = false)
    (hw : ∀ c ∈ w, isWhiteSpace c = true) (h : key ++ rest = w ++ (key ++ rest')) : w = [] := by
  have hf : ∀ rest, (key ++ rest).takeWhile isWhiteSpace = key.takeWhile isWhiteSpace := by
    intro rest
    obtain ⟨c, hc, hb⟩ := hk
    rw [takeWhile_append, if_neg]
    intro hl
    rw [← (takeWhile_sublist _).eq_of_length hl] at hc
    simp [all_eq_true.1 all_takeWhile c hc] at hb
  have hl := congrArg (fun cs => (cs.takeWhile isWhiteSpace).length) h
  simp only [takeWhile_append_of_pos hw, hf, length_append] at hl
  exact length_eq_zero_iff.1 (by omega)

theorem behind_eq_some_iff (hk : ∃ c ∈ key, isWhiteSpace c = false) :
    behind key cs = some rest ↔ ∃ w, cs = w ++ (key ++ rest) ∧ ∀ c ∈ w, isWhiteSpace c = true := by
  fun_induction behind key cs with
  | case1 cs hp =>
    obtain ⟨rest', rfl⟩ := isPrefixOf_iff_prefix.1 hp
    rw [drop_left, Option.some.injEq]
    constructor
    · rintro rfl
      exact ⟨[], rfl, nofun⟩
    · rintro ⟨w, h, hw⟩
      rw [eq_nil_of_append hk hw h] at h
      exact append_cancel_left h
  | case2 hp =>
    refine ⟨nofun, fun ⟨w, h, _⟩ => absurd ?_ hp⟩
    obtain ⟨-, h⟩ := append_eq_nil_iff.1 h.symm
    rw [(append_eq_nil_iff.1 h).1]
    rfl
  | case3 c cs hc hp ih =>
    rw [ih]
    constructor
    · rintro ⟨w, rfl, hw⟩
      exact ⟨c :: w, rfl, forall_mem_cons.2 ⟨hc, hw⟩⟩
    · rintro ⟨w, h, hw⟩
      cases w with
      | nil => exact absurd ( isPrefixOf_iff_prefix.2 ⟨rest, h.symm⟩) hp
      | cons d w =>
        obtain ⟨rfl, rfl⟩ := cons.inj h
        exact ⟨w, rfl, (forall_mem_cons.1 hw).2⟩
  | case4 c cs hc hp =>
    refine ⟨nofun, fun ⟨w, h, hw⟩ => ?_⟩
    cases w with
    | nil => exact absurd ( isPrefixOf_iff_prefix.2 ⟨rest, h.symm⟩) hp
    | cons d w =>
      obtain ⟨rfl, rfl⟩ := cons.inj h
      exact absurd (hw _ mem_cons_self) hc

/-- A text is a directive for a path exactly if it has the form of one. -/
theorem path?_eq_some_iff (marker text path : String) :
    path? marker text = some path ↔
      ∃ w rest v : String, text = w ++ marker ++ ":include:" ++ rest ∧ rest = path ++ v ∧
        (∀ c ∈ w.toList, isWhiteSpace c = true) ∧ (∀ c ∈ v.toList, isWhiteSpace c = true) ∧
        (∀ c ∈ path.toList.getLast?, isWhiteSpace c = false) ∧ '\n' ∉ path.toList := by
  have hkey : ∃ c ∈ (marker ++ ":include:").toList, isWhiteSpace c = false := ⟨':', by simp, rfl⟩
  constructor
  · intro h
    obtain ⟨rest, hrest, h⟩ := Option.bind_eq_some_iff.1 h
    obtain ⟨w, htext, hw⟩ := (behind_eq_some_iff hkey).1 hrest
    obtain ⟨v, hv, hblank, hlast⟩ := trimRight_eq_iff.1 (Eq.refl (trimRight rest))
    dsimp only at h
    split at h
    · cases h
    · next hline =>
      cases h
      refine ⟨.ofList w, .ofList rest, .ofList v, ?_, ?_, by simpa using hw,
        by simpa using hblank, by simpa using hlast, by simpa using hline⟩
      · rw [← String.toList_inj, htext]
        simp
      · rw [← String.toList_inj]
        simpa using hv
  · rintro ⟨w, rest, v, rfl, rfl, hw, hv, hlast, hline⟩
    have hbehind : behind (marker ++ ":include:").toList
        (w ++ marker ++ ":include:" ++ (path ++ v)).toList = some (path ++ v).toList :=
      (behind_eq_some_iff hkey).2 ⟨w.toList, by simp, hw⟩
    have htrim : trimRight (path ++ v).toList = path.toList :=
      trimRight_eq_iff.2 ⟨v.toList, by simp, hv, hlast⟩
    refine Option.bind_eq_some_iff.2 ⟨_, hbehind, ?_⟩
    simp only [htrim]
    simpa using hline

end Directive

end Inlay
