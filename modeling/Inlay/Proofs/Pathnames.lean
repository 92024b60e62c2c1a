/-
Where files are found.

A pathname that was resolved is `Proper`. Reading its text gives it back,
from wherever it is read (`enter_text`), so segments can be resolved one by
one (`resolveFrom_eq`), and a chain of directories, each as it was written,
ends in the directory of the file that the chain leads to.
-/
import Inlay.Inclusion
import Mathlib

namespace Inlay

namespace Pathname

open List

variable {path name : List Char} {names more before : List (List Char)}

-- == pieces

theorem pieces_eq (path : List Char) : pieces path = path.splitOn '/' := by
  fun_induction pieces path with
  | case1 => rfl
  | case2 rest ih => rw [splitOn_cons_eq_if_modifyHead, if_pos BEq.rfl, ih]
  | case3 c rest hc hn ih => exact absurd (ih ▸ hn) (splitOn_ne_nil _ _)
  | case4 c rest hc piece more hp ih =>
    rw [splitOn_cons_eq_if_modifyHead, if_neg (by simpa using hc), ← ih, hp]
    rfl

theorem slash_not_mem_of_mem_pieces {piece : List Char} (h : piece ∈ pieces path) :
    '/' ∉ piece := by
  fun_induction pieces path generalizing piece with
  | case1 =>
    rw [mem_singleton.1 h]
    exact not_mem_nil
  | case2 rest ih =>
    rcases mem_cons.1 h with rfl | h
    · exact not_mem_nil
    · exact ih h
  | case3 c rest hc hn ih =>
    rw [mem_singleton.1 h]
    simpa using Ne.symm hc
  | case4 c rest hc first more hp ih =>
    rw [hp] at ih
    rcases mem_cons.1 h with rfl | h
    · exact mt mem_cons.1 (not_or.2 ⟨Ne.symm hc, ih (.head _)⟩)
    · exact ih (.tail _ h)

theorem pieces_append (path rest : List Char) :
    pieces (path ++ '/' :: rest) = pieces path ++ pieces rest := by
  rw [pieces_eq, pieces_eq, pieces_eq, splitOn_append_cons_self]

theorem join_append (hne : names ≠ []) (hm : more ≠ []) :
    join (names ++ more) = join names ++ '/' :: join more := by
  induction names with
  | nil => exact absurd rfl hne
  | cons name names ih =>
    by_cases hn : names = []
    · simp [hn, join, intercalate_cons_of_ne_nil hm]
    · have ih := ih hn
      rw [join, join] at ih ⊢
      rw [cons_append, intercalate_cons_of_ne_nil (by simp [hn]), ih, intercalate_cons_of_ne_nil hn]
      simp

theorem join_pieces (path : List Char) : join (pieces path) = path := by
  rw [pieces_eq, join, intercalate_splitOn]

theorem pieces_join (hne : names ≠ []) (h : ∀ name ∈ names, '/' ∉ name) :
    pieces (join names) = names := by
  rw [pieces_eq, join, splitOn_intercalate _ h hne]

-- == proper pathnames

/-- A name that stands for itself. -/
def IsOrdinary (name : List Char) : Prop := isName name = true ∧ name ≠ ['.', '.'] ∧ '/' ∉ name

namespace Normal

variable {p : Normal}

/-- An absolute pathname whose names stand for themselves. -/
structure Proper (p : Normal) : Prop where
  absolute : p.absolute = true
  names : ∀ name ∈ p.names, IsOrdinary name

/-- Only pieces that name something count. -/
theorem foldl_push_filter (p : Normal) (names : List (List Char)) :
    (names.filter isName).foldl push p = names.foldl push p := by
  induction names generalizing p with
  | nil => rfl
  | cons piece names ih =>
    by_cases hn : isName piece = true
    · rw [filter_cons_of_pos hn, foldl_cons, foldl_cons, ih]
    · have hb : piece ≠ ['.', '.'] := by
        rintro rfl
        exact hn rfl
      rw [filter_cons_of_neg hn, foldl_cons, ih, push, if_neg hb, if_neg hn]

theorem push_of_isOrdinary (p : Normal) (h : IsOrdinary name) :
    p.push name = { p with names := name :: p.names } := by
  rw [push, if_neg h.2.1, if_pos h.1]

theorem cons_inj {q : Normal} (h : ({ p with names := name :: p.names } : Normal) =
    { q with names := name :: q.names }) : p = q := by
  cases p
  cases q
  cases h
  rfl

theorem foldl_push_of_isOrdinary (p : Normal) (h : ∀ name ∈ names, IsOrdinary name) :
    names.foldl push p = { p with names := names.reverse ++ p.names } := by
  induction names generalizing p with
  | nil => rfl
  | cons name names ih =>
    obtain ⟨hn, hna⟩ := forall_mem_cons.1 h
    rw [foldl_cons, push_of_isOrdinary p hn, ih _ hna]
    simp

theorem Proper.foldl_push (hp : p.Proper) (h : ∀ piece ∈ names, '/' ∉ piece) :
    (names.foldl Normal.push p).Proper := by
  induction names generalizing p with
  | nil => exact hp
  | cons piece names ih =>
    obtain ⟨hpi, hna⟩ := forall_mem_cons.1 h
    refine ih ?_ hna
    unfold Normal.push
    split
    · exact ⟨hp.absolute, fun name hn => hp.names name (mem_of_mem_tail hn)⟩
    · split
      · next hb hn =>
        exact ⟨hp.absolute, forall_mem_cons.2 ⟨⟨hn, hb, hpi⟩, hp.names⟩⟩
      · exact hp

/-- What is read relative to a proper pathname is proper, and so is an
absolute one. -/
theorem proper_enter (h : p.Proper ∨ isAbsolute path = true) : (p.enter path).Proper := by
  refine Proper.foldl_push ?_ fun piece hp => slash_not_mem_of_mem_pieces hp
  split
  · exact ⟨rfl, nofun⟩
  · next hr => exact h.resolve_right hr

theorem Proper.foldl_enter (hp : p.Proper) (segments : List String) :
    (segments.foldl (fun p segment => p.enter segment.toList) p).Proper := by
  induction segments generalizing p with
  | nil => exact hp
  | cons segment segments ih => exact ih (proper_enter (.inl hp))

theorem Proper.text_eq (hp : p.Proper) : p.text = '/' :: join p.names.reverse := by
  rw [text, if_pos hp.absolute]

theorem Proper.pieces_eq (hp : p.Proper) (hne : p.names ≠ []) :
    pieces (join p.names.reverse) = p.names.reverse :=
  pieces_join (by simpa using hne) fun name hn => (hp.names name (mem_reverse.1 hn)).2.2

/-- A proper pathname is read as itself. -/
theorem enter_text (hp : p.Proper) (q : Normal) : q.enter p.text = p := by
  have hpi : (pieces (join p.names.reverse)).foldl push ⟨true, []⟩ = ⟨true, p.names⟩ := by
    by_cases hne : p.names = []
    · rw [hne]
      rfl
    · rw [hp.pieces_eq hne, foldl_push_of_isOrdinary _ fun n hn => hp.names n (mem_reverse.1 hn)]
      simp
  rw [hp.text_eq]
  refine hpi.trans ?_
  rw [← hp.absolute]

theorem proper_resolve {base : String} (h : isAbsolute base.toList = true)
    (segments : List String) : (segments.foldl (fun p segment => p.enter segment.toList)
      (normalize base.toList)).Proper :=
  (proper_enter (.inr h)).foldl_enter segments

end Normal

theorem normalize_text {p : Normal} (hp : p.Proper) : normalize p.text = p :=
  Normal.enter_text hp _

theorem normalize_slash {segment : List Char} (hs : isAbsolute segment = false) (hp : path ≠ []) :
    normalize (path ++ '/' :: segment) = (normalize path).enter segment := by
  obtain ⟨c, path, rfl⟩ := exists_cons_of_ne_nil hp
  rw [normalize, Normal.enter, pieces_append, foldl_append, Normal.enter, hs]
  rfl

/-- A segment behind a pathname is read relative to it. -/
theorem normalize_extend (path segment : List Char) :
    normalize (extend path segment) = (normalize path).enter segment := by
  unfold extend
  split
  · next ha => rw [normalize, Normal.enter, Normal.enter, if_pos ha, if_pos ha]
  · next ha =>
    rw [Bool.not_eq_true] at ha
    split
    · next h =>
      obtain rfl | h := h
      · rfl
      · -- the slash is there already
        obtain ⟨front, rfl⟩ := getLast?_eq_some_iff.1 h
        rw [append_assoc, singleton_append]
        cases front with
        | nil =>
          rw [nil_append, nil_append, normalize, Normal.enter, Normal.enter, ha]
          rfl
        | cons c front =>
          rw [normalize_slash ha (cons_ne_nil _ _), normalize_slash rfl (cons_ne_nil _ _)]
          rfl
    · next h => exact normalize_slash ha fun hn => h (.inl hn)

/-- To normalise what was joined is to read one segment after the other. -/
theorem resolveFrom_eq (base : String) (segments : List String) :
    resolveFrom base segments = String.ofList (segments.foldl
      (fun p segment => p.enter segment.toList) (normalize base.toList)).text := by
  have h (path : List Char) : normalize (segments.foldl (fun path s => extend path s.toList) path) =
      segments.foldl (fun p segment => p.enter segment.toList) (normalize path) := by
    induction segments generalizing path with
    | nil => rfl
    | cons segment segments ih => rw [foldl_cons, foldl_cons, ih, normalize_extend]
  rw [resolveFrom, h]

theorem toList_resolveFrom (base : String) (segments : List String) :
    (resolveFrom base segments).toList = (segments.foldl (fun p segment => p.enter segment.toList)
      (normalize base.toList)).text := by
  rw [resolveFrom_eq, String.toList_ofList]

/-- What is resolved is read as itself from everywhere. -/
theorem resolveFrom_resolved {base : String} (h : isAbsolute base.toList = true)
    (segments : List String) (other : String) :
    resolveFrom other [resolveFrom base segments] = resolveFrom base segments := by
  rw [resolveFrom_eq, foldl_cons, foldl_nil, toList_resolveFrom,
    Normal.enter_text (Normal.proper_resolve h segments), resolveFrom_eq]

/-- Segments can be resolved one after another. What is resolved is an
absolute pathname of names that stand for themselves, and is read as
itself from everywhere. -/
theorem resolveFrom_append {base : String} (h : isAbsolute base.toList = true)
    (xs ys : List String) :
    resolveFrom base (xs ++ ys) = resolveFrom (resolveFrom base xs) ys ∧
      (∃ names, (resolveFrom base xs).toList = '/' :: join names ∧
        ∀ name ∈ names, name ≠ [] ∧ name ≠ ['.'] ∧ name ≠ ['.', '.'] ∧ '/' ∉ name) ∧
      ∀ other, resolveFrom other [resolveFrom base xs] = resolveFrom base xs := by
  have hp := Normal.proper_resolve h xs
  have ht := toList_resolveFrom base xs
  refine ⟨?_, ⟨_, ht.trans hp.text_eq, fun name hn => ?_⟩, resolveFrom_resolved h xs⟩
  · rw [resolveFrom_eq, resolveFrom_eq _ ys, ht, normalize_text hp, foldl_append]
  · obtain ⟨hn, hup, hs⟩ := hp.names name (mem_reverse.1 hn)
    simp only [isName, Bool.and_eq_true, Bool.not_eq_true', isEmpty_eq_false_iff, bne_iff_ne] at hn
    exact ⟨hn.1, hn.2, hup, hs⟩

/-- More steps back than there are names lead to the root. -/
theorem resolveFrom_append_above :
    isAbsolute "/work//app/".toList = true ∧
      resolveFrom "/work//app/" ["../../..", "./lib"] = "/lib" ∧
      resolveFrom "/work//app/" (["../../..", "./lib"] ++ ["", "a.js"]) =
        resolveFrom (resolveFrom "/work//app/" ["../../..", "./lib"]) ["", "a.js"] :=
  ⟨by decide, by decide +kernel, (resolveFrom_append (by decide) _ _).1⟩

-- == directories

theorem filter_takeWhile (names : List (List Char)) :
    (names.takeWhile (!isName ·)).reverse.filter isName = [] :=
  filter_eq_nil_iff.2 fun name hn => by
    simpa using all_eq_true.1 all_takeWhile name (mem_reverse.1 hn)

/-- Behind the front come the pieces of the directory and the last name,
and around the name pieces that name nothing. -/
theorem exists_pieces (h : namesBack path = name :: before) :
    ∃ around, pieces (path.drop (front path).length) =
        (before.dropWhile (!isName ·)).reverse ++ around ∧ around.filter isName = [name] := by
  generalize ha : pieces (path.drop (front path).length) = all
  rw [namesBack, ha] at h
  have hn := head?_dropWhile_not (!isName ·) all.reverse
  rw [h] at hn
  refine ⟨(before.takeWhile (!isName ·)).reverse ++
    name :: (all.reverse.takeWhile (!isName ·)).reverse, ?_, ?_⟩
  · rw [← reverse_inj]
    refine (takeWhile_append_dropWhile (p := (!isName ·))).symm.trans ?_
    rw [h]
    simp
  · rw [filter_append, filter_takeWhile, filter_cons_of_pos (by simpa using hn), filter_takeWhile]
    rfl

theorem front_append_drop (path : List Char) :
    front path ++ path.drop (front path).length = path := by
  fun_cases front path <;> rfl

/-- The directory of a pathname names what the pathname names before its
last name, and is absolute if the pathname is. -/
theorem directory_spec {path : String} (h : namesBack path.toList = name :: before) :
    (pieces path.toList).filter isName = (pieces (directory path).toList).filter isName ++ [name] ∧
      isAbsolute path.toList = isAbsolute (directory path).toList := by
  obtain ⟨around, hp, ha⟩ := exists_pieces h
  have hh := head?_dropWhile_not (!isName ·) before
  rw [directory]
  simp only [h]
  generalize path.toList = path at hp ⊢
  generalize before.dropWhile (!isName ·) = names at hp hh ⊢
  cases names with
  | nil =>
    -- the directory is the front
    rw [reverse_nil, nil_append] at hp
    rw [← hp] at ha
    revert ha
    fun_cases front path with
    | case1 rest => exact fun h => ⟨h, rfl⟩
    | case2 => exact fun h => by cases h
    | case3 rest => exact fun h => ⟨h, rfl⟩
    | case4 path hr =>
      refine fun h => ⟨h, ?_⟩
      cases path with
      | nil => rfl
      | cons c path =>
        have hc : c ≠ '/' := by
          rintro rfl
          exact hr path rfl
        show (some c == some '/') = false
        simpa using hc
  | cons last names =>
    -- a slash stands between the directory and the rest
    have hne : around ≠ [] := by
      rintro rfl
      cases ha
    have hs : ∀ n ∈ (last :: names).reverse ++ around, '/' ∉ n :=
      fun n hn => slash_not_mem_of_mem_pieces (hp ▸ hn)
    rw [forall_mem_append] at hs
    obtain ⟨parent, hpa⟩ : ∃ parent, front path ++ join (last :: names).reverse = parent :=
      ⟨_, rfl⟩
    have hsp : path = parent ++ '/' :: join around := by
      rw [← hpa, append_assoc, ← join_append (by simp) hne, ← hp, join_pieces, front_append_drop]
    have hf : parent ≠ [] := by
      rintro rfl
      have hni := pieces_join (by simp) hs.1
      rw [(append_eq_nil_iff.1 hpa).2, reverse_cons, pieces] at hni
      cases names with
      | nil =>
        cases hni
        cases hh
      | cons second names => simpa using congrArg length hni
    rw [hpa, if_neg (by simpa using hf), String.toList_ofList, hsp, pieces_append,
      filter_append, pieces_join hne hs.2, ha]
    obtain ⟨c, parent, rfl⟩ := exists_cons_of_ne_nil hf
    exact ⟨rfl, rfl⟩

/-- A pathname that ends with a name leads to that name in its
directory. -/
theorem enter_eq_push {path : String} (p : Normal) (h : namesBack path.toList = name :: before) :
    p.enter path.toList = (p.enter (directory path).toList).push name := by
  obtain ⟨hn, ha⟩ := directory_spec h
  rw [Normal.enter, Normal.enter, ← Normal.foldl_push_filter, hn, ha, foldl_append,
    Normal.foldl_push_filter]
  rfl

/-- The last name of a pathname that has one. -/
theorem namesBack_of_base? {path : String} (h : (base? path).isSome = true) :
    ∃ name before, namesBack path.toList = name :: before ∧ IsOrdinary name := by
  unfold base? at h
  split at h
  · cases h
  · next name before hb =>
    split at h
    · cases h
    · next hup =>
      obtain ⟨around, hpi, ha⟩ := exists_pieces hb
      have hm : name ∈ around.filter isName := by rw [ha]; exact .head _
      have hp := mem_append_right (before.dropWhile (!isName ·)).reverse (mem_filter.1 hm).1
      rw [← hpi] at hp
      exact ⟨name, before, hb, (mem_filter.1 hm).2, hup, slash_not_mem_of_mem_pieces hp⟩

/-- The directory of the place that a pathname leads to is the place that
its directory leads to. -/
theorem enter_directory {path : String} {p : Normal} (hp : p.Proper)
    (hba : (base? path).isSome = true) (q : Normal) :
    q.enter (directory (String.ofList (p.enter path.toList).text)).toList =
      p.enter (directory path).toList := by
  obtain ⟨name, before, hb, hn⟩ := namesBack_of_base? hba
  have hpu := enter_eq_push p hb
  rw [Normal.push_of_isOrdinary _ hn] at hpu
  have hpr : (p.enter path.toList).Proper := Normal.proper_enter (.inl hp)
  generalize p.enter path.toList = place at hpu hpr ⊢
  have hna : place.names ≠ [] := by rw [hpu]; exact cons_ne_nil _ _
  have hpl : namesBack (String.ofList place.text).toList =
      name :: (p.enter (directory path).toList).names := by
    rw [String.toList_ofList, hpr.text_eq]
    show (pieces (join place.names.reverse)).reverse.dropWhile (!isName ·) = _
    rw [hpr.pieces_eq hna, reverse_reverse, hpu]
    simp [hn.1]
  have ha := enter_eq_push q hpl
  rw [String.toList_ofList, Normal.enter_text hpr, Normal.push_of_isOrdinary _ hn] at ha
  exact (Normal.cons_inj (hpu.symm.trans ha)).symm

end Pathname

open List Pathname in
/-- A file included by a file is looked for in the directory of the
including file, wherever that one was found. -/
theorem Context.locate_descend (c : Context) {workingDirectory path : String} (inner : String)
    (hwd : isAbsolute workingDirectory.toList = true) (hp : (base? path).isSome = true) :
    (c.descend path).locate workingDirectory inner =
      resolveFrom workingDirectory [directory (c.locate workingDirectory path), inner] := by
  obtain ⟨chain, hc⟩ : ∃ chain, c.realChain.getD c.sourceChain = chain := ⟨_, rfl⟩
  have hd : (c.descend path).realChain.getD (c.descend path).sourceChain =
      chain ++ [directory path] := by
    rw [← hc]
    cases h : c.realChain <;> simp [descend, h]
  simp only [locate, hd, hc, resolveFrom_eq, foldl_append, foldl_cons, foldl_nil]
  rw [enter_directory (Normal.proper_resolve hwd chain) hp]

open Pathname in
/-- Two files further on, by way of the directory above. -/
theorem Context.locate_descend_parent :
    ((Context.start (some "main.js") none).descend "../lib/./a.js").locate "/work/app" "b.js" =
      resolveFrom "/work/app" ["/work/lib", "b.js"] := by
  have h := ((Context.start (some "main.js") none).locate_descend "b.js"
    (by decide) (by decide +kernel) : _ = resolveFrom "/work/app" [directory
      ((Context.start (some "main.js") none).locate "/work/app" "../lib/./a.js"), "b.js"])
  rw [h]
  decide +kernel

end Inlay
