/-
Directives that are passed over.

A run sees a directive in an empty list, or among the comments of a node
when it comes to the node. A comment that no node took is not seen, nor are
the comments of a node that was replaced. All other directives are gone from
the comments of the file when the run is over.
-/
import Inlay.Proofs.Inclusion.Warp

namespace Inlay

open Directive (ofComments isIn ofLiteral? within)

open List

namespace Inclusion

/-- A directive stands in an empty list of a node. -/
def Lies (marker : String) (store : List Comment) (n : Node) (d : Directive) : Prop :=
  Hollow n ∧ ∃ range, n.range = some range ∧ d ∈ within marker range store

/-- A file takes the place of a node. -/
def Replaced (marker : String) (store : List Comment) (n : Node) : Prop :=
  (ofLiteral? marker n).isSome = true ∨
    n.kind.isAtomic = true ∧ ∃ d, Lies marker store n d

/-- A node takes a directive: it is the directive itself, or it has the
directive in an empty list or among its comments. A node that is replaced
does not get to its comments. -/
def Takes (marker : String) (store : List Comment) (n : Node) (d : Directive) : Prop :=
  ofLiteral? marker n = some d ∨ Lies marker store n d ∨
    d ∈ ofComments marker (n.leading ++ n.trailing) ∧ ¬ Replaced marker store n

variable {w : Weft} {n : Node} {d : Directive}

theorem mem_inside_iff : d ∈ w.inside n ↔ Lies w.marker w.store n d := by
  constructor
  · intro hd
    obtain ⟨key, hk, range, hl, hr⟩ := Weft.hollow_of_inside (ne_nil_of_mem hd)
    rw [Weft.inside_of_hollow hk hl hr] at hd
    exact ⟨⟨key, hk, hl⟩, range, hr, hd⟩
  · intro ⟨⟨key, hk, hl⟩, range, hr, hd⟩
    rwa [Weft.inside_of_hollow hk hl hr]

theorem replacing_ne_nil_iff : w.replacing n ≠ [] ↔ Replaced w.marker w.store n := by
  cases hl : ofLiteral? w.marker n with
  | some d => simp [Replaced, Weft.replacing_of_literal hl, hl]
  | none =>
    have hi : w.inside n ≠ [] ↔ ∃ d, Lies w.marker w.store n d := by
      simp only [← mem_inside_iff]
      exact ⟨exists_mem_of_ne_nil _, fun ⟨_, hd⟩ => ne_nil_of_mem hd⟩
    rw [Weft.replacing_of_none hl, Replaced, hl, ← hi]
    by_cases ha : n.kind.isAtomic = true <;> simp [ha]

theorem not_hollow_of_literal {marker : String} (hs : Shaped n)
    (hli : ofLiteral? marker n = some d) : ¬ Hollow n := by
  intro ⟨key, hke, hl⟩
  have hk := hs.lists key hke [] hl
  rw [Directive.kind_of_ofLiteral? hli] at hk
  cases hk

theorem mem_taken_iff (hsh : Shaped n) : d ∈ w.taken n ↔ Takes w.marker w.store n d := by
  have hs : d ∈ w.replacing n ++ w.filling n ↔
      ofLiteral? w.marker n = some d ∨ Lies w.marker w.store n d := by
    cases hl : ofLiteral? w.marker n with
    | none => rw [Weft.replacing_append_filling hl, mem_inside_iff]; simp
    | some d' =>
      have hli : ¬ Lies w.marker w.store n d := fun h => not_hollow_of_literal hsh hl h.1
      rw [Weft.replacing_of_literal hl, Weft.filling_of_literal hl]
      simp [hli, eq_comm]
  rw [Weft.taken, append_assoc, mem_append, hs, or_assoc, Takes, ← replacing_ne_nil_iff, not_not]
  refine or_congr_right (or_congr_right ?_)
  by_cases hn : w.replacing n = []
  · rw [Weft.preceding_of_nil hn, Weft.following_of_nil hn, mem_append, mem_reverse, ← mem_append]
    simp [ofComments, hn]
  · rw [Weft.preceding_of_replacing hn, Weft.following_of_replacing hn]
    exact iff_of_false not_mem_nil fun h => hn h.2

end Inclusion

open Inclusion

/-- The comments of a resolved script are those of the script that no node
takes. All others are directives that were resolved. -/
theorem resolve_survivors {lib : Library} {depth : Nat} {c : Context} {text : String}
    {source : Option String} {t t' : Tree} (ht : Tech.js.parse text source = .ok t)
    (hfresh : Fresh lib c t) (h : resolve lib depth c t = .ok t') (com : Comment) :
    com ∈ t'.comments ↔ com ∈ t.comments ∧
      ¬ ∃ n ∈ t.root.preorder, ∃ d, Takes lib.marker t.comments n d ∧ d.comment = some com := by
  obtain ⟨-, hcomments, -⟩ := resolve_weaves ht hfresh h
  obtain ⟨_, -, -, hplaced, -⟩ := Script.parse_placed (mapError_eq_ok_iff.1 ht)
  rw [hcomments, hplaced.nodup_comments.mem_sdiff_iff]
  refine and_congr_right fun _ => not_congr ?_
  rw [Weft.spent, filterMap_flatMap, mem_flatMap]
  refine exists_congr fun n => and_congr_right fun hn => ?_
  rw [mem_filterMap]
  refine exists_congr fun d => and_congr_left fun _ => ?_
  exact mem_taken_iff (w := weftOf lib depth c t) (Tech.shaped_of_parse ht n hn)

/-- A script with a directive between parentheses and one before a
statement. -/
def Script.passing : String :=
  "f(/*borschik:include:x.js*/); /*borschik:include:x.js*/ g();"

def Library.single : Library := .ofFiles [("/x.js", "var x;")]

theorem resolve_survivors_passing :
    ∃ t t', Tech.js.parse Script.passing none = .ok t ∧
      resolve .single 1 (.start none none) t = .ok t' ∧
      ∃ com ∈ t.comments, ∃ com' ∈ t.comments, com ∈ t'.comments ∧ com' ∉ t'.comments ∧
        (¬ ∃ n ∈ t.root.preorder, ∃ d,
          Takes Library.single.marker t.comments n d ∧ d.comment = some com) ∧
        ∃ n ∈ t.root.preorder, ∃ d,
          Takes Library.single.marker t.comments n d ∧ d.comment = some com' := by
  have hok : ((Tech.js.parse Script.passing none).toOption.bind fun t =>
      (resolve .single 1 (.start none none) t).toOption.map fun t' =>
        t.comments.map fun com => decide (com ∈ t'.comments)) = some [true, false] := by
    decide +kernel
  obtain ⟨t, ht, hok⟩ := Option.bind_eq_some_iff.1 hok
  obtain ⟨t', h, hkept⟩ := Option.map_eq_some_iff.1 hok
  replace ht := eq_ok_of_toOption ht
  replace h := eq_ok_of_toOption h
  obtain ⟨com, hcom, hmem⟩ : ∃ com ∈ t.comments, decide (com ∈ t'.comments) = true :=
    mem_map.1 (hkept ▸ .head _)
  obtain ⟨com', hcom', hgone⟩ : ∃ com ∈ t.comments, decide (com ∈ t'.comments) = false :=
    mem_map.1 (hkept ▸ .tail _ (.head _))
  replace hmem := of_decide_eq_true hmem
  replace hgone := of_decide_eq_false hgone
  have hsurvives := resolve_survivors ht (fresh_of_unnamed ht) h
  refine ⟨t, t', ht, h, com, hcom, com', hcom', hmem, hgone, ((hsurvives com).1 hmem).2, ?_⟩
  by_contra hpassed
  exact hgone ((hsurvives com').2 ⟨hcom', hpassed⟩)

/-- A directive between the parentheses of a call is still there when the
script is resolved. -/
theorem resolve_passed_over :
    ∃ t t', Tech.js.parse "f(/*borschik:include:x.js*/)" none = .ok t ∧
      resolve .single 1 (.start none none) t = .ok t' ∧
      ∃ com ∈ t'.comments, isIn Library.single.marker com = true := by
  have hok : ((Tech.js.parse "f(/*borschik:include:x.js*/)" none >>=
      resolve .single 1 (.start none none)).toOption.map fun t' =>
        t'.comments.any (isIn Library.single.marker)) = some true := by decide +kernel
  obtain ⟨t', h, hany⟩ := Option.map_eq_some_iff.1 hok
  obtain ⟨t, ht, h⟩ := bind_ok_iff.1 (eq_ok_of_toOption h)
  exact ⟨t, t', ht, h, any_eq_true.1 hany⟩

end Inlay
