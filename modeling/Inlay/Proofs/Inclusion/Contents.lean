/-
What becomes of included files.

The nodes of an included file are in the tree when a run is over
(`Native.occurs`), but for one case: if several directives stand in one
empty array or object, only what the last one brings is left. What a file
brings was itself resolved, so the same is true of the files that it
includes (`Lands`).
-/
import Inlay.Proofs.Inclusion.Survivors

namespace Inlay

open List

namespace Inclusion

-- == trees

/-- A node is one of those in a list or below them. -/
def Occurs (a : Node) (ns : List Node) : Prop := ∃ b ∈ ns, a ∈ b.preorder

section Trees

variable {w : Weft} {host : Option String} {ds : List Directive} {n m a : Node} {d : Directive}
  {ns ns' : List Node}

theorem Occurs.of_mem (h : a ∈ ns) : Occurs a ns := ⟨a, h, a.mem_preorder_self⟩

theorem Occurs.mono (h : Occurs a ns) (hs : ns ⊆ ns') : Occurs a ns' := by
  obtain ⟨b, hb, ha⟩ := h
  exact ⟨b, hs hb, ha⟩

theorem Occurs.trans (h : Occurs a ns) (hns : ∀ b ∈ ns, Occurs b ns') : Occurs a ns' := by
  obtain ⟨b, hb, ha⟩ := h
  obtain ⟨b', hb', hbb'⟩ := hns b hb
  exact ⟨b', hb', Node.mem_preorder_trans ha hbb'⟩

theorem getLast?_of_mem {l : List Directive} (h : d ∈ l) (hl : d ∉ l.dropLast) :
    l.getLast? = some d := by
  have hne := ne_nil_of_mem h
  rw [← dropLast_append_getLast hne, mem_append, mem_singleton] at h
  obtain h | h := h
  · exact absurd h hl
  · rw [getLast?_eq_some_getLast hne, h]

theorem Occurs.of_kids {key : String} (h : Occurs a ns) (hki : n.kids = items key 0 ns) :
    a ∈ n.preorder := by
  obtain ⟨b, hb, ha⟩ := h
  rw [← map_snd_items key 0 ns, ← hki] at hb
  obtain ⟨k, hk, rfl⟩ := mem_map.1 hb
  exact Node.mem_preorder_of_kid hk ha

theorem Native.kids_weave {list : List Node} (hn : Native w host ds n)
    (hb : n.children? "body" = some list) (hni : w.replacing n = []) :
    (w.weave n).kids =
      items "body" 0 (list.flatMap w.spread ++ (w.filling n).flatMap w.content) := by
  have hs := hn.sole "body" (by simp [lendableKeys]) list hb
  rw [Weft.weave_of_body hn.shaped.keys hb hs hni,
    Node.kids_modifyList_of_sole hn.shaped.keys hb hs]

theorem Native.occurs_item {list : List Node} {k : Step × Node} (hn : Native w host ds n)
    (hbo : n.children? "body" = some list) (hk : k ∈ n.kids) (h : Occurs a (w.spread k.2)) :
    Occurs a (list.flatMap w.spread ++ (w.filling n).flatMap w.content) := by
  have hm : k.2 ∈ list := by
    rw [← map_snd_items "body" 0 list, ← hn.kids_eq_items (by simp) hbo]
    exact mem_map_of_mem hk
  exact h.mono fun b hb => mem_append_left _ (mem_flatMap.2 ⟨k.2, hm, hb⟩)

theorem Native.occurs_self (hn : Native w host ds n)
    (hs : ∀ d, (w.replacing n).getLast? = some d → ∃ a, w.content d = [a]) (hd : d ∈ w.taken n)
    (hl : d ∉ (w.replacing n).dropLast) (ha : a ∈ w.content d) : Occurs a (w.spread n) := by
  rw [Weft.taken, mem_append, mem_append, mem_append, mem_reverse] at hd
  obtain ((hd | hd) | hd) | hd := hd
  · -- it is there in the place of the node
    have hr := getLast?_of_mem hd hl
    obtain ⟨a', ha'⟩ := hs d hr
    rw [ha', mem_singleton] at ha
    apply Occurs.of_mem
    rw [Weft.spread, Weft.weave_of_replacing hr, ha', ha]
    simp
  · -- it is an item of the body
    cases hb : n.children? "body" with
    | none =>
      rw [Weft.filling_of_loose hn.shaped hb] at hd
      cases hd
    | some list =>
      have hni := Weft.replacing_of_filling (ne_nil_of_mem hd)
      have hi : a ∈ list.flatMap w.spread ++ (w.filling n).flatMap w.content :=
        mem_append_right _ (mem_flatMap.2 ⟨d, hd, ha⟩)
      exact ⟨w.weave n, by simp [Weft.spread], (Occurs.of_mem hi).of_kids (hn.kids_weave hb hni)⟩
  · apply Occurs.of_mem
    have hf : a ∈ w.front n :=
      mem_flatMap.2 ⟨n, n.mem_surface_self, mem_flatMap.2 ⟨d, hd, ha⟩⟩
    simp [Weft.spread, hf]
  · apply Occurs.of_mem
    have hba : a ∈ w.back n := mem_flatMap.2
      ⟨n, mem_reverse.2 n.mem_surface_self, mem_flatMap.2 ⟨d, hd, ha⟩⟩
    simp [Weft.spread, hba]

/-- What the directives below a node bring is there when it is woven. -/
theorem Native.occurs (hn : n.Every (Native w host ds))
    (hs : n.Every fun m => ∀ d, (w.replacing m).getLast? = some d → ∃ a, w.content d = [a])
    (hm : m ∈ n.preorder) (hd : d ∈ w.taken m) (hl : d ∉ (w.replacing m).dropLast)
    (ha : a ∈ w.content d) : Occurs a (w.spread n) := by
  induction n using Node.induction_kids with
  | h n ih =>
    rw [Node.preorder_eq, mem_cons, mem_flatMap] at hm
    obtain rfl | ⟨k, hk, hm⟩ := hm
    · exact hn.self.occurs_self hs.self hd hl ha
    · have ho := ih k hk ((Node.every_iff.1 hn).2 k hk) ((Node.every_iff.1 hs).2 k hk) hm
      have hni : w.replacing n = [] := by
        by_contra hne
        rw [hn.self.kids_eq_nil hne] at hk
        cases hk
      cases hbo : n.children? "body" with
      | some list =>
        exact ⟨w.weave n, by simp [Weft.spread],
          (hn.self.occurs_item hbo hk ho).of_kids (hn.self.kids_weave hbo hni)⟩
      | none =>
        obtain ⟨b, hb, ha⟩ := ho
        rw [Weft.spread, mem_append, mem_cons] at hb
        obtain hb | rfl | hb := hb
        · have hf : b ∈ w.front n := by
            rw [Weft.front_of_loose hbo]
            exact mem_append_right _ (mem_flatMap.2 ⟨k, hk, hb⟩)
          exact ⟨b, by simp [Weft.spread, hf], ha⟩
        · have hki := Weft.kids_weave_of_loose (w := w) hn.self.shaped.keys hbo hni
          exact ⟨w.weave n, by simp [Weft.spread],
            Node.mem_preorder_of_kid (hki ▸ mem_map_of_mem hk) ha⟩
        · have hba : b ∈ w.back n := by
            rw [Weft.back_of_loose hbo]
            exact mem_append_left _ (mem_flatMap.2 ⟨k, mem_reverse.2 hk, hb⟩)
          exact ⟨b, by simp [Weft.spread, hba], ha⟩

/-- What a tree brings is in its body. -/
theorem Warped.occurs {root : Node} {list : List Node} (hr : Warped w ds root)
    (hs : root.Every fun m => ∀ d, (w.replacing m).getLast? = some d → ∃ a, w.content d = [a])
    (hb : root.children? "body" = some list) (hm : m ∈ root.preorder) (hd : d ∈ w.taken m)
    (hl : d ∉ (w.replacing m).dropLast) (ha : a ∈ w.content d) :
    Occurs a (list.flatMap w.spread ++ (w.filling root).flatMap w.content) := by
  obtain ⟨hn, hki⟩ := Node.every_iff.1 hr.native
  rw [Node.preorder_eq, mem_cons, mem_flatMap] at hm
  obtain rfl | ⟨k, hk, hm⟩ := hm
  · rw [hr.taken_root] at hd
    exact .of_mem (mem_append_right _ (mem_flatMap.2 ⟨d, hd, ha⟩))
  · exact hn.occurs_item hb hk (Native.occurs (hki k hk) ((Node.every_iff.1 hs).2 k hk) hm hd hl ha)

end Trees

-- == files

/-- A directive in an empty array or object that has another one behind
it. -/
def Overwritten (marker : String) (store : List Comment) (n : Node) (d : Directive) : Prop :=
  n.kind.isAtomic = true ∧ Hollow n ∧
    ∃ range, n.range = some range ∧ d ∈ (Directive.within marker range store).dropLast

/-- The files that are resolved along with a tree, the tree included. -/
inductive Visits (lib : Library) : Context → Tree → Context → Tree → Prop
  | self {c t} : Visits lib c t c t
  | through {c t d tech text u c' u'} (hd : Consumes lib c t d)
      (hopens : Opens lib c d tech text u) (h : Visits lib (c.descend d.path) u c' u') :
      Visits lib c t c' u'

/-- The tree of the file that a directive names. -/
def opened? (lib : Library) (c : Context) (d : Directive) : Option Tree := do
  let tech ← (techFor lib d).toOption
  let text ← (lib.read (c.locate lib.workingDirectory d.path)).toOption
  (tech.parse text (some d.path)).toOption

/-- Whether files include one another to a depth at most, and no file is
included under the path of one that it is included by. -/
def isAcyclic (lib : Library) : Nat → Context → List (Option String) → Tree → Bool
  | 0, _, _, t => (directives lib.marker t).isEmpty
  | depth + 1, c, hosts, t =>
      (directives lib.marker t).all fun d =>
        !(t.root.source? :: hosts).contains (some d.path) &&
          (opened? lib c d).all (isAcyclic lib depth (c.descend d.path) (t.root.source? :: hosts))

/-- The directives that a run resolves, in the tree itself and in the files
that it includes, with the nodes of their files. Those that are overwritten
are left out, and so is what they include. -/
inductive Lands (lib : Library) : Nat → Context → Tree → Directive → List Node → Prop
  | here {depth c t n d ns} (hn : n ∈ t.root.preorder) (hd : Takes lib.marker t.comments n d)
      (hlast : ¬ Overwritten lib.marker t.comments n d)
      (hfetch : fetch lib (below lib depth) c d = .ok ns) : Lands lib depth c t d ns
  | through {depth c t n d tech text u d' ns} (hn : n ∈ t.root.preorder)
      (hd : Takes lib.marker t.comments n d) (hlast : ¬ Overwritten lib.marker t.comments n d)
      (hopens : Opens lib c d tech text u) (h : Lands lib depth (c.descend d.path) u d' ns) :
      Lands lib (depth + 1) c t d' ns

section Files

variable {lib : Library} {depth : Nat} {c : Context} {tech : Tech} {text : String}
  {source : Option String} {t t' : Tree} {n a : Node} {d : Directive} {ns : List Node}

theorem Opens.opened? {u : Tree} (h : Opens lib c d tech text u) : opened? lib c d = some u := by
  simp [Inclusion.opened?, h.known, h.read, h.parsed, Except.toOption]

section Acyclic

variable {hosts : List (Option String)} {u : Tree} (h : isAcyclic lib depth c hosts t = true)

include h

theorem isAcyclic_step (hd : d ∈ directives lib.marker t) :
    some d.path ∉ t.root.source? :: hosts ∧ ∀ tech text u, Opens lib c d tech text u →
        ∃ depth', isAcyclic lib depth' (c.descend d.path) (t.root.source? :: hosts) u = true := by
  cases depth with
  | zero =>
    rw [isAcyclic, List.isEmpty_iff] at h
    rw [h] at hd
    cases hd
  | succ depth =>
    obtain ⟨hp, ho⟩ := Bool.and_eq_true_iff.1 (all_eq_true.1 h d hd)
    refine ⟨by simpa using hp, fun tech text u hop => ⟨depth, ?_⟩⟩
    rwa [hop.opened?] at ho

theorem not_mem_of_isAcyclic (hr : Mentions lib c t d tech text u) :
    some d.path ∉ t.root.source? :: hosts := by
  induction hr generalizing depth hosts with
  | here hd _ => exact (isAcyclic_step h hd).1
  | through hd ho _ ih =>
    obtain ⟨depth', h'⟩ := (isAcyclic_step h hd).2 _ _ _ ho
    exact fun hm => ih h' (.tail _ hm)

/-- No file is included under its own path. -/
theorem fresh_of_isAcyclic {c' : Context} (hv : Visits lib c t c' u) : Fresh lib c' u := by
  induction hv generalizing depth hosts with
  | self =>
    intro d tech text u hr hs
    exact not_mem_of_isAcyclic h hr.mentions (hs ▸ .head _)
  | through hd ho _ ih =>
    obtain ⟨depth', h'⟩ := (isAcyclic_step h hd.mem).2 _ _ _ ho
    exact ih h'

end Acyclic

theorem overwritten_of_mem_dropLast {w : Weft} (h : d ∈ (w.replacing n).dropLast) :
    Overwritten w.marker w.store n d := by
  cases hli : Directive.ofLiteral? w.marker n with
  | some d' =>
    rw [Weft.replacing_of_literal hli] at h
    cases h
  | none =>
    rw [Weft.replacing_of_none hli] at h
    split at h
    · next ha =>
      have hne : w.inside n ≠ [] := ne_nil_of_mem (dropLast_subset _ h)
      obtain ⟨key, hk, range, hl, hr⟩ := Weft.hollow_of_inside hne
      rw [Weft.inside_of_hollow hk hl hr] at h
      exact ⟨ha, ⟨key, hk, hl⟩, range, hr, h⟩
    · cases h

/-- What a directive of the tree itself brings. -/
theorem resolve_occurs (ht : tech.parse text source = .ok t) (hf : Fresh lib c t)
    (h : resolve lib depth c t = .ok t') (hn : n ∈ t.root.preorder)
    (hd : Takes lib.marker t.comments n d) (hl : ¬ Overwritten lib.marker t.comments n d) :
    Consumes lib c t d ∧
      ∃ ns, fetch lib (below lib depth) c d = .ok ns ∧ ∀ a ∈ ns, Occurs a t'.body := by
  have hr : Warped (weftOf lib depth c t) (directives lib.marker t) t.root :=
    warped_of_parse ht
  obtain ⟨-, -, hap⟩ := resolve_weaves ht hf h
  obtain ⟨list, hbo, hbo'⟩ := resolve_body ht hf h
  have hta : d ∈ (weftOf lib depth c t).taken n :=
    (mem_taken_iff (w := weftOf lib depth c t) (hr.native n hn).shaped).2 hd
  obtain ⟨⟨ns, hfe⟩, hgo⟩ := (hap n hn).taken d hta
  refine ⟨⟨taken_subset (w := weftOf lib depth c t) rfl hn hta, depth, t', h, hgo⟩, ns, hfe,
    fun a ha => ?_⟩
  have hdr : d ∉ ((weftOf lib depth c t).replacing n).dropLast := fun h =>
    hl (overwritten_of_mem_dropLast (w := weftOf lib depth c t) h)
  rw [← content_eq (S := t.comments) hfe] at ha
  obtain ⟨b, hb, hab⟩ := hr.occurs (fun m hm => (hap m hm).sole) hbo hn hta hdr ha
  -- a node of an included file has none of the comments that are gone
  have hs : a.eraseAll ((weftOf lib depth c t).spent t.root) = a :=
    (clean_of_mem_content (brings_below lib depth c) ha).eraseAll_eq fun com hc =>
      isIn_of_mem_spent (w := weftOf lib depth c t) hc
  rw [hbo']
  refine ⟨_, mem_map_of_mem hb, ?_⟩
  rw [Node.preorder_mapComments]
  exact mem_map.2 ⟨a, hab, hs⟩

theorem Opens.unique {tech' : Tech} {text' : String} {u u' : Tree} (h : Opens lib c d tech text u)
    (h' : Opens lib c d tech' text' u') : u = u' := by
  obtain rfl := Except.ok.inj (h.known.symm.trans h'.known)
  obtain rfl := Except.ok.inj (h.read.symm.trans h'.read)
  exact Except.ok.inj (h.parsed.symm.trans h'.parsed)

/-- What is resolved is there in the end. -/
theorem Lands.occurs (hla : Lands lib depth c t d ns) :
    ∀ {tech : Tech} {text : String} {source : Option String} {t' : Tree}, tech.parse text source = .ok t →
      (∀ c' u, Visits lib c t c' u → Fresh lib c' u) → resolve lib depth c t = .ok t' → ∀ a ∈ ns, Occurs a t'.body := by
  induction hla with
  | here hn hd hl hf =>
    intro tech text source t' ht hfr h
    obtain ⟨-, ns', hf', hoc⟩ := resolve_occurs ht (hfr _ _ .self) h hn hd hl
    obtain rfl := Except.ok.inj (hf.symm.trans hf')
    exact hoc
  | @through depth c t n d tech text u d' ns hn hd hl ho _ ih =>
    intro tech' text' source t' ht hfr h a ha
    obtain ⟨hm, ns', hf, hoc⟩ := resolve_occurs ht (hfr _ _ .self) h hn hd hl
    obtain ⟨tech₂, text₂, u₂, u', ho', hi, rfl⟩ :=
      fetch_eq_ok_iff (R := round lib (depth + 1) c).1 hf
    obtain rfl := ho.unique ho'
    exact (ih ho.parsed (fun c' u' hv => hfr c' u' (.through hm ho hv)) hi a ha).trans hoc

end Files

end Inclusion

open Inclusion

/-- Every directive that a node of a script takes is resolved. The nodes of
its file, and of the files that this file includes, are in the resolved
script, unless a directive stands in an empty array or object that has
another directive behind it. -/
theorem resolve_contents {lib : Library} {depth : Nat} {c : Context} {text : String}
    {source : Option String} {t t' : Tree} (ht : Tech.js.parse text source = .ok t)
    (hfresh : ∀ c' u, Visits lib c t c' u → Fresh lib c' u)
    (h : resolve lib depth c t = .ok t') :
    (∀ n ∈ t.root.preorder, ∀ d, Takes lib.marker t.comments n d →
      ¬ Overwritten lib.marker t.comments n d → ∃ ns, Lands lib depth c t d ns) ∧
      ∀ d ns, Lands lib depth c t d ns → ∀ a ∈ ns, Occurs a t'.body := by
  refine ⟨fun n hn d hd hlast => ?_, fun d ns hlands => hlands.occurs ht hfresh h⟩
  obtain ⟨-, ns, hfetch, -⟩ := resolve_occurs ht (hfresh _ _ .self) h hn hd hlast
  exact ⟨ns, .here hn hd hlast hfetch⟩

/-- A script that includes other scripts into a block. -/
def Script.branching : String := "if (a) \x7b /*borschik:include:a.js*/ \x7d b();"

theorem resolve_contents_branching :
    ∃ t t', Tech.js.parse Script.branching none = .ok t ∧
      (∀ c' u, Visits .nested (.start none none) t c' u → Fresh .nested c' u) ∧
      resolve .nested 3 (.start none none) t = .ok t' ∧
      ∃ n ∈ t.root.preorder, ∃ d, Takes Library.nested.marker t.comments n d ∧
        ¬ Overwritten Library.nested.marker t.comments n d ∧
        ∃ ns, Lands .nested 3 (.start none none) t d ns ∧ ∀ a ∈ ns, Occurs a t'.body := by
  have hok : ((Tech.js.parse Script.branching none).toOption.bind fun t =>
      (resolve .nested 3 (.start none none) t).toOption.map fun _ =>
        (isAcyclic .nested 3 (.start none none) [] t, t.root.preorder.any fun n =>
          !n.kind.isAtomic &&
            !((weftOf .nested 3 (.start none none) t).taken n).isEmpty)) =
      some (true, true) := by
    decide +kernel
  obtain ⟨t, ht, hok⟩ := Option.bind_eq_some_iff.1 hok
  obtain ⟨t', h, hok⟩ := Option.map_eq_some_iff.1 hok
  obtain ⟨hacyclic, hany⟩ := Prod.mk.inj hok
  replace ht := eq_ok_of_toOption ht
  replace h := eq_ok_of_toOption h
  obtain ⟨n, hn, htaken⟩ := any_eq_true.1 hany
  obtain ⟨hatomic, htaken⟩ := Bool.and_eq_true_iff.1 htaken
  obtain ⟨d, hd⟩ := exists_mem_of_ne_nil _ (isEmpty_eq_false_iff.1 (by simpa using htaken))
  have htakes := (mem_taken_iff (Tech.shaped_of_parse ht n hn)).1 hd
  have hlast : ¬ Overwritten Library.nested.marker t.comments n d := fun hover => by
    simp [hover.1] at hatomic
  have hfresh : ∀ c' u, Visits .nested (.start none none) t c' u → Fresh .nested c' u :=
    fun _ _ => fresh_of_isAcyclic hacyclic
  obtain ⟨hlands, hoccurs⟩ := resolve_contents ht hfresh h
  obtain ⟨ns, hns⟩ := hlands n hn d htakes hlast
  exact ⟨t, t', ht, hfresh, h, n, hn, d, htakes, hlast, ns, hns, hoccurs d ns hns⟩

def Library.numbers : Library := .ofFiles [("/a.json", "1"), ("/b.json", "2")]

/-- Of two directives in one array the file of the first is gone. -/
theorem resolve_overwrites :
    ∃ t t' com d ns,
      Tech.js.parse "x = [/*borschik:include:a.json*//*borschik:include:b.json*/]" none = .ok t ∧
      resolve .numbers 1 (.start none none) t = .ok t' ∧ com ∈ t.comments ∧ com ∉ t'.comments ∧
      Directive.ofComment? Library.numbers.marker com = some d ∧
      fetch .numbers (below .numbers 1) (.start none none) d = .ok ns ∧
      ∃ a ∈ ns, a ∉ t'.root.preorder := by
  have hok : ((Tech.js.parse "x = [/*borschik:include:a.json*//*borschik:include:b.json*/]"
      none).toOption.bind fun t =>
      (resolve .numbers 1 (.start none none) t).toOption.bind fun t' =>
        (t.comments.find? (· ∉ t'.comments)).bind fun com =>
          (Directive.ofComment? Library.numbers.marker com).bind fun d =>
            (fetch .numbers (below .numbers 1) (.start none none) d).toOption.map fun ns =>
              (ns.map (·.source?), t'.root.preorder.any (·.source? = some "a.json"))) =
      some ([some "a.json"], false) := by
    decide +kernel
  obtain ⟨t, ht, hok⟩ := Option.bind_eq_some_iff.1 hok
  obtain ⟨t', h, hok⟩ := Option.bind_eq_some_iff.1 hok
  obtain ⟨com, hcom, hok⟩ := Option.bind_eq_some_iff.1 hok
  obtain ⟨d, hd, hok⟩ := Option.bind_eq_some_iff.1 hok
  obtain ⟨ns, hns, hok⟩ := Option.map_eq_some_iff.1 hok
  obtain ⟨hsources, hnone⟩ := Prod.mk.inj hok
  obtain ⟨a, ha, hsource⟩ : ∃ a ∈ ns, a.source? = some "a.json" :=
    mem_map.1 (hsources ▸ .head _)
  have hgone : com ∉ t'.comments := by simpa using find?_some hcom
  refine ⟨t, t', com, d, ns, eq_ok_of_toOption ht, eq_ok_of_toOption h,
    mem_of_find?_eq_some hcom, hgone, hd, eq_ok_of_toOption hns, a, ha, fun hmem => ?_⟩
  simpa [hsource] using any_eq_false.1 hnone a hmem

end Inlay
