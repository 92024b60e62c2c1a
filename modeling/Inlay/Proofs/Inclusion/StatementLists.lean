/-
What stands in statement lists.

A body takes whatever is not atomic. From a script that is statements, but a
file may also hold one expression, which then stands among statements
without being one (`resolve_bare_expression`). That is the only way for
something else to come there (`resolve_bodies`).
-/
import Inlay.Proofs.Inclusion.Conservation

namespace Inlay

namespace Inclusion

variable {O : Node → Prop} {marker : String} {grows : Bool} {h r : Node} {hs rs : List Node}
  {a : Node} {t : Tree} {c : Context} {lib : Library}

/-- The body has statements, and nodes of the kinds that come from
included files. -/
def Stands (O : Node → Prop) (n : Node) : Prop :=
  ∀ list, n.children? "body" = some list → ∀ m ∈ list,
    m.kind.isStatement = true ∨ ∃ a, O a ∧ a.kind.isAtomic = false ∧ m.kind = a.kind

theorem isAtomic_of_isStatement {kind : Kind} (hk : kind.isStatement = true) :
    kind.isAtomic = false := by
  cases ha : kind.isAtomic with
  | false => rfl
  | true => cases kind <;> cases ha <;> cases hk

theorem KeptNodes.stands (hk : KeptNodes O marker grows hs rs)
    (hhs : ∀ m ∈ hs, m.kind.isStatement = true) :
    ∀ m ∈ rs, m.kind.isStatement = true ∨ ∃ a, O a ∧ a.kind.isAtomic = false ∧ m.kind = a.kind := by
  induction rs generalizing hs with
  | nil => nofun
  | cons r rs ih =>
    cases hk with
    | keep hi hr =>
      obtain ⟨hh, hhs⟩ := List.forall_mem_cons.1 hhs
      refine List.forall_mem_cons.2 ⟨.inl ?_, ih hr hhs⟩
      rw [hi.kind_eq (isAtomic_of_isStatement hh), hh]
    | gain ha hat hi hr =>
      exact List.forall_mem_cons.2 ⟨.inr ⟨_, ha, hat, hi.kind_eq hat⟩, ih hr hhs⟩

theorem Kept.stands (hk : Kept O marker h r) (hO : ∀ a, O a → a.Every Scripted)
    (hh : h.Every Scripted) : r.Every (Stands O) := by
  refine hk.every (Q := Stands O) hO (fun h r hli hp hs list hl => ?_) hh
  obtain ⟨v, hv, hf, -⟩ := hp.exists_lookup (Node.children?_eq_some_iff.1 hl)
  cases hf with
  | nodes hn => exact hn.stands (hs _ (Node.children?_eq_some_iff.2 hv))

theorem Included.every_scripted (ha : Included lib c t a) : a.Every Scripted := by
  obtain ⟨d, tech, text, u, hr, ha⟩ := ha
  obtain ⟨ns, hp⟩ := Tech.exists_parsed hr.mentions.parsed
  exact hp.every_of_mem_body (fun _ => Relabels.scripted_iff) hp.scripted ha

/-- What is neither a statement nor atomic comes from a file with one
expression. -/
theorem Included.exists_expression (ha : Included lib c t a) (hat : a.kind.isAtomic = false) :
    a.kind.isStatement = true ∨ ∃ d text u, Reaches lib c t d .json text u ∧ a ∈ u.body := by
  obtain ⟨d, tech, text, u, hr, ha⟩ := ha
  obtain ⟨ns, hp⟩ := Tech.exists_parsed hr.mentions.parsed
  obtain ⟨n, hn, hk⟩ := hp.exists_kind_of_mem_body ha
  cases tech with
  | js =>
    left
    rw [hk, hp.statements rfl n hn]
  | json => exact .inr ⟨d, text, u, hr, ha⟩
  | txt =>
    rw [hk, hp.literal rfl n hn] at hat
    cases hat

end Inclusion

open Inclusion (Reaches)

/-- The bodies of programs and blocks in a script that was resolved have
statements only, with one exception: the expression that a file holds
which is read as JSON, unless it is an object, an array or a literal. -/
theorem resolve_bodies {lib : Library} {depth : Nat} {c : Context} {text : String}
    {source : Option String} {t t' : Tree} (ht : Tech.js.parse text source = .ok t)
    (h : resolve lib depth c t = .ok t') :
    ∀ n ∈ t'.root.preorder, ∀ list, n.children? "body" = some list → ∀ m ∈ list,
      m.kind.isStatement = true ∨
        ∃ d text u a, Reaches lib c t d .json text u ∧ a ∈ u.body ∧ a.kind = m.kind ∧
          a.kind.isAtomic = false := by
  have hconserved := (Inclusion.resolve_conserves_shaped depth (Tech.shaped_of_parse ht)
    (Tech.nodup_of_parse ht) h).2
  obtain ⟨ns, hparsed⟩ := Tech.exists_parsed ht
  have hscripted := hparsed.every_scripted rfl
  have hstands := hconserved.root.stands (fun _ => Inclusion.Included.every_scripted) hscripted
  intro n hn list hlist m hm
  obtain hm | ⟨a, ha, hatomic, hkind⟩ := hstands n hn list hlist m hm
  · exact .inl hm
  · obtain hstatement | ⟨d, text, u, hreaches, hbody⟩ := ha.exists_expression hatomic
    · exact .inl (hkind ▸ hstatement)
    · exact .inr ⟨d, text, u, a, hreaches, hbody, hkind.symm, hatomic⟩

/-- A script whose function includes a script that includes a call. -/
def Script.calling : String := "function g() \x7b /*borschik:include:a.js*/ \x7d"

def Library.calls : Library :=
  .ofFiles [("/a.js", "h(); /*borschik:include:b.json*/"), ("/b.json", "f(1)")]

theorem resolve_bodies_calling :
    ∃ t t', Tech.js.parse Script.calling none = .ok t ∧
      resolve .calls 2 (.start none none) t = .ok t' ∧
      ∀ n ∈ t'.root.preorder, ∀ list, n.children? "body" = some list → ∀ m ∈ list,
        m.kind.isStatement = true ∨
          ∃ d text u a, Reaches .calls (.start none none) t d .json text u ∧ a ∈ u.body ∧
            a.kind = m.kind ∧ a.kind.isAtomic = false := by
  have hok : (Tech.js.parse Script.calling none >>= resolve .calls 2 (.start none none)).toBool =
      true := by decide +kernel
  obtain ⟨t', h⟩ := exists_of_toBool hok
  obtain ⟨t, hparse, hresolve⟩ := bind_ok_iff.1 h
  exact ⟨t, t', hparse, hresolve, resolve_bodies hparse hresolve⟩

/-- A name that is included among statements is no statement. -/
theorem resolve_bare_expression :
    ∃ t t', Tech.js.parse "/*borschik:include:a.json*/" none = .ok t ∧
      resolve (.ofFiles [("/a.json", "x")]) 1 (.start none none) t = .ok t' ∧
      t'.root.kind = .program ∧ ∃ m ∈ t'.body, m.kind.isStatement = false := by
  have hok : ((Tech.js.parse "/*borschik:include:a.json*/" none >>=
      resolve (.ofFiles [("/a.json", "x")]) 1 (.start none none)).toOption.map fun t' =>
        (t'.root.kind, t'.body.map (·.kind))) = some (.program, [.identifier]) := by
    decide +kernel
  obtain ⟨t', h, hkinds⟩ := Option.map_eq_some_iff.1 hok
  obtain ⟨t, hparse, hresolve⟩ := bind_ok_iff.1 (eq_ok_of_toOption h)
  obtain ⟨hkind, hbody⟩ := Prod.mk.inj hkinds
  obtain ⟨m, hm, hidentifier⟩ : ∃ m ∈ t'.body, m.kind = .identifier :=
    List.mem_map.1 (hbody ▸ List.mem_singleton_self _)
  exact ⟨t, t', hparse, hresolve, hkind, m, hm, by rw [hidentifier]; rfl⟩

end Inlay
