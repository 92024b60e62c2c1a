/-
Trees that come from files.

No node of a tree that was read has a key twice (`Loaded.keyed`). The nodes
of a file that was parsed have at most the one list that nodes may be
included into, under the key that belongs to their kind (`Shaped`).
-/
import Inlay.Proofs.Script.Hosts
import Inlay.Tech

namespace Inlay

open List Node

variable {f : Node → Node} {source : Option String} {text : String} {tech : Tech} {t : Tree}

-- == documents

namespace Entries

variable {α : Type} {key : String} {value : α} {entries : List (String × α)}

theorem map_fst_insert (key : String) (value : α) (entries : List (String × α)) :
    (insert key value entries).map (·.1) =
      if key ∈ entries.map (·.1) then entries.map (·.1) else entries.map (·.1) ++ [key] := by
  induction entries with
  | nil => rfl
  | cons e rest ih =>
    obtain ⟨k, v⟩ := e
    rw [insert]
    by_cases hk : k = key
    · simp [hk]
    · have hne : ¬key = k := fun h => hk h.symm
      simp only [beq_iff_eq, hk, if_false, map_cons, ih, mem_cons, hne, false_or]
      split <;> rfl

theorem nodup_insert (h : (entries.map (·.1)).Nodup) :
    ((insert key value entries).map (·.1)).Nodup := by
  rw [map_fst_insert]
  split
  · exact h
  · next hn => exact nodup_append.2 ⟨h, nodup_singleton key, by
      rintro k hk l hl rfl
      exact hn (mem_singleton.1 hl ▸ hk)⟩

theorem mem_insert {e : String × α} (h : e ∈ insert key value entries) :
    e ∈ entries ∨ e.2 = value := by
  induction entries with
  | nil => exact .inr (by rw [mem_singleton.1 h])
  | cons e' rest ih =>
    obtain ⟨k, v⟩ := e'
    rw [insert] at h
    split at h
    · rcases mem_cons.1 h with rfl | h
      · exact .inr rfl
      · exact .inl (mem_cons_of_mem _ h)
    · rcases mem_cons.1 h with rfl | h
      · exact .inl mem_cons_self
      · exact (ih h).imp_left (mem_cons_of_mem _)

/-- Merged entries have their keys once, and values that were there. -/
theorem merge_spec (entries : List (String × α)) :
    ((merge entries).map (·.1)).Nodup ∧ ∀ e ∈ merge entries, ∃ e' ∈ entries, e'.2 = e.2 := by
  have hf : ∀ (entries merged : List (String × α)) (P : α → Prop), (merged.map (·.1)).Nodup →
      (∀ e ∈ merged, P e.2) → (∀ e ∈ entries, P e.2) →
      ((entries.foldl (fun merged e => insert e.1 e.2 merged) merged).map (·.1)).Nodup ∧
        ∀ e ∈ entries.foldl (fun merged e => insert e.1 e.2 merged) merged, P e.2 := by
    intro entries
    induction entries with
    | nil => exact fun merged P hn hm _ => ⟨hn, hm⟩
    | cons e entries ih =>
      intro merged P hn hm hen
      rw [forall_mem_cons] at hen
      refine ih _ P (nodup_insert hn) (fun e' he' => ?_) hen.2
      rcases mem_insert he' with he' | heq
      · exact hm e' he'
      · rw [heq]
        exact hen.1
  exact hf entries [] (fun v => ∃ e' ∈ entries, e'.2 = v) .nil nofun fun e he => ⟨e, he, rfl⟩

end Entries

namespace Json

/-- No object has a key twice. -/
inductive Distinct : Json → Prop
  | null : Distinct .null
  | bool (b : Bool) : Distinct (.bool b)
  | num (n : Number) : Distinct (.num n)
  | str (s : String) : Distinct (.str s)
  | arr {items : List Json} (h : ∀ j ∈ items, Distinct j) : Distinct (.arr items)
  | obj {members : List (String × Json)} (hkeys : (members.map (·.1)).Nodup)
      (h : ∀ e ∈ members, Distinct e.2) : Distinct (.obj members)

mutual
theorem distinct_mergeKeys : ∀ j : Json, j.mergeKeys.Distinct
  | .null => .null
  | .bool b => .bool b
  | .num n => .num n
  | .str s => .str s
  | .arr items => .arr (distinct_mergeItems items)
  | .obj members => by
      obtain ⟨hk, hv⟩ := Entries.merge_spec (mergeMembers members)
      refine .obj hk fun e he => ?_
      obtain ⟨e', he', heq⟩ := hv e he
      rw [← heq]
      exact distinct_mergeMembers members e' he'

theorem distinct_mergeItems : ∀ items : List Json, ∀ j ∈ mergeItems items, j.Distinct
  | [] => nofun
  | j :: rest => forall_mem_cons.2 ⟨distinct_mergeKeys j, distinct_mergeItems rest⟩

theorem distinct_mergeMembers : ∀ members : List (String × Json),
    ∀ e ∈ mergeMembers members, e.2.Distinct
  | [] => nofun
  | (_, j) :: rest => forall_mem_cons.2 ⟨distinct_mergeKeys j, distinct_mergeMembers rest⟩
end

theorem Distinct.members {members : List (String × Json)} (h : Distinct (.obj members)) :
    (members.map (·.1)).Nodup ∧ ∀ e ∈ members, e.2.Distinct := by
  cases h with
  | obj hk h => exact ⟨hk, h⟩

theorem Distinct.items {items : List Json} (h : Distinct (.arr items)) :
    ∀ j ∈ items, j.Distinct := by
  cases h with
  | arr h => exact h

theorem distinct_of_ofText? {j : Json} (h : ofText? text = some j) : j.Distinct := by
  obtain ⟨j', -, rfl⟩ := Option.map_eq_some_iff.1 h
  exact distinct_mergeKeys j'

end Json

namespace Node

variable {n : Node} {members : List (String × Json)} {props : Node.Props}
  {read : Except DocumentError Node.Props}

theorem assemble_eq_ok_iff : assemble members read = .ok n ↔
    ∃ name leading trailing, members.lookup "type" = some (.str name) ∧ n.kind = .ofName name ∧
      reserved "range" Span.ofJson? members = .ok n.range ∧
      reserved "loc" Location.ofJson? members = .ok n.loc ∧
      reserved "leadingComments" commentsOfJson? members = .ok leading ∧ leading.getD [] = n.leading ∧
      reserved "trailingComments" commentsOfJson? members = .ok trailing ∧
        trailing.getD [] = n.trailing ∧
      read = .ok n.props ∧ ∀ key, n.kind.listKey = some key → (n.children? key).isSome = true := by
  constructor
  · intro h
    unfold assemble at h
    split at h
    · next name hn =>
      obtain ⟨kind, hk, h⟩ := bind_ok_iff.1 h
      cases hk
      obtain ⟨range, hr, h⟩ := bind_ok_iff.1 h
      obtain ⟨loc, hlo, h⟩ := bind_ok_iff.1 h
      obtain ⟨leading, hl, h⟩ := bind_ok_iff.1 h
      obtain ⟨trailing, ht, h⟩ := bind_ok_iff.1 h
      obtain ⟨props, hre, h⟩ := bind_ok_iff.1 h
      split at h
      · next key hke =>
        dsimp only at h
        split at h
        · next hli =>
          cases h
          refine ⟨name, leading, trailing, hn, rfl, hr, hlo, hl, rfl, ht, rfl,
            hre, fun key' hke' => ?_⟩
          cases hke.symm.trans hke'
          exact hli
        · cases h
      · next hno =>
        cases h
        refine ⟨name, leading, trailing, hn, rfl, hr, hlo, hl, rfl, ht, rfl,
          hre, fun key' hke' => ?_⟩
        cases hno.symm.trans hke'
    · cases h
  · rintro ⟨name, leading, trailing, hn, hk, hr, hlo, hl, hle, ht, htr, hre, hli⟩
    cases n
    cases hk
    cases hle
    cases htr
    unfold assemble
    rw [hn]
    dsimp only [pure_bind]
    rw [hr, hlo, hl, ht, hre]
    dsimp only [bind, Except.bind, pure, Except.pure]
    split
    · next key hke => exact if_pos (hli key hke)
    · rfl

theorem assemble_eq_ok (h : assemble members read = .ok n) : read = .ok n.props := by
  obtain ⟨_, _, _, -, -, -, -, -, -, -, -, hr, -⟩ := assemble_eq_ok_iff.1 h
  exact hr

/-- Data is what it was read from. -/
theorem eq_of_fieldOfJson_data {key : String} {j j' : Json}
    (h : fieldOfJson key j = .ok (.data j')) : j' = j := by
  unfold fieldOfJson at h
  split at h
  · split at h
    · obtain ⟨_, -, heq⟩ := map_eq_ok_iff.1 h
      cases heq
    · cases h
      rfl
  · split at h
    · obtain ⟨_, -, heq⟩ := map_eq_ok_iff.1 h
      cases heq
    · cases h
      rfl
  · cases h
    rfl

/-- Properties are members whose keys are not reserved, and data among
them is read as data again. -/
theorem propsOfMembers_spec (h : propsOfMembers members = .ok props) :
    (props.map (·.1)).Sublist (members.map (·.1)) ∧ ∀ e ∈ props, e.1 ∉ reservedKeys ∧
      ∀ j, e.2 = .data j → fieldOfJson e.1 j = .ok (.data j) := by
  induction members generalizing props with
  | nil =>
    cases h
    exact ⟨.slnil, nofun⟩
  | cons e members ih =>
    rw [propsOfMembers] at h
    split at h
    · obtain ⟨hs, hp⟩ := ih h
      exact ⟨hs.cons _, hp⟩
    · next hk =>
      obtain ⟨field, hf, h⟩ := bind_ok_iff.1 h
      obtain ⟨fields, hfi, h⟩ := bind_ok_iff.1 h
      cases h
      obtain ⟨hs, hp⟩ := ih hfi
      refine ⟨hs.cons_cons _, forall_mem_cons.2 ⟨⟨by simpa using hk, ?_⟩, hp⟩⟩
      rintro j' (rfl : field = .data j')
      rw [eq_of_fieldOfJson_data hf]
      rwa [eq_of_fieldOfJson_data hf] at hf

theorem every_hole {P : Node → Prop} (h : P hole) : hole.Every P := every_iff.2 ⟨h, nofun⟩

/-- What is known of values, and of the values in them, gives what is known
of a node that is read from one. -/
structure Reading (D : Json → Prop) (P : Node → Prop) : Prop where
  members : ∀ {members}, D (.obj members) → ∀ e ∈ members, D e.2
  items : ∀ {items}, D (.arr items) → ∀ j ∈ items, D j
  node : ∀ {members n}, D (.obj members) → ofMembers members = .ok n → P n
  hole : P hole

namespace Reading

variable {D : Json → Prop} {P : Node → Prop}

mutual
theorem every_props (hr : Reading D P) : ∀ (members : List (String × Json)) {props},
    (∀ e ∈ members, D e.2) → propsOfMembers members = .ok props →
      ∀ e ∈ props, ∀ m ∈ e.2.children, m.Every P
  | [], props, _, h => by
      cases h
      nofun
  | (key, j) :: rest, props, hd, h => by
      rw [forall_mem_cons] at hd
      rw [propsOfMembers] at h
      split at h
      · exact every_props hr rest hd.2 h
      · obtain ⟨field, hf, h⟩ := bind_ok_iff.1 h
        obtain ⟨fields, hfi, h⟩ := bind_ok_iff.1 h
        cases h
        exact forall_mem_cons.2 ⟨every_field hr key j hd.1 hf, every_props hr rest hd.2 hfi⟩

theorem every_field (hr : Reading D P) (key : String) : ∀ (j : Json) {field}, D j →
    fieldOfJson key j = .ok field → ∀ m ∈ field.children, m.Every P
  | .obj members, field, hd, h => by
      rw [fieldOfJson] at h
      split at h
      · obtain ⟨n, hn, rfl⟩ := map_eq_ok_iff.1 h
        have hp := every_props hr members (hr.members hd) (assemble_eq_ok hn)
        exact forall_mem_singleton.2 (every_iff_props.2 ⟨hr.node hd hn, hp⟩)
      · cases h
        nofun
  | .arr items, field, hd, h => by
      rw [fieldOfJson] at h
      split at h
      · obtain ⟨ns, hns, rfl⟩ := map_eq_ok_iff.1 h
        exact every_list hr items (hr.items hd) hns
      · cases h
        nofun
  | .null, field, _, h | .bool _, field, _, h | .num _, field, _, h | .str _, field, _, h => by
      cases h
      nofun

theorem every_list (hr : Reading D P) : ∀ (items : List Json) {ns}, (∀ j ∈ items, D j) →
    ofItems items = .ok ns → ∀ m ∈ ns, m.Every P
  | [], ns, _, h => by
      cases h
      nofun
  | .obj members :: rest, ns, hd, h => by
      rw [forall_mem_cons] at hd
      obtain ⟨n, hn, h⟩ := bind_ok_iff.1 h
      obtain ⟨ns, hns, h⟩ := bind_ok_iff.1 h
      cases h
      have hp := every_props hr members (hr.members hd.1) (assemble_eq_ok hn)
      exact forall_mem_cons.2 ⟨every_iff_props.2 ⟨hr.node hd.1 hn, hp⟩, every_list hr rest hd.2 hns⟩
  | .null :: rest, ns, hd, h | .bool _ :: rest, ns, hd, h | .num _ :: rest, ns, hd, h
  | .str _ :: rest, ns, hd, h | .arr _ :: rest, ns, hd, h => by
      rw [forall_mem_cons] at hd
      obtain ⟨ns, hns, h⟩ := bind_ok_iff.1 h
      cases h
      exact forall_mem_cons.2 ⟨every_hole hr.hole, every_list hr rest hd.2 hns⟩
end

theorem every (hr : Reading D P) (hd : D (.obj members)) (h : ofMembers members = .ok n) :
    n.Every P :=
  every_iff_props.2
    ⟨hr.node hd h, hr.every_props members (hr.members hd) (assemble_eq_ok h)⟩

end Reading

/-- Nodes that are read from objects without repeated keys have none. -/
theorem reading_keyed : Reading Json.Distinct (·.keys.Nodup) where
  members hd := hd.members.2
  items hd := hd.items
  node hd h := hd.members.1.sublist (propsOfMembers_spec (assemble_eq_ok h)).1
  hole := .nil

end Node

namespace Tree

/-- A tree that is read from a document is keyed. -/
theorem keyed_of_ofDocument (h : ofDocument text = .ok t) : t.root.Keyed := by
  unfold ofDocument at h
  split at h
  case h_2 => cases h
  next j hj =>
    have hd := Json.distinct_of_ofText? hj
    unfold ofJson at h
    split at h
    case h_2 => cases h
    next members =>
      obtain ⟨comments, -, h⟩ := bind_ok_iff.1 h
      obtain ⟨root, hr, h⟩ := bind_ok_iff.1 h
      cases h
      obtain ⟨hk, hd⟩ := hd.members
      have hs : (Entries.erase "comments" members).Sublist members := filter_sublist
      exact reading_keyed.every (.obj (hk.sublist (hs.map _)) fun e he => hd e (hs.subset he)) hr

end Tree

-- == shapes

/-- How the properties of a node of a parsed tree are. Nodes are included
into the one list that its kind has. -/
@[mk_iff]
structure Shaped (n : Node) : Prop where
  keys : n.keys.Nodup
  lists : ∀ key ∈ lendableKeys, ∀ list, n.children? key = some list → n.kind.listKey = some key

theorem Relabels.shaped_iff (h : Relabels f) (n : Node) : Shaped (f n) ↔ Shaped n := by
  simp [Inlay.shaped_iff, h.keys, h.children?, h.kind]

/-- The body of a node has statements only. -/
def Scripted (n : Node) : Prop :=
  ∀ list, n.children? "body" = some list → ∀ m ∈ list, m.kind.isStatement = true

theorem Relabels.scripted_iff (h : Relabels f) (n : Node) : Scripted (f n) ↔ Scripted n := by
  simp [Scripted, h.children?, h.kind]

/-- A list that nodes may be included into is all that a node has, and a
literal has no children. -/
@[mk_iff]
structure Compact (n : Node) : Prop where
  sole : ∀ key ∈ lendableKeys, ∀ list, n.children? key = some list → ∀ k ∈ n.kids, k.1.key = key
  leaf : n.kind = .literal → n.kids = []

theorem Relabels.compact_iff (h : Relabels f) (n : Node) : Compact (f n) ↔ Compact n := by
  simp only [Inlay.compact_iff, h.kids, h.children?, h.kind, forall_mem_map, map_eq_nil_iff,
    Option.map_eq_some_iff, forall_exists_index, and_imp, forall_apply_eq_imp_iff₂]

/-- The location is that of the range in the text. -/
def Located (text : List Char) (source : Option String) (n : Node) : Prop :=
  n.loc = n.range.map ((LineTable.ofText text).location · source)

/-- A node comes from a file if it stands anywhere. -/
def Sourced (source : Option String) (n : Node) : Prop := n.source? = n.range.bind fun _ => source

namespace Script

variable {text : List Char} {source : Option String} {t : Tree}

theorem Sits.compact {ts : List Token} {ns : List Node} (h : Sits ts ns) :
    ∀ n ∈ ns, n.Every Compact :=
  h.every ⟨nofun, fun _ => rfl⟩ fun _ _ _ _ hf =>
    ⟨fun key hk list hl => (hf.lists key hk list hl).2, hf.leaf⟩

theorem Formed.shaped {ts : List Token} {runs : List (List Token)} {n : Node}
    (h : Formed ts runs n) : Shaped n :=
  ⟨h.keys, fun key hk list hl => (h.lists key hk list hl).1⟩

theorem Sits.shaped {ts : List Token} {ns : List Node} (h : Sits ts ns) :
    ∀ n ∈ ns, n.Every Shaped := h.every ⟨.nil, nofun⟩ fun _ _ _ _ => Formed.shaped

theorem Sits.scripted {ts : List Token} {ns : List Node} (h : Sits ts ns) :
    ∀ n ∈ ns, n.Every Scripted := h.every nofun fun _ _ _ _ => Formed.body

/-- Comments apart, a tree that was read is a program with the nodes of
its body, located. -/
theorem root_of_parseWith {body : List Token → Except SyntaxError (List Node)}
    (h : parseWith body text source = .ok t) :
    ∃ lexed ns, lex text = .ok lexed ∧ body lexed.tokens = .ok ns ∧
      t.root.mapComments (fun _ => []) =
        ((programOf text ns).locate (LineTable.ofText text) source).mapComments fun _ => [] := by
  unfold parseWith at h
  obtain ⟨lexed, hl, h⟩ := bind_ok_iff.1 h
  obtain ⟨ns, hns, h⟩ := bind_ok_iff.1 h
  cases h
  exact ⟨lexed, ns, hl, hns, mapComments_foldl_attach⟩

end Script

-- == loaded trees

theorem Tree.mem_body_iff {n : Node} :
    n ∈ t.body ↔ ∃ list, t.root.children? "body" = some list ∧ n ∈ list := by
  unfold body
  cases t.root.children? "body" with
  | none => simp
  | some list => simp

/-- The tree of a file, whatever its tech: comments apart, it is a program
with some nodes in its body, located. -/
structure Parsed (tech : Tech) (text : List Char) (source : Option String) (ns : List Node)
    (t : Tree) : Prop where
  root : t.root.mapComments (fun _ => []) =
    ((Script.programOf text ns).locate (LineTable.ofText text) source).mapComments fun _ => []
  shaped : ∀ n ∈ ns, n.Every Shaped
  compact : ∀ n ∈ ns, n.Every Compact
  scripted : ∀ n ∈ ns, n.Every Scripted
  statements : tech = .js → ∀ n ∈ ns, n.kind.isStatement = true
  literal : tech = .txt → ∀ n ∈ ns, n.kind = .literal

/-- The nodes that a text has at its top level, as they are read. -/
inductive Tech.Reads (text : List Char) : Tech → List Node → Prop
  | statements {lexed ts ns} : Script.lex text = .ok lexed → ts ⊆ lexed.tokens →
      Script.Derives .top .statements ts ns → Reads text .js ns
  | expression {ts n} : Script.Derives .top .expression ts [n] → Reads text .json [n]
  | text : Reads text .txt
      [{ Node.bare .literal [("value", Field.ofString (String.ofList text))] with
          range := some ⟨0, Text.bytes text⟩ }]

theorem Tech.exists_read (h : tech.parse text source = .ok t) :
    ∃ ns, tech.Reads text.toList ns ∧ Parsed tech text.toList source ns t := by
  cases tech with
  | js =>
    obtain ⟨lexed, ns, hle, hns, hr⟩ := Script.root_of_parseWith (mapError_eq_ok_iff.1 h)
    obtain ⟨ts, e, ht, -, -, hd⟩ := Script.statements_sound (Script.lex_formed hle) hns
    have hs := Script.Tiles.sits hd.lies
    exact ⟨ns, .statements hle (ht ▸ subset_append_left ts _) hd, hr, hs.shaped, hs.compact, hs.scripted,
      fun _ => hd.areStatements, nofun⟩
  | json =>
    obtain ⟨lexed, ns, hle, hns, hr⟩ := Script.root_of_parseWith (mapError_eq_ok_iff.1 h)
    obtain ⟨n, hn, rfl⟩ := map_eq_ok_iff.1 hns
    obtain ⟨ts, e, -, -, -, hd⟩ := Script.soleExpression_sound (Script.lex_formed hle) hn
    have hs : Script.Sits ts [n] := hd.lies
    exact ⟨[n], .expression hd, hr, hs.shaped, hs.compact, hs.scripted, nofun, nofun⟩
  | txt =>
    cases h
    refine ⟨_, .text, rfl, forall_mem_singleton.2 ?_, forall_mem_singleton.2 ?_,
      forall_mem_singleton.2 ?_, nofun, fun _ => forall_mem_singleton.2 rfl⟩
    · refine every_iff.2 ⟨⟨nodup_singleton _, fun key hk list hl => ?_⟩, nofun⟩
      rcases mem_lendableKeys.1 hk with rfl | rfl | rfl <;> cases hl
    · exact every_iff.2 ⟨⟨nofun, fun _ => rfl⟩, nofun⟩
    · exact every_iff.2 ⟨nofun, nofun⟩

theorem Tech.exists_parsed (h : tech.parse text source = .ok t) :
    ∃ ns, Parsed tech text.toList source ns t :=
  (exists_read h).imp fun _ => And.right

namespace Parsed

variable {tech : Tech} {text : List Char} {source : Option String} {ns : List Node} {t : Tree}
  {a : Node} {P : Node → Prop} (h : Parsed tech text source ns t)

include h

theorem kind : t.root.kind = .program := by
  rw [← kind_mapComments fun _ => [], h.root, kind_mapComments, (relabels_locate _ _).kind]
  rfl

/-- What does not depend on labels. -/
theorem every_iff (hP : ∀ f, Relabels f → ∀ n, P (f n) ↔ P n) :
    t.root.Every P ↔ (Script.programOf text ns).Every P := by
  have hb := relabels_mapComments fun _ => []
  have hl := relabels_locate (LineTable.ofText text) source
  rw [← hb.every_iff (hP _ hb), h.root, hb.every_iff (hP _ hb), hl.every_iff (hP _ hl)]

theorem exists_of_mem_body (ha : a ∈ t.body) :
    ∃ n ∈ ns, a.mapComments (fun _ => []) =
      (n.locate (LineTable.ofText text) source).mapComments fun _ => [] := by
  obtain ⟨list, hl, ha⟩ := Tree.mem_body_iff.1 ha
  have hns : (Script.programOf text ns).children? "body" = some ns := rfl
  have hb := congrArg (·.children? "body") h.root
  simp only [children?_mapComments, hl, (relabels_locate _ _).children?, hns,
    Option.map_some, Option.some.injEq] at hb
  have hm := mem_map_of_mem (f := Node.mapComments fun _ => []) ha
  rw [hb, map_map] at hm
  obtain ⟨n, hn, heq⟩ := mem_map.1 hm
  exact ⟨n, hn, heq.symm⟩

/-- What all nodes of the top level are, whatever their labels. -/
theorem every_of_mem_body (hP : ∀ f, Relabels f → ∀ n, P (f n) ↔ P n) (hns : ∀ n ∈ ns, n.Every P)
    (ha : a ∈ t.body) : a.Every P := by
  obtain ⟨n, hn, heq⟩ := h.exists_of_mem_body ha
  have hb := relabels_mapComments fun _ => []
  have hl := relabels_locate (LineTable.ofText text) source
  rw [← hb.every_iff (hP _ hb), heq, hb.every_iff (hP _ hb), hl.every_iff (hP _ hl)]
  exact hns n hn

theorem exists_kind_of_mem_body (ha : a ∈ t.body) : ∃ n ∈ ns, a.kind = n.kind := by
  obtain ⟨n, hn, heq⟩ := h.exists_of_mem_body ha
  refine ⟨n, hn, ?_⟩
  rw [← kind_mapComments fun _ => [], heq, kind_mapComments, (relabels_locate _ _).kind]

/-- What holds of a program with the nodes of the body holds of all
nodes. -/
theorem every_of_root (hP : ∀ f, Relabels f → ∀ n, P (f n) ↔ P n)
    (hr : P (Script.programOf text ns)) (hns : ∀ n ∈ ns, n.Every P) : t.root.Every P := by
  rw [h.every_iff hP]
  exact Node.every_iff.2 ⟨hr, fun k hk => hns k.2 (Script.snd_mem_of_kids hk)⟩

/-- A script has statements only, its top level included. -/
theorem every_scripted (ht : tech = .js) : t.root.Every Scripted := by
  refine h.every_of_root (fun _ => Relabels.scripted_iff) (fun list hl => ?_) h.scripted
  cases hl
  exact h.statements ht

theorem located : t.root.Every (Located text source) := by
  have hb := relabels_mapComments fun _ => []
  have hl := relabels_locate (LineTable.ofText text) source
  have hs (n : Node) : Located text source (n.mapComments fun _ => []) ↔ Located text source n := by
    rw [Located, Located, loc_mapComments, range_mapComments]
  rw [← hb.every_iff hs, h.root, hb.every_iff hs]
  refine (hl.every_iff (P := fun _ => True) (fun n => iff_true_intro ?_) _).2 fun _ _ => trivial
  rw [Located, loc_locate, hl.range]

theorem sourced : t.root.Every (Sourced source) := by
  intro n hn
  rw [Sourced, Node.source?, h.located n hn]
  cases n.range <;> rfl

theorem range : t.root.range = some ⟨0, Text.bytes text⟩ := by
  rw [← range_mapComments fun _ => [], h.root, range_mapComments, (relabels_locate _ _).range]
  rfl

end Parsed

/-- A tree as a run starts from it: parsed from a file or read from a
document. -/
inductive Loaded : Tree → Prop
  | parsed {t : Tree} (tech : Tech) (text : String) (source : Option String)
      (h : tech.parse text source = .ok t) : Loaded t
  | document {t : Tree} (text : String) (h : Tree.ofDocument text = .ok t) : Loaded t

section

variable (h : tech.parse text source = .ok t)

include h

theorem Tech.shaped_of_parse : t.root.Every Shaped := by
  obtain ⟨ns, hp⟩ := exists_parsed h
  refine hp.every_of_root (fun _ => Relabels.shaped_iff) ?_ hp.shaped
  refine ⟨nodup_singleton _, fun key hk list hl => ?_⟩
  rcases mem_lendableKeys.1 hk with rfl | rfl | rfl
  · rfl
  · cases hl
  · cases hl

theorem Tech.compact_of_parse : t.root.Every Compact := by
  obtain ⟨ns, hp⟩ := exists_parsed h
  refine hp.every_of_root (fun _ => Relabels.compact_iff) ?_ hp.compact
  refine ⟨fun key hke list hl k hk => ?_, nofun⟩
  rcases mem_lendableKeys.1 hke with rfl | rfl | rfl
  · exact mem_singleton.1 (key_of_mem_kidsOf hk)
  · cases hl
  · cases hl

theorem Tech.keyed_of_parse : t.root.Keyed :=
  fun n hn => (shaped_of_parse h n hn).keys

theorem Tech.nodup_of_parse : t.comments.Nodup := by
  cases tech with
  | js =>
    obtain ⟨_, -, -, hp, -⟩ := Script.parse_placed (mapError_eq_ok_iff.1 h)
    exact hp.nodup_comments
  | json =>
    obtain ⟨_, -, -, hp⟩ := Script.parseExpression_placed (mapError_eq_ok_iff.1 h)
    exact hp.nodup_comments
  | txt =>
    cases h
    exact nodup_nil

theorem Tech.kind_of_parse : t.root.kind = .program :=
  (exists_parsed h).elim fun _ hp => hp.kind

end

theorem Loaded.keyed (h : Loaded t) : t.root.Keyed := by
  cases h with
  | parsed tech text source h => exact tech.keyed_of_parse h
  | document text h => exact Tree.keyed_of_ofDocument h

end Inlay
