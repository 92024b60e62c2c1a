/-
Documents of trees, read back.

A node is found again in its document if its own members can be told from
its properties and its plain data cannot be taken for nodes (`Legible`).
Whatever was read from a document is legible, so only holes can get lost:
the tree of a document is found again in its own document exactly when no
node but a bare item of a list `elements` is a hole
(`Tree.ofJson_toJson_of_ofJson`).
-/
import Inlay.Proofs.Tree.Loading

namespace Inlay

open Option (bind_eq_some_iff)

open List

variable {n : Nat} {s : Span} {p : Point} {b a j : Json} {l : Location} {c : Comment} {key : String}
  {α : Type} {cs : List Comment}

-- == numbers

theorem Json.nat?_ofNat (h : n < 2 ^ 64) : (Json.ofNat n).nat? = some n := by
  have hc : ((n : Int) < ((Nat.pow 2 64 : Nat) : Int)) := Int.ofNat_lt.2 h
  rw [ofNat, nat?, if_pos ⟨Int.natCast_nonneg n, hc⟩, Int.toNat_natCast]

theorem Json.lt_of_nat? (h : j.nat? = some n) : n < 2 ^ 64 := by
  unfold nat? at h
  split at h
  · split at h
    · next hb =>
      cases h
      exact (Int.toNat_lt hb.1).2 hb.2
    · cases h
  · cases h

/-- Positions fit into the words that a document has for them. -/
def Span.Fits (s : Span) : Prop := s.start < 2 ^ 64 ∧ s.stop < 2 ^ 64

def Point.Fits (p : Point) : Prop := p.line < 2 ^ 64 ∧ p.column < 2 ^ 64

def Location.Fits (l : Location) : Prop := l.start.Fits ∧ l.stop.Fits

structure Comment.Fits (c : Comment) : Prop where
  range : ∀ r, c.range = some r → r.Fits
  loc : ∀ l, c.loc = some l → l.Fits

-- == records

theorem Span.ofJson?_toJson (h : s.Fits) : ofJson? s.toJson = some s := by
  simp [toJson, ofJson?, Json.nat?_ofNat h.1, Json.nat?_ofNat h.2]

theorem Span.fits_of_ofJson? (h : ofJson? j = some s) : s.Fits := by
  unfold ofJson? at h
  split at h
  · simp only [Option.bind_eq_bind, bind_eq_some_iff, Option.pure_def, Option.some.injEq] at h
    obtain ⟨a, ha, b, hb, rfl⟩ := h
    exact ⟨Json.lt_of_nat? ha, Json.lt_of_nat? hb⟩
  · cases h

theorem Point.ofJson?_obj {line column : Nat} (ha : a.nat? = some line)
    (hb : b.nat? = some column) :
    ofJson? (.obj [("line", a), ("column", b)]) = some ⟨line, column⟩ := by
  have hr : record? ["line", "column"] (.obj [("line", a), ("column", b)]) =
      some [some a, some b] := rfl
  rw [ofJson?, hr]
  simp [ha, hb]

theorem Point.ofJson?_toJson (h : p.Fits) : ofJson? p.toJson = some p :=
  ofJson?_obj (Json.nat?_ofNat h.1) (Json.nat?_ofNat h.2)

theorem Point.fits_of_ofJson? (h : ofJson? j = some p) : p.Fits := by
  unfold ofJson? at h
  simp only [Option.bind_eq_bind, bind_eq_some_iff] at h
  obtain ⟨fields, -, h⟩ := h
  split at h
  · simp only [bind_eq_some_iff, Option.pure_def, Option.some.injEq] at h
    obtain ⟨a, ha, b, hb, rfl⟩ := h
    exact ⟨Json.lt_of_nat? ha, Json.lt_of_nat? hb⟩
  · cases h

theorem Location.ofJson?_obj {c : Json} {start stop : Point} {source : Option String}
    (ha : Point.ofJson? a = some start) (hb : Point.ofJson? b = some stop)
    (hc : optional? Json.string? (some c) = some source) :
    ofJson? (.obj [("start", a), ("end", b), ("source", c)]) = some ⟨start, stop, source⟩ := by
  have hr : record? ["start", "end", "source"]
      (.obj [("start", a), ("end", b), ("source", c)]) = some [some a, some b, some c] := rfl
  rw [ofJson?, hr]
  simp [ha, hb, hc]

theorem Location.ofJson?_toJson (h : l.Fits) : ofJson? l.toJson = some l := by
  refine ofJson?_obj (Point.ofJson?_toJson h.1) (Point.ofJson?_toJson h.2) ?_
  cases l.source <;> rfl

theorem Location.fits_of_ofJson? (h : ofJson? j = some l) : l.Fits := by
  unfold ofJson? at h
  simp only [Option.bind_eq_bind, bind_eq_some_iff] at h
  obtain ⟨fields, -, h⟩ := h
  split at h
  · simp only [bind_eq_some_iff, Option.pure_def, Option.some.injEq] at h
    obtain ⟨a, ha, b, hb, source, -, rfl⟩ := h
    exact ⟨Point.fits_of_ofJson? ha, Point.fits_of_ofJson? hb⟩
  · cases h

theorem CommentKind.ofJson?_name (k : CommentKind) : ofJson? (.str k.name) = some k := by
  cases k <;> rfl

section Optional

variable {α : Type} {read : Json → Option α} {toJson : α → Json}

/-- A member that may be missing is found again, for what is written is
no `null`. -/
theorem optional?_map {a : Option α} (hr : ∀ b, a = some b → read (toJson b) = some b)
    (hnu : ∀ b, (toJson b).isNull = false) : optional? read (a.map toJson) = some a := by
  cases a with
  | none => rfl
  | some b =>
    have hb := hr b rfl
    have hn := hnu b
    rw [Option.map_some]
    generalize toJson b = j at hb hn
    cases j with
    | null => cases hn
    | _ => exact congrArg (Option.map some) hb

theorem exists_of_optional? {j : Option Json} {a : Option α} (h : optional? read j = some a) {b : α}
    (hb : a = some b) : ∃ j', read j' = some b := by
  unfold optional? at h
  split at h
  · cases h
    cases hb
  · cases h
    cases hb
  · obtain ⟨b', hb', heq⟩ := Option.map_eq_some_iff.1 h
    cases heq.trans hb
    exact ⟨_, hb'⟩

end Optional

theorem Comment.ofJson?_toJson (h : c.Fits) : ofJson? c.toJson = some c := by
  have hre : record? ["type", "value", "range", "loc"] c.toJson =
      some [some (.str c.kind.name), some (.str c.value), c.range.map Span.toJson,
        c.loc.map Location.toJson] := by
    obtain ⟨kind, value, range, loc⟩ := c
    cases range <;> cases loc <;> rfl
  have hra : optional? Span.ofJson? (c.range.map Span.toJson) = some c.range :=
    optional?_map (fun r hr => Span.ofJson?_toJson (h.range r hr)) fun _ => rfl
  have hlo : optional? Location.ofJson? (c.loc.map Location.toJson) = some c.loc :=
    optional?_map (fun l hl => Location.ofJson?_toJson (h.loc l hl)) fun _ => rfl
  simp [ofJson?, hre, CommentKind.ofJson?_name, Json.string?, hra, hlo]

theorem Comment.fits_of_ofJson? (h : ofJson? j = some c) : c.Fits := by
  unfold ofJson? at h
  simp only [Option.bind_eq_bind, bind_eq_some_iff] at h
  obtain ⟨fields, -, h⟩ := h
  split at h
  · simp only [bind_eq_some_iff, Option.pure_def, Option.some.injEq] at h
    obtain ⟨kind, -, value, -, range, hra, loc, hlo, rfl⟩ := h
    refine ⟨fun r hr => ?_, fun l hl => ?_⟩
    · obtain ⟨j', hj'⟩ := exists_of_optional? hra hr
      exact Span.fits_of_ofJson? hj'
    · obtain ⟨j', hj'⟩ := exists_of_optional? hlo hl
      exact Location.fits_of_ofJson? hj'
  · cases h

/-- A store of comments is found again. -/
theorem commentsOfJson?_arr (h : ∀ c ∈ cs, c.Fits) :
    commentsOfJson? (.arr (cs.map Comment.toJson)) = some cs := by
  have ha : (cs.map Comment.toJson).mapM Comment.ofJson? = some cs := by
    induction cs with
    | nil => rfl
    | cons c cs ih =>
      rw [forall_mem_cons] at h
      simp [Comment.ofJson?_toJson h.1, ih h.2]
  exact ha

theorem fits_of_commentsOfJson? (h : commentsOfJson? j = some cs) : ∀ c ∈ cs, c.Fits := by
  simp only [commentsOfJson?, Option.bind_eq_bind, bind_eq_some_iff] at h
  obtain ⟨items, -, h⟩ := h
  induction items generalizing cs with
  | nil =>
    cases h
    nofun
  | cons j items ih =>
    simp only [mapM_cons, Option.bind_eq_bind, bind_eq_some_iff, Option.pure_def,
      Option.some.injEq] at h
    obtain ⟨c, hc, rest, hr, rfl⟩ := h
    exact forall_mem_cons.2 ⟨Comment.fits_of_ofJson? hc, ih hr⟩

-- == kinds

theorem Kind.name_of_mem_known : ∀ e ∈ known, e.1.name = e.2 := by decide

theorem Kind.name_ofName (name : String) : (ofName name).name = name := by
  unfold ofName
  split
  · next kind found hf =>
    have hn := find?_some hf
    rw [name_of_mem_known _ (mem_of_find?_eq_some hf)]
    exact eq_of_beq hn
  · rfl

theorem Kind.ofName_name {kind : Kind} (h : kind.isKnown = true) : ofName kind.name = kind := by
  cases kind with
  | other name => cases h
  | _ => rfl

-- == members

/-- The document of a property. -/
def Field.toJson : Field Node → Json
  | .node n => n.toJson
  | .nodes ns => .arr (ns.map Node.toJson)
  | .data j => j

theorem Node.jsonOfNodes_eq (ns : List Node) : jsonOfNodes ns = ns.map toJson := by
  induction ns with
  | nil => rfl
  | cons n ns ih => rw [jsonOfNodes, ih, map_cons]

theorem Node.jsonOfProps_eq (props : Node.Props) :
    jsonOfProps props = props.map fun e => (e.1, e.2.toJson) := by
  induction props with
  | nil => rfl
  | cons e props ih =>
    obtain ⟨key, field⟩ := e
    cases field <;> simp [jsonOfProps, ih, Field.toJson, jsonOfNodes_eq]

/-- The members of the object that a node is written as. -/
def Node.members (n : Node) : List (String × Json) :=
  ("type", .str n.kind.name) :: (n.props.map fun e => (e.1, e.2.toJson))
    ++ optionalEntry "range" Span.toJson n.range
    ++ optionalEntry "loc" Location.toJson n.loc
    ++ commentsEntry "leadingComments" n.leading
    ++ commentsEntry "trailingComments" n.trailing

theorem Node.toJson_hole {n : Node} (h : n.kind = .elision) : n.toJson = .null := by
  cases n
  rw [toJson, encode, if_pos h]

theorem Node.toJson_eq {n : Node} (h : n.kind ≠ .elision) : n.toJson = .obj n.members := by
  cases n
  rw [toJson, encode, if_neg h, jsonOfProps_eq]
  rfl

section Lookup

variable {α : Type} {key key' : String}

theorem lookup_singleton (a : α) :
    [(key, a)].lookup key' = if key' = key then some a else none := by
  by_cases h : key' = key
  · rw [if_pos h, h, lookup_cons_self]
  · have hne : (key' == key) = false := by simpa using h
    rw [if_neg h, lookup_cons, hne, lookup_nil]

theorem lookup_optionalEntry (toJson : α → Json) (a : Option α) :
    (optionalEntry key toJson a).lookup key' = if key' = key then a.map toJson else none := by
  cases a with
  | none => simp [optionalEntry]
  | some a => exact lookup_singleton _

/-- The list that an entry of comments stands for. There is none if there
are no comments. -/
def commentsMember (cs : List Comment) : Option Json :=
  if cs.isEmpty then none else some (.arr (cs.map Comment.toJson))

theorem lookup_commentsEntry (cs : List Comment) :
    (commentsEntry key cs).lookup key' = if key' = key then commentsMember cs else none := by
  cases cs with
  | nil => simp [commentsEntry, commentsMember]
  | cons c cs => exact lookup_singleton _

/-- The members of a node under a key that no property has. -/
theorem Node.lookup_members {n : Node} (hk : key ∉ n.keys) (ht : key ≠ "type") :
    n.members.lookup key = ((if key = "range" then n.range.map Span.toJson else none).or
        ((if key = "loc" then n.loc.map Location.toJson else none).or
          ((if key = "leadingComments" then commentsMember n.leading else none).or
            (if key = "trailingComments" then commentsMember n.trailing else none)))) := by
  have hp : (n.props.map fun e => (e.1, e.2.toJson)).lookup key = none := by
    rw [lookup_eq_none_iff, forall_mem_map]
    intro e he
    have hne : key ≠ e.1 := fun heq => hk (heq ▸ mem_map_of_mem he)
    simpa using hne
  have hne : (key == "type") = false := by simpa using ht
  rw [members, lookup_append, lookup_append, lookup_append, lookup_append,
    lookup_cons, hne, hp, lookup_optionalEntry, lookup_optionalEntry,
    lookup_commentsEntry, lookup_commentsEntry]
  simp [Option.or_assoc]

end Lookup

-- == nodes

/-- What a document can say of a node, its children apart. -/
structure Node.Legible (n : Node) : Prop where
  kind : Kind.ofName n.kind.name = n.kind
  keys : ∀ e ∈ n.props, e.1 ∉ reservedKeys
  /-- Plain data is not taken for nodes. -/
  data : ∀ e ∈ n.props, ∀ j, e.2 = .data j → Node.fieldOfJson e.1 j = .ok (.data j)
  list : ∀ key, n.kind.listKey = some key → (n.children? key).isSome = true
  range : ∀ r, n.range = some r → r.Fits
  loc : ∀ l, n.loc = some l → l.Fits
  comments : ∀ c ∈ n.leading ++ n.trailing, c.Fits

/-- The holes among a node's children are items of an array, and nothing
but holes. -/
def HolesPlaced (n : Node) : Prop :=
  ∀ e ∈ n.props, ∀ c ∈ e.2.children, c.kind = .elision →
    e.2.isList = true ∧ e.1 = "elements" ∧ c = .hole

theorem reserved_eq_ok {read : Json → Option α} {members : List (String × Json)} {a : Option α}
    (h : optional? read (members.lookup key) = some a) : reserved key read members = .ok a := by
  rw [reserved, h]

theorem optional?_of_reserved {read : Json → Option α} {members : List (String × Json)}
    {a : Option α} (h : reserved key read members = .ok a) :
    optional? read (members.lookup key) = some a := by
  unfold reserved at h
  split at h
  · next value hv =>
    cases h
    exact hv
  · cases h

theorem optional?_commentsMember (h : ∀ c ∈ cs, c.Fits) :
    ∃ read, optional? commentsOfJson? (commentsMember cs) = some read ∧ read.getD [] = cs := by
  cases cs with
  | nil => exact ⟨none, rfl, rfl⟩
  | cons c cs => exact ⟨some (c :: cs), congrArg (Option.map some) (commentsOfJson?_arr h), rfl⟩

namespace Node

variable {n : Node} {key : String} {members : List (String × Json)}
  {read : Except DocumentError Node.Props}

/-- The members of a legible node make up the node again if its properties
are found again. -/
theorem assemble_members_iff (h : Legible n) : assemble n.members read = .ok n ↔ read = .ok n.props := by
  have hk : ∀ key ∈ reservedKeys, key ∉ n.keys := by
    intro key hke hm
    obtain ⟨e, he, rfl⟩ := mem_map.1 hm
    exact h.keys e he hke
  have hc := forall_mem_append.1 h.comments
  obtain ⟨leading, hlea, hle⟩ := optional?_commentsMember hc.1
  obtain ⟨trailing, htr, ht⟩ := optional?_commentsMember hc.2
  rw [assemble_eq_ok_iff]
  constructor
  · rintro ⟨_, _, _, -, -, -, -, -, -, -, -, hre, -⟩
    exact hre
  · intro hre
    refine ⟨n.kind.name, leading, trailing, rfl, h.kind.symm, reserved_eq_ok ?_, reserved_eq_ok ?_,
      reserved_eq_ok ?_, hle, reserved_eq_ok ?_, ht, hre, h.list⟩
    · rw [lookup_members (hk "range" (by decide)) (by decide)]
      simpa using optional?_map (fun r hr => Span.ofJson?_toJson (h.range r hr)) fun _ => rfl
    · rw [lookup_members (hk "loc" (by decide)) (by decide)]
      simpa using optional?_map (fun l hl => Location.ofJson?_toJson (h.loc l hl)) fun _ => rfl
    · rw [lookup_members (hk "leadingComments" (by decide)) (by decide)]
      simpa using hlea
    · rw [lookup_members (hk "trailingComments" (by decide)) (by decide)]
      simpa using htr

theorem propsOfMembers_filter (members : List (String × Json)) :
    propsOfMembers (members.filter fun e => !reservedKeys.contains e.1) = propsOfMembers members := by
  induction members with
  | nil => rfl
  | cons e members ih =>
    obtain ⟨key, j⟩ := e
    rw [propsOfMembers]
    by_cases hk : reservedKeys.contains key = true
    · rw [if_pos hk, filter_cons_of_neg (by simpa using hk), ih]
    · rw [if_neg hk, filter_cons_of_pos (by simpa using hk), propsOfMembers, if_neg hk, ih]

/-- The members that are no properties are skipped. -/
theorem propsOfMembers_members (h : Legible n) :
    propsOfMembers n.members = propsOfMembers (n.props.map fun e => (e.1, e.2.toJson)) := by
  have hp : (n.props.map fun e => (e.1, e.2.toJson)).filter
      (fun e => !reservedKeys.contains e.1) = n.props.map fun e => (e.1, e.2.toJson) := by
    refine filter_eq_self.2 (forall_mem_map.2 fun e he => ?_)
    simpa using h.keys e he
  have hs {key : String} (hk : key ∈ reservedKeys) {entries : List (String × Json)}
      (hen : ∀ e ∈ entries, e.1 = key) :
      entries.filter (fun e => !reservedKeys.contains e.1) = [] := by
    refine filter_eq_nil_iff.2 fun e he => ?_
    simpa [hen e he] using hk
  have ho {α : Type} (key : String) (toJson : α → Json) (a : Option α) :
      ∀ e ∈ optionalEntry key toJson a, e.1 = key := by
    cases a <;> simp [optionalEntry]
  have hc (key : String) (cs : List Comment) : ∀ e ∈ commentsEntry key cs, e.1 = key := by
    cases cs <;> simp [commentsEntry]
  have hm : n.members.filter (fun e => !reservedKeys.contains e.1) =
      n.props.map fun e => (e.1, e.2.toJson) := by
    rw [members, filter_append, filter_append, filter_append, filter_append,
      ← singleton_append, filter_append, hp,
      hs (show "type" ∈ reservedKeys by decide) (by simp),
      hs (show "range" ∈ reservedKeys by decide) (ho _ _ _),
      hs (show "loc" ∈ reservedKeys by decide) (ho _ _ _),
      hs (show "leadingComments" ∈ reservedKeys by decide) (hc _ _),
      hs (show "trailingComments" ∈ reservedKeys by decide) (hc _ _)]
    simp only [nil_append, append_nil]
  rw [← propsOfMembers_filter, hm]

theorem propsOfMembers_map_iff {props : Node.Props} (hk : ∀ e ∈ props, e.1 ∉ reservedKeys) :
    propsOfMembers (props.map fun e => (e.1, e.2.toJson)) = .ok props ↔
      ∀ e ∈ props, fieldOfJson e.1 e.2.toJson = .ok e.2 := by
  induction props with
  | nil => exact ⟨fun _ => nofun, fun _ => rfl⟩
  | cons e props ih =>
    obtain ⟨key, value⟩ := e
    rw [forall_mem_cons] at hk
    have hke : ¬ reservedKeys.contains key = true := by simpa using hk.1
    rw [map_cons, propsOfMembers, if_neg hke, bind_ok_iff, forall_mem_cons, ← ih hk.2]
    constructor
    · rintro ⟨field, hf, h⟩
      obtain ⟨fields, hfi, h⟩ := bind_ok_iff.1 h
      cases h
      exact ⟨hf, hfi⟩
    · rintro ⟨hf, hfi⟩
      exact ⟨value, hf, bind_ok_iff.2 ⟨props, hfi, rfl⟩⟩

/-- A node is found again in its document if it is no hole and all its
properties are found again. -/
theorem ofJson_toJson_iff (h : Legible n) : ofJson n.toJson = .ok n ↔
    n.kind ≠ .elision ∧ ∀ e ∈ n.props, fieldOfJson e.1 e.2.toJson = .ok e.2 := by
  by_cases hk : n.kind = .elision
  · rw [toJson_hole hk]
    exact ⟨nofun, fun h => absurd hk h.1⟩
  · rw [toJson_eq hk, ofJson, ofMembers, assemble_members_iff h, propsOfMembers_members h,
      propsOfMembers_map_iff h.keys, and_iff_right hk]

-- == fields

theorem isNodeJson_toJson (hk : n.kind ≠ .elision) : isNodeJson n.toJson = true := by
  rw [toJson_eq hk]
  rfl

theorem fieldOfJson_node_iff :
    fieldOfJson key n.toJson = .ok (.node n) ↔ ofJson n.toJson = .ok n := by
  by_cases hk : n.kind = .elision
  · rw [toJson_hole hk]
    exact ⟨nofun, nofun⟩
  · have hno := isNodeJson_toJson hk
    rw [toJson_eq hk] at hno ⊢
    rw [fieldOfJson, if_pos hno, map_eq_ok_iff, ofJson, ofMembers]
    constructor
    · rintro ⟨m, hm, heq⟩
      cases heq
      exact hm
    · intro hn
      exact ⟨n, hn, rfl⟩

theorem ofItems_map_iff {ns : List Node} :
    ofItems (ns.map toJson) = .ok ns ↔ ∀ n ∈ ns, ofJson n.toJson = .ok n ∨ n = hole := by
  induction ns with
  | nil => exact ⟨fun _ => nofun, fun _ => rfl⟩
  | cons n ns ih =>
    rw [map_cons, forall_mem_cons, ← ih]
    by_cases hk : n.kind = .elision
    · rw [toJson_hole hk]
      show (ofItems (ns.map toJson) >>= fun ns => pure (hole :: ns)) = _ ↔ _
      rw [bind_ok_iff]
      constructor
      · rintro ⟨ns', hns, heq⟩
        cases heq
        exact ⟨.inr rfl, hns⟩
      · rintro ⟨hn | rfl, hns⟩
        · cases hn
        · exact ⟨ns, hns, rfl⟩
    · rw [toJson_eq hk, ofItems, bind_ok_iff, ofJson, ofMembers]
      constructor
      · rintro ⟨m, hm, h⟩
        obtain ⟨ns', hns, heq⟩ := bind_ok_iff.1 h
        cases heq
        exact ⟨.inl hm, hns⟩
      · rintro ⟨hn | rfl, hns⟩
        · exact ⟨n, hn, bind_ok_iff.2 ⟨ns, hns, rfl⟩⟩
        · exact absurd rfl hk

/-- A list is found again if its items are; holes are items of `elements`
only. -/
theorem fieldOfJson_nodes_iff {ns : List Node} :
    fieldOfJson key (.arr (ns.map toJson)) = .ok (.nodes ns) ↔
      ∀ n ∈ ns, ofJson n.toJson = .ok n ∨ key = "elements" ∧ n = hole := by
  have hi (n : Node) : (isNodeJson n.toJson || (key == "elements" && n.toJson.isNull)) = true ↔
      (n.kind = .elision → key = "elements") := by
    by_cases hk : n.kind = .elision
    · rw [toJson_hole hk]
      simp [hk, isNodeJson, Json.get?, Json.members?, Json.isNull]
    · simp [hk, isNodeJson_toJson hk]
  have hr {n : Node} (h : ofJson n.toJson = .ok n) : n.kind ≠ .elision := by
    intro hk
    rw [toJson_hole hk] at h
    cases h
  rw [fieldOfJson]
  split
  · next ha =>
    rw [all_map, all_eq_true] at ha
    have hke (n : Node) (hn : n ∈ ns) := (hi n).1 (ha n hn)
    rw [map_eq_ok_iff]
    constructor
    · rintro ⟨ns', hns, heq⟩ n hn
      cases heq
      rcases ofItems_map_iff.1 hns n hn with hn' | rfl
      · exact .inl hn'
      · exact .inr ⟨hke _ hn rfl, rfl⟩
    · intro h
      exact ⟨ns, ofItems_map_iff.2 fun n hn => (h n hn).imp_right (·.2), rfl⟩
  · next ha =>
    refine ⟨nofun, fun h => absurd ?_ ha⟩
    rw [all_map, all_eq_true]
    intro n hn
    refine (hi n).2 fun hk => ?_
    rcases h n hn with hn' | ⟨hke, -⟩
    · exact absurd hk (hr hn')
    · exact hke

/-- A property is found again if its nodes are, and if its holes can be. -/
theorem fieldOfJson_toJson_iff (h : Legible n) {e : String × Field Node} (he : e ∈ n.props) :
    fieldOfJson e.1 e.2.toJson = .ok e.2 ↔ ∀ c ∈ e.2.children, ofJson c.toJson = .ok c ∨
      e.2.isList = true ∧ e.1 = "elements" ∧ c = hole := by
  obtain ⟨key, field⟩ := e
  cases field with
  | node c => simpa [Field.toJson] using fieldOfJson_node_iff
  | nodes cs => simpa [Field.toJson] using fieldOfJson_nodes_iff
  | data j => simpa [Field.toJson] using h.data _ he j rfl

/-- A tree of legible nodes is found again in its document exactly when
its holes are in their places. -/
theorem ofJson_toJson_iff_every (h : n.Every Node.Legible) :
    ofJson n.toJson = .ok n ↔ n.kind ≠ .elision ∧ n.Every HolesPlaced := by
  induction n using induction_kids with
  | h n ih =>
    have hch {e : String × Field Node} (he : e ∈ n.props) {c : Node} (hc : c ∈ e.2.children) :
        ofJson c.toJson = .ok c ↔ c.kind ≠ .elision ∧ c.Every HolesPlaced := by
      have hm : c ∈ n.kids.map (·.2) := by
        rw [map_snd_kids]
        exact mem_flatMap.2 ⟨e, he, hc⟩
      obtain ⟨k, hk, rfl⟩ := mem_map.1 hm
      exact ih k hk ((every_iff.1 h).2 k hk)
    rw [ofJson_toJson_iff h.self, every_iff_props]
    refine and_congr_right fun _ => ⟨fun hf => ?_, fun hp e he => ?_⟩
    · have hr {e : String × Field Node} (he : e ∈ n.props) :=
        (fieldOfJson_toJson_iff h.self he).1 (hf e he)
      refine ⟨fun e he c hc hki => ?_, fun e he c hc => ?_⟩
      · rcases hr he c hc with hc' | hh
        · exact absurd hki ((hch he hc).1 hc').1
        · exact hh
      · rcases hr he c hc with hc' | ⟨-, -, rfl⟩
        · exact ((hch he hc).1 hc').2
        · exact every_hole nofun
    · refine (fieldOfJson_toJson_iff h.self he).2 fun c hc => ?_
      by_cases hki : c.kind = .elision
      · exact .inr (hp.1 e he c hc hki)
      · exact .inl ((hch he hc).2 ⟨hki, hp.2 e he c hc⟩)

-- == reading

theorem fits_of_reserved {comments : Option (List Comment)}
    (h : reserved key commentsOfJson? members = .ok comments) : ∀ c ∈ comments.getD [], c.Fits := by
  cases comments with
  | none => nofun
  | some cs =>
    obtain ⟨j, hj⟩ := exists_of_optional? (optional?_of_reserved h) rfl
    exact fits_of_commentsOfJson? hj

/-- A node that was read is legible by itself. -/
theorem legible_of_ofMembers (h : ofMembers members = .ok n) : Node.Legible n := by
  obtain ⟨name, leading, trailing, -, hk, hra, hlo, hlea, hle, htr, ht, hre,
    hli⟩ := assemble_eq_ok_iff.1 h
  have hp := (propsOfMembers_spec hre).2
  refine ⟨?_, fun e he => (hp e he).1, fun e he => (hp e he).2, hli, fun r hr => ?_,
    fun l hl => ?_, forall_mem_append.2 ⟨?_, ?_⟩⟩
  · rw [hk, Kind.name_ofName]
  · obtain ⟨j, hj⟩ := exists_of_optional? (optional?_of_reserved hra) hr
    exact Span.fits_of_ofJson? hj
  · obtain ⟨j, hj⟩ := exists_of_optional? (optional?_of_reserved hlo) hl
    exact Location.fits_of_ofJson? hj
  · exact hle ▸ fits_of_reserved hlea
  · exact ht ▸ fits_of_reserved htr

theorem every_legible_of_ofMembers (h : ofMembers members = .ok n) : n.Every Node.Legible :=
  Reading.every (D := fun _ => True) ⟨fun _ _ _ => trivial, fun _ _ _ => trivial,
    fun _ => legible_of_ofMembers, ⟨rfl, nofun, nofun, nofun, nofun, nofun, nofun⟩⟩ trivial h

end Node

-- == trees

namespace Tree

variable {t : Tree}

theorem ofJson_obj_eq_ok_iff :
    ofJson (.obj members) = .ok t ↔ ∃ comments,
      reserved "comments" commentsOfJson? members = .ok comments ∧
        Node.ofMembers (Entries.erase "comments" members) = .ok t.root ∧
        t.comments = comments.getD [] := by
  rw [ofJson, bind_ok_iff]
  refine exists_congr fun comments => and_congr_right fun _ => ?_
  rw [bind_ok_iff]
  constructor
  · rintro ⟨root, hr, h⟩
    cases h
    exact ⟨hr, rfl⟩
  · rintro ⟨hr, hc⟩
    exact ⟨t.root, hr, hc ▸ rfl⟩

/-- A tree is found again in its document exactly when its holes are in
their places. -/
theorem ofJson_toJson_iff (hr : t.root.Every Node.Legible) (hke : "comments" ∉ t.root.keys)
    (hc : ∀ c ∈ t.comments, c.Fits) :
    ofJson t.toJson = .ok t ↔ t.root.kind ≠ .elision ∧ t.root.Every HolesPlaced := by
  rw [← Node.ofJson_toJson_iff_every hr]
  by_cases hk : t.root.kind = .elision
  · rw [toJson, Node.toJson_hole hk]
    exact ⟨nofun, nofun⟩
  · have hn : t.root.members.lookup "comments" = none := by
      rw [Node.lookup_members hke (by decide)]
      rfl
    have hs : reserved "comments" commentsOfJson?
        (t.root.members ++ [("comments", .arr (t.comments.map Comment.toJson))]) =
          .ok (some t.comments) := by
      refine reserved_eq_ok ?_
      rw [lookup_append, hn, Option.none_or, lookup_cons_self]
      exact congrArg (Option.map some) (commentsOfJson?_arr hc)
    have her : Entries.erase "comments"
        (t.root.members ++ [("comments", .arr (t.comments.map Comment.toJson))]) = t.root.members := by
      rw [Entries.erase, filter_append, filter_eq_self.2, filter_cons_of_neg (by simp),
        filter_nil, append_nil]
      intro e he
      have hne := lookup_eq_none_iff.1 hn e he
      rwa [bne_comm] at hne
    rw [toJson, Node.toJson_eq hk, Node.ofJson]
    refine ofJson_obj_eq_ok_iff.trans ?_
    rw [her]
    constructor
    · rintro ⟨_, -, h, -⟩
      exact h
    · intro h
      exact ⟨_, hs, h, rfl⟩

/-- Every tree that was read from a document is legible, down to its store
of comments. -/
theorem legible_of_ofJson {v : Json} (h : ofJson v = .ok t) :
    t.root.Every Node.Legible ∧ "comments" ∉ t.root.keys ∧ ∀ c ∈ t.comments, c.Fits := by
  cases v with
  | obj members =>
    obtain ⟨comments, hs, hr, hc⟩ := ofJson_obj_eq_ok_iff.1 h
    refine ⟨Node.every_legible_of_ofMembers hr, fun hk => ?_, ?_⟩
    · obtain ⟨m, hm, heq⟩ :=
        mem_map.1 ((Node.propsOfMembers_spec (Node.assemble_eq_ok hr)).1.subset hk)
      have hne := (mem_filter.1 hm).2
      rw [heq] at hne
      exact absurd hne (by decide)
    · rw [hc]
      exact Node.fits_of_reserved hs
  | _ => cases h

/-- A document that was loaded is found again in what is written of it,
exactly when none of its objects named itself a hole, other than in a list
of elements and without anything in it. -/
theorem ofJson_toJson_of_ofJson {v : Json} {t : Tree} (h : ofJson v = .ok t) :
    ofJson t.toJson = .ok t ↔ t.root.kind ≠ .elision ∧ t.root.Every HolesPlaced := by
  obtain ⟨hroot, hkeys, hcomments⟩ := legible_of_ofJson h
  exact ofJson_toJson_iff hroot hkeys hcomments

/-- The document of a foreign list with two holes in it, one of them spelled
out. -/
def sparse : Json :=
  .obj [("type", .str "TupleExpression"),
    ("elements", .arr [.null, .obj [("type", .str "Elision")]]), ("rest", .null)]

theorem ofJson_toJson_of_ofJson_sparse : ∃ t, ofJson sparse = .ok t ∧ ofJson t.toJson = .ok t := by
  refine ⟨⟨⟨.other "TupleExpression", [("elements", .nodes [.hole, .hole]), ("rest", .data .null)],
    none, none, [], []⟩, []⟩, rfl, ?_⟩
  refine (ofJson_toJson_of_ofJson (v := sparse) ?_).2 ⟨by simp, Node.every_iff_props.2 ⟨?_, ?_⟩⟩
  · rfl
  · simp [HolesPlaced, Field.children, Field.isList]
  · simp [Field.children, Node.every_hole (P := HolesPlaced) (by rintro _ ⟨⟩)]

/-- A hole among the statements of a program is written as `null`, and what
was written is refused. -/
theorem ofJson_toJson_hole_statement :
    ∃ t, ofJson (.obj [("type", .str "Program"), ("body", .arr [.obj [("type", .str "Elision")]])]) =
        .ok t ∧
      ofJson t.toJson = .error (.notNodeList .program "body") :=
  ⟨_, rfl, rfl⟩

end Tree

end Inlay
