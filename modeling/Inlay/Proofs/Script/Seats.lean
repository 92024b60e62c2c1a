/-
The seats of nodes.

A node that is read takes a run of tokens, its seat, and spans it. The
seats of its children lie in its own, in the order of a walk, with other
tokens before, behind and between them; a hole takes no token. A list of
statements leaves no token out, and an empty array or object has its
brackets and nothing else. All of this is read off the grammar
(`Derives.lies`).
-/
import Inlay.Proofs.Script.Derivation
import Inlay.Proofs.Tree.Kids

namespace Inlay

open List

variable {key : String}

-- == children

/-- The children that a property holds. -/
def Field.children : Field Node → List Node
  | .node n => [n]
  | .nodes ns => ns
  | .data _ => []

@[simp] theorem Field.children_node (n : Node) : (Field.node n).children = [n] := rfl

@[simp] theorem Field.children_nodes (ns : List Node) : (Field.nodes ns).children = ns := rfl

@[simp] theorem Field.children_data (j : Json) : (Field.data j).children = [] := rfl

@[simp] theorem Field.children_ofString (s : String) : (Field.ofString s).children = [] := rfl

@[simp] theorem Field.children_ofBool (b : Bool) : (Field.ofBool b).children = [] := rfl

@[simp] theorem Field.children_ofNode? (n : Option Node) :
    (Field.ofNode? n).children = n.toList := by
  cases n <;> rfl

/-- Whether the property is a list of nodes. -/
@[simp] def Field.isList : Field Node → Bool
  | .nodes _ => true
  | _ => false

@[simp] theorem mem_lendableKeys :
    key ∈ lendableKeys ↔ key = "body" ∨ key = "elements" ∨ key = "properties" := by
  simp [lendableKeys]

theorem Field.map_snd_kids (key : String) (f : Field Node) : (f.kids key).map (·.2) = f.children := by
  cases f with
  | node n => rfl
  | nodes ns => exact map_snd_items key 0 ns
  | data j => rfl

theorem Node.map_snd_kids (n : Node) : n.kids.map (·.2) = n.props.flatMap (·.2.children) := by
  rw [Node.kids, Node.kidsOf, map_flatMap]
  simp only [Field.map_snd_kids]

theorem Node.every_iff_props {P : Node → Prop} {n : Node} :
    n.Every P ↔ P n ∧ ∀ e ∈ n.props, ∀ m ∈ e.2.children, m.Every P := by
  have hk : (∀ k ∈ n.kids, k.2.Every P) ↔ ∀ m ∈ n.kids.map (·.2), m.Every P :=
    forall_mem_map.symm
  rw [every_iff, hk, map_snd_kids, forall_mem_flatMap]

/-- The list of a node that is not atomic is the body of a program or a
block. -/
theorem Kind.isContainer_of_listKey {kind : Kind} (hk : kind.listKey = some key)
    (hl : kind.isAtomic = false ∨ key = "body") : key = "body" ∧ kind.isContainer = true := by
  unfold listKey at hk
  split at hk
  · cases hk
    exact ⟨rfl, rfl⟩
  · cases hk
    exact ⟨rfl, rfl⟩
  · cases hk
    simp [isAtomic] at hl
  · cases hk
    simp [isAtomic] at hl
  · cases hk

/-- Statements and declarations. -/
def Kind.isStatement : Kind → Bool
  | blockStatement | emptyStatement | expressionStatement | variableDeclaration
  | functionDeclaration | returnStatement | ifStatement | forStatement | forInStatement
  | whileStatement | doWhileStatement | breakStatement | continueStatement | throwStatement
  | tryStatement | switchStatement | debuggerStatement | labeledStatement | withStatement => true
  | _ => false

namespace Script

theorem Derives.isStatement {F : Frame} {ts : List Token} {n : Node}
    (h : Derives F .statement ts [n]) : n.kind.isStatement = true := by
  cases h with
  | ofBlock h =>
    cases h
    rfl
  | ofFunctionDeclaration h =>
    cases h
    rfl
  | declarationStatement h =>
    cases h
    rfl
  | jump hk => obtain ⟨-, rfl⟩ | ⟨-, rfl⟩ := hk <;> rfl
  | jumpTo hk => obtain ⟨-, rfl⟩ | ⟨-, rfl⟩ := hk <;> rfl
  | _ => rfl

theorem Derives.areStatements {F : Frame} {ts : List Token} {ns : List Node}
    (h : Derives F .statements ts ns) : ∀ n ∈ ns, n.kind.isStatement = true := by
  induction ns generalizing ts with
  | nil => nofun
  | cons n ns ih =>
    cases h with
    | statementsCons hn hns => exact forall_mem_cons.2 ⟨hn.isStatement, ih hns⟩

-- == seats

/-- Runs of tokens that stand in a list of tokens one behind the other. -/
inductive Laid : List Token → List (List Token) → Prop
  | nil : Laid [] []
  | skip {t ts runs} : Laid ts runs → Laid (t :: ts) runs
  | run {us ts runs} : Laid ts runs → Laid (us ++ ts) (us :: runs)

/-- What the grammar says of a node that takes the tokens `ts` and whose
children take the runs. -/
structure Formed (ts : List Token) (runs : List (List Token)) (n : Node) : Prop where
  range : n.range = some (extent ts)
  keys : n.keys.Nodup
  kind : n.kind ≠ .program
  bare : n.leading = [] ∧ n.trailing = []
  /-- A list that nodes may be included into is all that the node has. -/
  lists : ∀ key ∈ lendableKeys, ∀ list, n.children? key = some list →
    n.kind.listKey = some key ∧ ∀ k ∈ n.kids, k.1.key = key
  body : ∀ list, n.children? "body" = some list → ∀ m ∈ list, m.kind.isStatement = true
  leaf : n.kind = .literal → n.kids = []
  word : n.kind = .identifier → ∃ t, ts = [t] ∧ t.kind = .word ∧ n.string? "name" = some t.text
  number : n.kind = .literal → ∃ t, ts = [t] ∧ (t.kind = .number →
    ∃ v, numberValue? t.text = some v ∧ n.props = literalProps v.toJson t.text)
  framed : n.kind = .blockStatement ∨ (∃ key ∈ lendableKeys, n.children? key = some []) →
    ∃ lb rb, ts = lb :: (runs.flatten ++ [rb])

/-- The node takes the tokens. -/
inductive Seat : List Token → Node → Prop
  | hole : Seat [] Node.hole
  | node {ts n} (seats : List (List Token × Node)) (hne : ts ≠ [])
      (hkids : n.kids.map (·.2) = seats.map (·.2)) (hlaid : Laid ts (seats.map (·.1)))
      (hformed : Formed ts (seats.map (·.1)) n) (hseats : ∀ x ∈ seats, Seat x.1 x.2) : Seat ts n

/-- The nodes have their seats among the tokens, one behind the other. -/
def Sits (ts : List Token) (ns : List Node) : Prop :=
  ∃ seats : List (List Token × Node), seats.map (·.2) = ns ∧ Laid ts (seats.map (·.1)) ∧
    ∀ x ∈ seats, Seat x.1 x.2

/-- The nodes have their seats among the tokens, and no token is left. -/
def Tiles (ts : List Token) (ns : List Node) : Prop :=
  ∃ seats : List (List Token × Node), seats.map (·.2) = ns ∧ (seats.map (·.1)).flatten = ts ∧
    ∀ x ∈ seats, Seat x.1 x.2

-- == layouts

variable {F : Frame} {s : Symbol} {t : Token} {ts us : List Token} {n : Node} {ns ms : List Node}
  {rb lb : Token} {key : String} {P : Node → Prop} {props : Node.Props}
  {kind : Kind}

theorem Laid.flatten (runs : List (List Token)) : Laid runs.flatten runs := by
  induction runs with
  | nil => exact .nil
  | cons run runs ih => exact .run ih

theorem Laid.append {runs runs' : List (List Token)} (h : Laid ts runs) (h' : Laid us runs') :
    Laid (ts ++ us) (runs ++ runs') := by
  induction h with
  | nil => exact h'
  | skip _ ih => exact .skip ih
  | @run vs ts runs _ ih =>
    rw [append_assoc, cons_append]
    exact .run ih

theorem Laid.exists_of_mem {runs : List (List Token)} (h : Laid ts runs) (hus : us ∈ runs) :
    ∃ as bs, ts = as ++ (us ++ bs) := by
  induction h with
  | nil => cases hus
  | @skip t ts runs _ ih =>
    obtain ⟨as, bs, rfl⟩ := ih hus
    exact ⟨t :: as, bs, rfl⟩
  | @run vs ts runs _ ih =>
    rcases mem_cons.1 hus with rfl | hus
    · exact ⟨[], ts, rfl⟩
    · obtain ⟨as, bs, rfl⟩ := ih hus
      exact ⟨vs ++ as, bs, by simp⟩

namespace Sits

theorem nil : Sits [] [] := ⟨[], rfl, .nil, nofun⟩

theorem skip (h : Sits ts ns) : Sits (t :: ts) ns := by
  obtain ⟨seats, hns, hl, hs⟩ := h
  exact ⟨seats, hns, hl.skip, hs⟩

theorem append (h : Sits ts ns) (h' : Sits us ms) : Sits (ts ++ us) (ns ++ ms) := by
  obtain ⟨seats, rfl, hl, hs⟩ := h
  obtain ⟨seats', rfl, hl', hs'⟩ := h'
  refine ⟨seats ++ seats', map_append .., ?_, forall_mem_append.2 ⟨hs, hs'⟩⟩
  rw [map_append]
  exact hl.append hl'

theorem empty (ts : List Token) : Sits ts [] := by
  induction ts with
  | nil => exact .nil
  | cons t ts ih => exact ih.skip

theorem before (h : Sits ts ns) (us : List Token) : Sits (us ++ ts) ns := (empty us).append h

theorem behind (h : Sits ts ns) (us : List Token) : Sits (ts ++ us) ns := by
  simpa using h.append (empty us)

theorem of_seat (h : Seat ts n) : Sits ts [n] := by
  refine ⟨[(ts, n)], rfl, ?_, by simpa using h⟩
  simpa using Laid.flatten [ts]

theorem hole (h : Sits ts ns) : Sits ts (Node.hole :: ns) := by
  simpa using (of_seat .hole).append h

end Sits

namespace Tiles

theorem sits (h : Tiles ts ns) : Sits ts ns := by
  obtain ⟨seats, hns, rfl, hs⟩ := h
  exact ⟨seats, hns, .flatten _, hs⟩

theorem nil : Tiles [] [] := ⟨[], rfl, rfl, nofun⟩

theorem cons (h : Seat ts n) (h' : Tiles us ns) : Tiles (ts ++ us) (n :: ns) := by
  obtain ⟨seats, rfl, rfl, hs⟩ := h'
  exact ⟨(ts, n) :: seats, rfl, rfl, forall_mem_cons.2 ⟨h, hs⟩⟩

theorem of_seat (h : Seat ts n) : Tiles ts [n] := by simpa using Tiles.cons h nil

theorem seat (h : Tiles ts [n]) : Seat ts n := by
  obtain ⟨seats, hns, rfl, hs⟩ := h
  obtain ⟨x, rfl, rfl⟩ := map_eq_singleton_iff.1 hns
  simpa using hs x (mem_singleton_self x)

end Tiles

-- == nodes

/-- A node without a list that nodes may be included into. -/
structure IsPlain (kind : Kind) (props : List (String × Field Node)) : Prop where
  keys : (props.map (·.1)).Nodup
  loose : kind ≠ .program ∧ kind ≠ .blockStatement
  lists : ∀ e ∈ props, e.1 ∈ lendableKeys → e.2.isList = false
  leaf : kind = .literal → ∀ e ∈ props, e.2.children = []

theorem isPlain_iff :
    IsPlain kind props ↔ (props.map (·.1)).Nodup ∧ (kind ≠ .program ∧ kind ≠ .blockStatement) ∧
      (∀ e ∈ props, e.1 ∈ lendableKeys → e.2.isList = false) ∧
      (kind = .literal → ∀ e ∈ props, e.2.children = []) :=
  ⟨fun h => ⟨h.keys, h.loose, h.lists, h.leaf⟩, fun h => ⟨h.1, h.2.1, h.2.2.1, h.2.2.2⟩⟩

theorem Sits.seat (h : Sits ts ns) (hns : props.flatMap (·.2.children) = ns := by simp)
    (hne : ts ≠ [] := by simp) (hp : IsPlain kind props := by simp [isPlain_iff])
    (hw : kind = .identifier → ∃ t, ts = [t] ∧ t.kind = .word ∧
      (spanned kind props ts).string? "name" = some t.text := by rintro ⟨⟩)
    (hnu : kind = .literal → ∃ t, ts = [t] ∧ (t.kind = .number →
      ∃ v, numberValue? t.text = some v ∧ props = literalProps v.toJson t.text) := by rintro ⟨⟩) :
    Seat ts (spanned kind props ts) := by
  obtain ⟨seats, hs, hla, ha⟩ := h
  have hl : ∀ key ∈ lendableKeys, ∀ list, (spanned kind props ts).children? key ≠ some list := by
    intro key hke list hl
    rw [Node.children?] at hl
    split at hl
    · next list' hg =>
      obtain ⟨front, rest, hpr, -⟩ := Entries.split_of_lookup hg
      have hm : (key, Field.nodes list') ∈ (spanned kind props ts).props := by simp [hpr]
      have hn := hp.lists _ hm hke
      cases hn
    · cases hl
  refine .node seats hne ?_ hla ⟨rfl, hp.keys, hp.loose.1, ⟨rfl, rfl⟩, ?_, ?_, ?_, hw, hnu, ?_⟩ ha
  · rw [hs, Node.map_snd_kids]
    exact hns
  · intro key hke list hg
    exact absurd hg (hl key hke list)
  · intro list hg
    exact absurd hg (hl "body" (by simp) list)
  · intro hk
    have hc : (spanned kind props ts).kids.map (·.2) = [] := by
      rw [Node.map_snd_kids]
      exact flatMap_eq_nil_iff.2 (hp.leaf hk)
    exact map_eq_nil_iff.1 hc
  · rintro (hb | ⟨key, hke, hg⟩)
    · exact absurd hb hp.loose.2
    · exact absurd hg (hl key hke [])

theorem seat_list {seats : List (List Token × Node)} (hki : kind ≠ .program)
    (hke : kind.listKey = some key) (hns : seats.map (·.2) = ns) (hla : Laid ts (seats.map (·.1)))
    (hs : ∀ x ∈ seats, Seat x.1 x.2) (hbo : key = "body" → ∀ n ∈ ns, n.kind.isStatement = true)
    (ht : kind = .blockStatement ∨ ns = [] → (seats.map (·.1)).flatten = ts) :
    Seat (lb :: (ts ++ [rb])) (spanned kind [(key, .nodes ns)] (lb :: (ts ++ [rb]))) := by
  have hl : ∀ key' list, (spanned kind [(key, .nodes ns)] (lb :: (ts ++ [rb]))).children? key' =
      some list → key' = key ∧ list = ns := by
    intro key' list hl
    simp only [Node.children?, Node.get?, spanned, Node.bare, lookup_cons, lookup_nil] at hl
    cases hbe : key' == key with
    | false => simp [hbe] at hl
    | true =>
      simp only [hbe, Option.some.injEq] at hl
      exact ⟨eq_of_beq hbe, hl.symm⟩
  refine .node seats (cons_ne_nil lb _) ?_ ?_ ⟨rfl, nodup_singleton key, hki,
    ⟨rfl, rfl⟩, ?_, ?_, ?_, ?_, ?_, ?_⟩ hs
  · rw [hns, Node.map_snd_kids]
    exact append_nil ns
  · rw [← append_nil (seats.map (·.1))]
    exact (hla.append (.skip .nil)).skip
  · intro key' _ list h
    rw [(hl key' list h).1]
    refine ⟨hke, fun k hk => ?_⟩
    rw [Node.kids, spanned, Node.bare, Node.kidsOf_cons] at hk
    exact Field.key_of_mem_kids (by simpa [Node.kidsOf] using hk)
  · intro list h
    obtain ⟨hke', rfl⟩ := hl "body" list h
    exact hbo hke'.symm
  · rintro (hli : kind = .literal)
    rw [hli] at hke
    cases hke
  · rintro (hi : kind = .identifier)
    rw [hi] at hke
    cases hke
  · rintro (hli : kind = .literal)
    rw [hli] at hke
    cases hke
  · rintro (hb | ⟨key', -, he⟩)
    · exact ⟨lb, rb, by rw [ht (.inl hb)]⟩
    · exact ⟨lb, rb, by rw [ht (.inr (hl key' [] he).2.symm)]⟩

theorem Tiles.seat_block (h : Tiles ts ns) (hns : ∀ n ∈ ns, n.kind.isStatement = true) :
    Seat (lb :: (ts ++ [rb]))
      (spanned .blockStatement [("body", .nodes ns)] (lb :: (ts ++ [rb]))) := by
  obtain ⟨seats, hs, rfl, ha⟩ := h
  exact seat_list (by decide) rfl hs (.flatten _) ha (fun _ => hns) fun _ => rfl

theorem Sits.seat_atomic (h : Sits ts ns) (ha : kind.isAtomic = true)
    (hk : kind.listKey = some key) (he : ns = [] → ts = []) :
    Seat (lb :: (ts ++ [rb])) (spanned kind [(key, .nodes ns)] (lb :: (ts ++ [rb]))) := by
  obtain ⟨seats, rfl, hl, hs⟩ := h
  refine seat_list ?_ hk rfl hl hs ?_ ?_
  · rintro rfl
    cases ha
  · intro hb
    have hc := (Kind.isContainer_of_listKey hk (.inr hb)).2
    cases kind <;> cases ha <;> cases hc
  · rintro (rfl | hn)
    · cases ha
    · rw [he hn, map_eq_nil_iff.1 hn]
      rfl

/-- What holds of nodes as the grammar forms them holds of all nodes that
have a seat. -/
theorem Seat.every (h : Seat ts n) (hh : P Node.hole)
    (hf : ∀ us ⊆ ts, ∀ runs n, Formed us runs n → P n) : n.Every P := by
  induction h with
  | hole => exact Node.every_iff.2 ⟨hh, fun k hk => by cases hk⟩
  | node seats hne hki hl hfo hs ih =>
    refine Node.every_iff.2 ⟨hf _ (.refl _) _ _ hfo, fun k hk => ?_⟩
    obtain ⟨x, hx, heq⟩ := mem_map.1 (hki ▸ mem_map_of_mem hk)
    obtain ⟨as, bs, rfl⟩ := hl.exists_of_mem (mem_map_of_mem hx)
    exact heq ▸ ih x hx fun us hus => hf us fun t ht => by simp [hus ht]

theorem Sits.every (h : Sits ts ns) (hh : P Node.hole)
    (hf : ∀ us ⊆ ts, ∀ runs n, Formed us runs n → P n) : ∀ n ∈ ns, n.Every P := by
  obtain ⟨seats, rfl, hl, hs⟩ := h
  refine forall_mem_map.2 fun x hx => (hs x hx).every hh fun us hus => ?_
  obtain ⟨as, bs, rfl⟩ := hl.exists_of_mem (mem_map_of_mem hx)
  exact hf us fun t ht => by simp [hus ht]

theorem Seat.range (h : Seat ts n) {range : Span} (hr : n.range = some range) :
    ts ≠ [] ∧ range = extent ts := by
  cases h with
  | hole => cases hr
  | node seats hne _ _ hf _ =>
    rw [hf.range] at hr
    exact ⟨hne, (Option.some.inj hr).symm⟩

theorem Seat.range_eq (h : Seat ts n) (hne : ts ≠ []) : n.range = some (extent ts) := by
  cases h with
  | hole => exact absurd rfl hne
  | node _ _ _ _ hf _ => exact hf.range

theorem Seat.sits_kids (h : Seat ts n) : Sits ts (n.kids.map (·.2)) := by
  cases h with
  | hole => exact .nil
  | node seats _ hk hl _ hs => exact ⟨seats, hk.symm, hl, hs⟩

theorem start_extent (hne : ts ≠ []) (us : List Token) :
    (extent (ts ++ us)).start = (extent ts).start := by
  cases ts with
  | nil => exact absurd rfl hne
  | cons t ts => rfl

theorem stop_extent (ts : List Token) (hne : us ≠ []) :
    (extent (ts ++ us)).stop = (extent us).stop := by
  rw [extent, extent, getLast?_append_of_ne_nil _ hne]

/-- A member takes the tokens of its object only, if it starts where the
object does. -/
theorem Sits.member {computed : Bool} {object property : Node} {start : Nat} {os ps : List Token}
    (ho : Sits os [object]) (hos : os ≠ []) (hp : Sits ps [property]) (hps : ps ≠ [])
    (hs : StartsMember start object os) :
    Sits (os ++ ps) [memberNode computed object property start (os ++ ps)] := by
  have hse : ∀ us : List Token, us ≠ [] → start = (extent us).start → Sits us [object] →
      Sits (us ++ ps) [memberNode computed object property start (os ++ ps)] := by
    intro us hus heq hsi
    have hsp : memberNode computed object property start (os ++ ps) =
        spanned .memberExpression [("computed", .ofBool computed), ("object", .node object),
          ("property", .node property)] (us ++ ps) := by
      rw [memberNode, spanned, stop_extent os hps, ← stop_extent us hps, heq, ← start_extent hus ps]
    rw [hsp]
    exact .of_seat ((hsi.append hp).seat (by simp) (by simp [hus]))
  rcases hs with hs | hs
  · exact hse os hos hs ho
  · obtain ⟨range, hr, rfl⟩ := Option.map_eq_some_iff.1 hs
    obtain ⟨seats, hsea, hl, ha⟩ := ho
    obtain ⟨x, rfl, rfl⟩ := map_eq_singleton_iff.1 hsea
    have hx := ha x (mem_singleton_self x)
    obtain ⟨as, bs, rfl⟩ := hl.exists_of_mem (.head _)
    obtain ⟨hne, he⟩ := hx.range hr
    have hsi := (hse (x.1 ++ bs) (by simp [hne]) (by rw [he, start_extent hne])
      ((Sits.of_seat hx).behind bs)).before as
    rwa [← append_assoc as] at hsi

-- == the grammar

/-- The nodes that tokens stand for have their seats among them;
statements take all of them. -/
def Lies : Symbol → List Token → List Node → Prop
  | .statement, ts, ns | .statements, ts, ns | .block, ts, ns | .function _, ts, ns
  | .declaration, ts, ns => Tiles ts ns
  -- the body is the first of the nodes and has the last seat
  | .callable, ts, ns => Sits ts (ns.tail ++ ns.take 1)
  | _, ts, ns => Sits ts ns

theorem Lies.sits (h : Lies s ts [n]) : Sits ts [n] := by
  cases s <;> first | exact h | exact Tiles.sits h

theorem Derives.toList_head? (h : Derives F (.maybe s) ts ns) : ns.head?.toList = ns := by
  cases h <;> rfl

theorem sits_leaf (hpr : props.flatMap (·.2.children) = []) (hp : IsPlain kind props)
    (hw : kind = .identifier → t.kind = .word ∧
      (spanned kind props [t]).string? "name" = some t.text := by rintro ⟨⟩)
    (hn : kind = .literal → t.kind = .number →
      ∃ v, numberValue? t.text = some v ∧ props = literalProps v.toJson t.text := by rintro ⟨⟩) :
    Sits [t] [spanned kind props [t]] :=
  .of_seat ((Sits.empty [t]).seat hpr (by simp) hp (fun hk => ⟨t, rfl, hw hk⟩)
    fun hk => ⟨t, rfl, hn hk⟩)

/-- The nodes of every derivation have their seats. -/
theorem Derives.lies (h : Derives F s ts ns) : Lies s ts ns := by
  induction h with
  | identifier ht | name ht => exact sits_leaf rfl (by simp [isPlain_iff]) fun _ => ⟨ht, rfl⟩
  | number _ hv =>
    exact sits_leaf rfl (by simp [isPlain_iff, literalProps]) (by simp) fun _ _ => ⟨_, hv, rfl⟩
  | string ht | regex ht | this ht | null ht | truth ht =>
    exact sits_leaf rfl (by simp [isPlain_iff, literalProps, regexProps]) (by simp) (by simp [ht])
  | keyName _ ih | keyLiteral _ _ ih | ofIdentifier _ ih | ofLiteral _ ih | declaratorsLast _ ih
  | ofBlock _ ih | ofFunctionDeclaration _ ih | initExpression _ ih => exact ih
  | none | paramsNil | elementsNil | propertiesNil | argumentsNil | sequenceNil | casesNil =>
    exact Sits.nil
  | some _ ih => exact ih.sits
  | paramsCons _ _ _ ih ih' | elementsCons _ _ _ ih ih' | propertiesCons _ _ _ ih ih'
  | argumentsCons _ _ _ ih ih' => exact Sits.append ih (Sits.before ih' _)
  | callable _ _ _ _ ih ih' => exact ((Sits.append ih (Tiles.sits ih').skip)).skip
  | function _ hid hk _ ih ih' =>
    rcases hk with rfl | ⟨rfl, -⟩ <;>
      exact .of_seat ((Sits.append ih ih').skip.seat (by simp [functionProps, hid.toList_head?])
        (by simp) (by simp [isPlain_iff, functionProps]))
  | ofFunction _ ih | initDeclaration _ ih => exact Tiles.sits ih
  | parens _ _ _ ih => exact (Sits.behind ih _).skip
  | elementsHole _ _ ih => exact (Sits.hole ih).skip
  | array _ h _ ih | object _ h _ ih =>
    refine .of_seat (Sits.seat_atomic ih rfl rfl ?_)
    rintro rfl
    cases h
    rfl
  | propertyInit _ _ _ ih ih' | assignment _ _ _ _ _ ih ih' =>
    exact .of_seat (Sits.append ih (Sits.skip ih')).seat
  | @propertyAccessor _ _ _ cs _ body params _ _ _ h ih ih' =>
    have hva : Seat cs (spanned .functionExpression (functionProps [] params body) cs) :=
      Sits.seat ih' (by simp [functionProps]) (h.ne_nil rfl) (by simp [isPlain_iff, functionProps])
    exact .of_seat (Sits.append ih (.of_seat hva)).skip.seat
  | dot h _ _ hs ih ih' => exact Sits.member ih (h.ne_nil rfl) (Sits.skip ih') (by simp) hs
  | index h _ _ _ hs ih ih' =>
    exact Sits.member ih (h.ne_nil rfl) (Sits.behind ih' _).skip (by simp) hs
  | call _ _ _ _ ih ih' => exact .of_seat (Sits.append ih (Sits.behind ih' _).skip).seat
  | newBare _ _ ih | unary _ _ ih | updateBefore _ _ _ ih | declaration _ _ _ ih =>
    exact .of_seat (Sits.skip ih).seat
  | new _ _ _ _ _ ih ih' => exact .of_seat (Sits.append ih (Sits.behind ih' _).skip).skip.seat
  | updateBehind _ _ _ ih => exact .of_seat (Sits.behind ih _).seat
  | @binary _ _ t _ _ _ _ _ _ _ ih ih' =>
    rcases binaryKind_cases t.text with hk | hk <;> rw [hk] <;>
      exact .of_seat (Sits.append ih (Sits.skip ih')).seat
  | conditional _ _ _ _ _ ih ih' ih'' =>
    exact .of_seat (Sits.append ih (Sits.append ih' (Sits.skip ih'')).skip).seat
  | sequenceCons _ _ _ ih ih' => exact (Sits.append ih ih').skip
  | sequence h _ _ ih ih' =>
    exact .of_seat ((Sits.append ih ih').seat (by simp) (by simp [h.ne_nil rfl]))
  | initializer _ _ ih => exact Sits.skip ih
  | declarator h hi ih ih' =>
    exact .of_seat ((Sits.append ih ih').seat (by simp [hi.toList_head?]) (by simp [h.ne_nil rfl]))
  | declaratorsCons _ _ _ ih ih' => exact Sits.append ih (Sits.skip ih')
  | statementsNil => exact Tiles.nil
  | statementsCons _ _ ih ih' => exact .cons (Tiles.seat ih) ih'
  | block _ h _ ih => exact .of_seat (Tiles.seat_block ih h.areStatements)
  | empty | debugger => exact .of_seat (Sits.empty _).seat
  | expressionStatement h _ ih =>
    exact .of_seat ((Sits.behind ih _).seat (by simp) (by simp [h.ne_nil rfl]))
  | declarationStatement h _ ih =>
    have hki := (Tiles.seat ih).sits_kids
    cases h
    exact .of_seat ((hki.behind _).seat (Node.map_snd_kids _).symm (by simp)
      (by simp [isPlain_iff, spanned, Node.bare]))
  | alternate _ _ ih | finalizer _ _ ih => exact (Tiles.sits ih).skip
  | ifStatement _ _ _ _ _ h _ ih ih' ih'' =>
    exact .of_seat ((Sits.append ih (Sits.append (Tiles.sits ih') ih'').skip).skip.skip.seat
      (by simp [h.toList_head?]))
  | forStatement _ _ h _ h' _ h'' _ _ ih ih' ih'' ih₃ =>
    exact .of_seat ((Sits.append ih (Sits.append ih' (Sits.append ih''
      (Tiles.sits ih₃).skip).skip).skip).skip.skip.seat
      (by simp [h.toList_head?, h'.toList_head?, h''.toList_head?]))
  | forInStatement _ _ _ _ _ _ _ _ ih ih' ih'' =>
    exact .of_seat (Sits.append ih (Sits.append ih' (Tiles.sits ih'').skip).skip).skip.skip.seat
  | whileStatement _ _ _ _ _ ih ih' | withStatement _ _ _ _ _ ih ih' | handler _ _ _ _ _ ih ih' =>
    exact .of_seat (Sits.append ih (Tiles.sits ih').skip).skip.skip.seat
  | doWhileStatement _ _ _ _ _ _ _ ih ih' =>
    exact .of_seat (Sits.append (Tiles.sits ih) (Sits.behind ih' _).skip.skip).skip.seat
  | returnStatement _ _ h _ ih =>
    exact .of_seat ((Sits.behind ih _).skip.seat (by simp [h.toList_head?]))
  | throwStatement _ _ _ ih => exact .of_seat (Sits.behind ih _).skip.seat
  | jump hk _ =>
    rcases hk with ⟨-, rfl⟩ | ⟨-, rfl⟩ <;> exact .of_seat (Sits.empty _).seat
  | jumpTo hk _ _ _ ih =>
    rcases hk with ⟨-, rfl⟩ | ⟨-, rfl⟩ <;> exact .of_seat (Sits.behind ih _).skip.seat
  | labeledStatement _ _ _ _ ih ih' => exact .of_seat (Sits.append ih (Tiles.sits ih').skip).seat
  | tryStatement _ _ h h' _ ih ih' ih'' =>
    exact .of_seat ((Sits.append (Tiles.sits ih) (Sits.append ih' ih'')).skip.seat
      (by simp [h.toList_head?, h'.toList_head?]))
  | caseDefault _ _ _ ih => exact .of_seat (Tiles.sits ih).skip.skip.seat
  | caseTest _ _ _ _ ih ih' => exact .of_seat (Sits.append ih (Tiles.sits ih').skip).skip.seat
  | casesCons _ _ ih ih' => exact Sits.append ih ih'
  | switchStatement _ _ _ _ _ _ _ ih ih' =>
    exact .of_seat (Sits.append ih (Sits.behind ih' _).skip.skip).skip.skip.seat

end Script

end Inlay
