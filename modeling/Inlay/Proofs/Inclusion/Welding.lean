/-
The code of scripts that were put together is a script.

A compile generates code from a tree that none of its readings has seen.
For plain scripts, without divisions, regular expressions and infinite
numbers, that code is read again as the tree it was generated from,
unless a label has come inside itself: what is left of the files is kept
(`transformed_conserves`), a kept program with its labels apart can be read
(`Kept.exists_program`), and the code of such a program is read as that
program (`reads_back_iff`).
-/
import Inlay.Proofs.FileSystem.Laws
import Inlay.Proofs.Inclusion.Generation
import Inlay.Proofs.Inclusion.Regrowth
import Inlay.Proofs.Script.RoundTrip
import Inlay.Proofs.SourceMap.Fidelity

namespace Inlay

open List

open Node (Alike AlikeAll)
open Script (Code withMapUrl draw isPlain Lexeme Token)
open Compile (library transformed loads generate)

variable {text : String} {tech : Tech} {files : Memory} {o : Options} {input : Input}

-- == scripts

namespace Script

variable {text : List Char} {source : Option String} {tree : Tree} {r : Node} {P : List Piece}
  {tail : List Char}

/-- The tokens of plain scripts. -/
structure Token.IsPlain (t : Token) : Prop where
  spelled : t.IsSpelled
  plain : t.isPlain = true

/-- A plain script is a program of plain tokens. -/
theorem exists_plain (hpa : parse text source = .ok tree) (hp : isPlain text = true) :
    ∃ ts ns, Derives .top .statements ts ns ∧ ts.Forall Token.IsPlain ∧
      tree.root.Alike (Node.bare .program [("body", .nodes ns)]) := by
  obtain ⟨lexed, ns, hl, hns, hr⟩ := parse_eq_ok hpa
  have hf := lex_formed hl
  obtain ⟨ts, e, hto, -, -, hd⟩ := statements_sound hf hns
  simp only [isPlain, hl, all_eq_true] at hp
  refine ⟨ts, ns, hd, forall_iff_forall_mem.2 fun t ht => ?_, hr⟩
  have hm : t ∈ lexed.tokens := by simp [hto, ht]
  exact ⟨hf.spelled t hm, hp t hm⟩

/-- Each statement of a plain script is one of plain tokens. -/
theorem exists_plain_statement (hp : parse text source = .ok tree)
    (hpl : isPlain text = true) {a : Node} (ha : a ∈ tree.body) :
    ∃ ts n, Derives .top .statement ts [n] ∧ ts.Forall Token.IsPlain ∧ a.Alike n := by
  obtain ⟨ts, ns, hd, hts, hro⟩ := exists_plain hp hpl
  obtain ⟨list, hl, hal⟩ := hro.children "body" (by decide) rfl
  obtain ⟨list', hl', ha⟩ := Tree.mem_body_iff.1 ha
  rw [hl] at hl'
  cases hl'
  have hr : Readable Token.IsPlain .top .statements list := ⟨ts, ns, hd, hts, hal⟩
  exact (readable_statements_iff.1 hr a ha).one

/-- Whatever is read has its labels apart. -/
theorem labelsApart_of_parse (hp : parse text source = .ok tree) :
    tree.root.labelsApart [] = true := by
  obtain ⟨lexed, ns, hl, hns, hr⟩ := parse_eq_ok hp
  obtain ⟨ts, e, -, -, -, hd⟩ := statements_sound (lex_formed hl) hns
  have hpr : tree.root.Alike (spanned .program [("body", .nodes ns)] []) :=
    hr.trans (Node.alike_of_props rfl rfl rfl)
  refine ((hpr.labelsApart_eq []).trans (labelsApart_spanned nofun nofun nofun)).trans ?_
  simp only [Node.labelsApartProps, Bool.and_true, Node.labelsApartNodes_iff]
  exact hd.labelsApart

/-- The code of a tree that is a plain program, if its labels are apart,
is read as that tree exactly if they are. -/
theorem reads_back_iff (hc : Code.program 0 r = .ok P)
    (hpl : r.labelsApart [] = true → ∃ ts ns, Derives .top .statements ts ns ∧
      ts.Forall Token.IsPlain ∧ r.Alike (Node.bare .program [("body", .nodes ns)]))
    (hta : Postscript tail) (ind : Bool) (source : Option String) :
    (∃ tree, parse ((draw ind P).code ++ tail) source = .ok tree ∧ tree.root.Alike r) ↔
      r.labelsApart [] = true := by
  constructor
  · rintro ⟨tree, hp, ha⟩
    rw [← ha.labelsApart_eq]
    exact labelsApart_of_parse hp
  · intro hap
    obtain ⟨ts, ns, hd, hts, hr⟩ := hpl hap
    rw [forall_iff_forall_mem] at hts
    have hs : ∀ t ∈ ts, t.IsSpelled := fun t ht => (hts t ht).spelled
    have hf : ∀ t ∈ ts, t.IsFit := fun t ht =>
      Token.isFit (hs t ht) (Token.isFinite_of_isPlain (hts t ht).plain)
    obtain ⟨P', hc', hP⟩ := hd.exists_code hf hr
    rw [hc] at hc'
    cases hc'
    have hsl := hP.slashesHold_of_gist hs (fun t ht => (hts t ht).plain) (hd.gist_eq hs) ind
    exact hP.parse_draw hsl hta hr source

/-- A comment that names a source map is a postscript. -/
theorem exists_postscript {url : Option String}
    (hu : ∀ u ∈ url, ∀ ch ∈ u.toList, Lexeme.isLineTerminator ch = false) (code : List Char) :
    ∃ tail, Postscript tail ∧ (withMapUrl url (String.ofList code)).toList = code ++ tail := by
  cases url with
  | none => exact ⟨[], .none, by rw [withMapUrl, String.toList_ofList, append_nil]⟩
  | some u =>
    have hc : ∀ ch ∈ "# sourceMappingURL=".toList ++ u.toList, Lexeme.isLineTerminator ch = false :=
      forall_mem_append.2 ⟨by simp [Lexeme.isLineTerminator], hu u rfl⟩
    refine ⟨_, .comment hc, ?_⟩
    · rw [withMapUrl, String.toList_append, String.toList_append, String.toList_ofList,
        append_assoc]
      rfl

end Script

-- == runs

namespace Inclusion

variable {σ : Type} [FileSystem σ] {comp : Compiler} {o : Options} {files : σ} {lib : Library}
  {c : Context} {t t₁ t' : Tree} {O : Node → Prop} {marker : String}

theorem directives_subset_of_conserved (hco : Conserved O marker t t')
    (hc : AllClean marker t'.root) : directives marker t' ⊆ directives marker t := by
  rw [directives_subset_iff]
  constructor
  · intro n hn
    rw [ownDirectives_eq_nil_iff.2 (hc n hn)]
    exact nil_subset _
  · exact List.Subset.trans (hco.comments.sublist.filterMap _).subset (subset_append_right _ _)

/-- The nodes at the top level of the files that a tree mentions. -/
def Mentioned (lib : Library) (c : Context) (t : Tree) (a : Node) : Prop :=
  ∃ d tech text u, Mentions lib c t d tech text u ∧ a ∈ u.body

theorem Included.mentioned {a : Node} (hs : directives lib.marker t₁ ⊆ directives lib.marker t)
    (ha : Included lib c t₁ a) : Mentioned lib c t a := by
  obtain ⟨d, tech, text, u, hr, ha⟩ := ha
  refine ⟨d, tech, text, u, ?_, ha⟩
  cases hr.mentions with
  | here hd ho => exact .here (hs hd) ho
  | through hd ho hr => exact .through (hs hd) ho hr

/-- However often a tree is resolved, it is kept, and has nodes only of
the files that it mentions. -/
theorem transformed_conserves {transforms : List Transform} (hs : t₁.root.Every Shaped)
    (hno : t.comments.Nodup) (hl : library comp o files = lib)
    (hc : Conserved (Mentioned lib c t) lib.marker t t₁)
    (hsu : directives lib.marker t₁ ⊆ directives lib.marker t)
    (h : transformed comp o c files t₁ transforms = .ok t') :
    Conserved (Mentioned lib c t) lib.marker t t' := by
  induction transforms generalizing t₁ with
  | nil =>
    cases h
    exact hc
  | cons transform rest ih =>
    obtain ⟨t₂, ht₂, h⟩ := bind_ok_iff.1 h
    rw [hl] at ht₂
    obtain ⟨hs₂, hc₂⟩ := resolve_conserves_from _ hs (hno.sublist hc.comments.sublist)
      (fun a ha => ha.mentioned hsu) hc ht₂
    have hcl := (resolve_keyed_clean _ (fun n hn => (hs n hn).keys) ht₂).2
    exact ih hs₂ hc₂ (directives_subset_of_conserved hc₂ hcl) h

end Inclusion

-- == compiles

open Inclusion

section Compiles

variable {σ : Type} [FileSystem σ] {c : Compiler} {input : Input} {o : Options} {files : σ}
  {tree : Tree}

/-- A file that the input of a compile mentions, directly or through other
files. -/
def Compiler.Draws (c : Compiler) (input : Input) (o : Options) (files : σ) (tech : Tech)
    (text : String) : Prop :=
  ∃ t context d u, loads files .js input o = .ok (t, context) ∧
    Mentions (library c o files) context t d tech text u

theorem Compile.exists_pieces {code map : Option String} (ho : o.output = .code)
    (h : generate .js o tree = .ok (code, map)) :
    ∃ P, Code.program 0 tree.root = .ok P ∧
      code = some (withMapUrl (o.sourceMap.bind MapRequest.url?)
        (String.ofList (draw o.indented P).code)) := by
  simp only [generate, ho, Output.wantsCode] at h
  cases hm : o.sourceMap with
  | none =>
    rw [hm] at h
    obtain ⟨text, ht, h⟩ := bind_ok_iff.1 h
    cases h
    obtain ⟨P, hP, ht⟩ := bind_ok_iff.1 (mapError_eq_ok_iff.1 ht)
    cases ht
    exact ⟨P, hP, congrArg (fun cs => some (withMapUrl none (String.ofList cs)))
      (Script.code_drawFrom_filter [])⟩
  | some request =>
    rw [hm] at h
    obtain ⟨generated, hg, h⟩ := bind_ok_iff.1 h
    cases h
    obtain ⟨P, hP, hg⟩ := bind_ok_iff.1 (mapError_eq_ok_iff.1 hg)
    cases hg
    exact ⟨P, hP, rfl⟩

theorem Compiler.exists_of_run (hjs : c.techs.get? "js" = some .js) (ho : o.output = .code)
    (hok : (c.run input o files).1 = none) :
    ∃ t context transforms tree P, loads files .js input o = .ok (t, context) ∧
      transformed c o context files t transforms = .ok tree ∧
      Code.program 0 tree.root = .ok P ∧
      (c.run input o files).2.artifacts.tree = some tree ∧
      (c.run input o files).2.artifacts.code = some (withMapUrl (o.sourceMap.bind MapRequest.url?)
          (String.ofList (draw o.indented P).code)) := by
  have hr := c.run_of_code input files ho
  cases hw : c.welds input o files >>= fun w => generate w.1 o w.2 with
  | error e =>
    rw [hw] at hr
    rw [hok] at hr
    cases hr.1
  | ok outcome =>
    obtain ⟨code, map⟩ := outcome
    rw [hw] at hr
    obtain ⟨⟨script, tree⟩, hwe, hg⟩ := bind_ok_iff.1 hw
    have ht := c.tree_run input o files
    rw [hwe] at ht
    obtain ⟨script', hs, h⟩ := bind_ok_iff.1 hwe
    rw [hjs] at hs
    cases hs
    obtain ⟨transforms, -, h⟩ := bind_ok_iff.1 h
    obtain ⟨⟨t, context⟩, hl, h⟩ := bind_ok_iff.1 h
    obtain ⟨tree', htr, h⟩ := bind_ok_iff.1 h
    cases h
    obtain ⟨P, hP, hc⟩ := Compile.exists_pieces ho hg
    exact ⟨t, context, transforms, tree, P, hl, htr, hP, ht, hr.2.trans hc⟩

end Compiles

/-- The code of a compile of plain scripts is a script, and its tree that
of the compile up to positions, comments and the raw texts of literals,
exactly if no statement of the tree has the label of one around it. -/
theorem Compiler.code_reads_back_iff {σ : Type} [FileSystem σ] {c : Compiler} {input : Input}
    {o : Options} {files : σ} {text : String} (hjs : c.techs.get? "js" = some .js)
    (hinput : input = .code text ∨ ∃ path, input = .file path ∧ FileSystem.read files path = .ok text)
    (hplain : Script.isPlain text.toList = true)
    (hfiles : ∀ tech text', c.Draws input o files tech text' →
      tech = .js ∧ Script.isPlain text'.toList = true)
    (houtput : o.output = .code)
    (hurl : ∀ url ∈ o.sourceMap.bind MapRequest.url?, ∀ ch ∈ url.toList,
      Script.Lexeme.isLineTerminator ch = false)
    (hok : (c.run input o files).1 = none) (source : Option String) :
    ∃ tree code, (c.run input o files).2.artifacts.tree = some tree ∧
      (c.run input o files).2.artifacts.code = some code ∧
      ((∃ tree', Tech.js.parse code source = .ok tree' ∧
        tree'.root.stripped = tree.root.stripped) ↔ tree.root.labelsApart [] = true) := by
  obtain ⟨t, context, transforms, tree, P, hloads, htransformed, hP, htree, hcode⟩ :=
    Compiler.exists_of_run hjs houtput hok
  obtain ⟨source₀, ht⟩ : ∃ source₀, Tech.js.parse text source₀ = .ok t := by
    rcases hinput with rfl | ⟨path, rfl, hread⟩
    · obtain ⟨t', ht, hloads⟩ := bind_ok_iff.1 hloads
      cases hloads
      exact ⟨_, ht⟩
    · obtain ⟨text', hread', hloads⟩ := bind_ok_iff.1 hloads
      rw [hread] at hread'
      cases hread'
      obtain ⟨t', ht, hloads⟩ := bind_ok_iff.1 hloads
      cases hloads
      exact ⟨_, ht⟩
  have hconserved := transformed_conserves (Tech.shaped_of_parse ht) (Tech.nodup_of_parse ht) rfl
    ⟨Kept.refl _, Sheds.refl _ _⟩ (.refl _) htransformed
  have hO : ∀ a, Mentioned (Compile.library c o files) context t a →
      ∃ ts n, Script.Derives .top .statement ts [n] ∧ ts.Forall Script.Token.IsPlain ∧
        a.Alike n := by
    rintro a ⟨d, tech, text', u, hmentions, ha⟩
    obtain ⟨rfl, hplain'⟩ := hfiles tech text' ⟨t, context, d, u, hloads, hmentions⟩
    exact Script.exists_plain_statement (Tech.parse_js_eq_ok_iff.1 hmentions.parsed) hplain' ha
  obtain ⟨ts, ns, hd, hts, hroot⟩ := Script.exists_plain (Tech.parse_js_eq_ok_iff.1 ht) hplain
  obtain ⟨tail, htail, hcode'⟩ := Script.exists_postscript hurl (Script.draw o.indented P).code
  refine ⟨tree, _, htree, hcode, ?_⟩
  have hreads := Script.reads_back_iff hP
    (fun hapart => hconserved.root.exists_program hO hd hts hroot hapart) htail o.indented source
  rw [← hreads]
  simp only [Tech.parse_js_eq_ok_iff, hcode']
  rfl

-- == examples

/-- A compile for code succeeds once its tree is there. -/
theorem Compiler.run_succeeds {σ : Type} [FileSystem σ] {c : Compiler} {files : σ} {tree : Tree}
    (hi : (∃ text, input = .code text) ∨ ∃ path, input = .file path) (ho : o.output = .code)
    (hw : c.welds input o files = .ok (.js, tree)) : (c.run input o files).1 = none := by
  have hs := sturdy_of_welds hi hw
  obtain ⟨pieces, hp⟩ := Script.program_succeeds hs.writable hs.kind 0
  have hg : ∃ outcome, generate .js o tree = .ok outcome := by
    simp only [generate, ho, Output.wantsCode]
    cases o.sourceMap with
    | none => exact ⟨_, bind_ok_iff.2
        ⟨_, mapError_eq_ok_iff.2 (bind_ok_iff.2 ⟨pieces, hp, rfl⟩), rfl⟩⟩
    | some request => exact ⟨_, bind_ok_iff.2
        ⟨_, mapError_eq_ok_iff.2 (bind_ok_iff.2 ⟨pieces, hp, rfl⟩), rfl⟩⟩
  obtain ⟨outcome, hg⟩ := hg
  have hr := c.run_of_code input files ho
  rw [bind_ok_iff.2 ⟨_, hw, hg⟩] at hr
  exact hr.1

/-- A compiler that knows scripts alone. -/
def Compiler.scripts : Compiler :=
  { Compiler.builtin with techs := Registry.empty.register "js" .js }

theorem Compiler.tech_of_scripts {name : String} (h : Compiler.scripts.techs.get? name = some tech) :
    tech = .js := by
  obtain ⟨front, rest, heq, -⟩ := lookup_eq_some_iff.1 h
  have hm : tech ∈ Compiler.scripts.techs.techs.map (·.2) := by
    rw [heq]
    simp
  exact mem_singleton.1 hm

/-- Where there are only scripts and plain files, nothing else is
included. -/
theorem Compiler.draws_plain (hfi : files.files.all (isPlain ·.2.toList) = true)
    (h : Compiler.scripts.Draws input o files tech text) :
    tech = .js ∧ isPlain text.toList = true := by
  obtain ⟨t, context, d, u, -, hr⟩ := h
  obtain ⟨context', ho⟩ := hr.exists_opens
  constructor
  · have hk := ho.known
    unfold techFor at hk
    split at hk
    · next heq =>
      cases hk
      rcases Option.or_eq_some_iff.1 heq with heq | ⟨-, heq⟩
      · obtain ⟨name, -, hg⟩ := Option.bind_eq_some_iff.1 heq
        exact Compiler.tech_of_scripts hg
      · obtain ⟨name, -, hg⟩ := Option.bind_eq_some_iff.1 heq
        exact Compiler.tech_of_scripts hg
    · cases hk
  · obtain ⟨file, hf, rfl⟩ := Memory.exists_of_read ho.read
    exact all_eq_true.1 hfi file hf

/-- A function with a loop that includes a file; the label of the loop is
another than that of the file, which includes a file in its turn. -/
def Memory.looped : Memory where
  files :=
    [ ("/h.js", "function f() \x7b l: for (;;) \x7b /*borschik:include:x.js*/ \x7d \x7d"),
      ("/x.js", "m: while (a) break m; /*borschik:include:y.js*/"), ("/y.js", "var b = 1;") ]
  links := []

theorem Compiler.code_reads_back_looped :
    ∃ tree code tree',
      let run := Compiler.scripts.run (.file "h.js")
        { Options.default with sourceMap := some (.named "h.map") } Memory.looped
      run.1 = none ∧ run.2.artifacts.tree = some tree ∧ run.2.artifacts.code = some code ∧
        tree.root.labelsApart [] = true ∧ Tech.js.parse code none = .ok tree' ∧
        tree'.root.stripped = tree.root.stripped := by
  have hplain : Memory.looped.files.all (Script.isPlain ·.2.toList) = true := by decide +kernel
  have hwelds : (Compiler.scripts.welds (.file "h.js")
      { Options.default with sourceMap := some (.named "h.map") } Memory.looped).toOption.map
        (fun outcome => (outcome.1, outcome.2.root.labelsApart [])) = some (.js, true) := by
    decide +kernel
  obtain ⟨⟨script, tree⟩, hwelds, heq⟩ := Option.map_eq_some_iff.1 hwelds
  obtain ⟨rfl, hapart⟩ := Prod.mk.inj heq
  have hok := Compiler.run_succeeds (.inr ⟨"h.js", rfl⟩) rfl (eq_ok_of_toOption hwelds)
  have hread : (FileSystem.read Memory.looped "h.js").toBool = true := by decide +kernel
  obtain ⟨text, hread⟩ := exists_of_toBool hread
  obtain ⟨file, hfile, rfl⟩ := Memory.exists_of_read hread
  obtain ⟨tree₁, code, htree, hcode, hiff⟩ := Compiler.code_reads_back_iff rfl
    (.inr ⟨"h.js", rfl, hread⟩) (all_eq_true.1 hplain file hfile)
    (fun _ _ h => Compiler.draws_plain hplain h) rfl
    (by simp [MapRequest.url?, Script.Lexeme.isLineTerminator]) hok none
  rw [Compiler.tree_run, hwelds] at htree
  cases htree
  obtain ⟨tree', hparse, hstripped⟩ := hiff.2 hapart
  refine ⟨tree, code, tree', hok, ?_, hcode, hapart, hparse, hstripped⟩
  rw [Compiler.tree_run, hwelds]
  rfl

/-- A block with a label, and a file that has the same label. -/
def Memory.relabeled : Memory where
  files := [ ("/h.js", "a: \x7b /*borschik:include:x.js*/ \x7d"), ("/x.js", "a: ;") ]
  links := []

/-- Code with a label inside itself is no script. -/
theorem Compiler.code_unread :
    let run := Compiler.builtin.run (.file "h.js") .default Memory.relabeled
    Memory.relabeled.files.all (Script.isPlain ·.2.toList) = true ∧ run.1 = none ∧
      run.2.artifacts.code = some "a:\x7ba:;\x7d" ∧
      ∀ tree, Tech.js.parse "a:\x7ba:;\x7d" none ≠ .ok tree := by
  have hrun : ((Compiler.builtin.run (.file "h.js") .default Memory.relabeled).1.isNone,
      (Compiler.builtin.run (.file "h.js") .default Memory.relabeled).2.artifacts.code) =
        (true, some "a:\x7ba:;\x7d") := by cbv
  obtain ⟨hok, hcode⟩ := Prod.mk.inj hrun
  refine ⟨by decide +kernel, Option.isNone_iff_eq_none.1 hok, hcode, fun tree htree => ?_⟩
  have hunread : (Tech.js.parse "a:\x7ba:;\x7d" none).toBool = false := by decide +kernel
  rw [htree] at hunread
  cases hunread

end Inlay
