/-
The grammar as a relation.

`Derives F s ts ns` says that the tokens `ts`, read as the symbol `s`,
stand for the nodes `ns`: the grammar without its strategy, of which the
parser is one. What every derivation has, every script that is read has
too. Each node spans the tokens it is derived from (`extent`), but for
parentheses, which are around the node inside, and the callee of `new`.

A frame is what jumps and `return` need to know about the constructs
around them. Lists and optional parts are derived by the same relation,
so that there is one induction: for one node, `ns = [n]`.
-/
import Inlay.Script.Statements
import Inlay.Tree.Measure
import Mathlib

namespace Inlay.Script

open Rules (isTarget isPrefixOperator isUpdateOperator operatorStrength? binaryKind
  assignmentOperators isLoopTarget)

-- == extents

/-- From the start of the first token to the end of the last. -/
def extent (ts : List Token) : Span :=
  ⟨(ts.head?.map (·.span.start)).getD 0, (ts.getLast?.map (·.span.stop)).getD 0⟩

/-- The node that spans the given tokens. -/
def spanned (kind : Kind) (props : List (String × Field Node)) (ts : List Token) : Node :=
  { Node.bare kind props with range := some (extent ts) }

/-- One token of the given text, or nothing. -/
def Perhaps (text : String) (ts : List Token) : Prop :=
  ts = [] ∨ ∃ t : Token, t.is text = true ∧ ts = [t]

-- == frames

/-- What jumps may refer to at a place. -/
structure Frame where
  /-- Whether `return` is allowed. -/
  inFunction : Bool
  /-- The labels around, up to the next function. -/
  labels : List String

namespace Frame

/-- The frame of a whole file. -/
def top : Frame := ⟨false, []⟩

/-- The frame of a function's body. -/
def function : Frame := ⟨true, []⟩

/-- The frame of a statement behind a label. -/
def push (F : Frame) (label : String) : Frame := { F with labels := F.labels ++ [label] }

end Frame

/-- The frame of a scope. -/
def Scope.frame (σ : Scope) : Frame := ⟨σ.inFunction, σ.labels⟩

/-- Whether a statement ends with an `if` that an `else` behind it would
belong to. -/
def dangles (n : Node) : Bool :=
  match n.kind with
  | .ifStatement =>
      match _h : n.child? "alternate" with
      | some c => dangles c
      | none => true
  | .labeledStatement | .withStatement | .forStatement | .forInStatement
  | .whileStatement =>
      match _h : n.child? "body" with
      | some c => dangles c
      | none => false
  | _ => false
termination_by n.size
decreasing_by all_goals exact Node.size_lt_of_child? ‹_›

-- == symbols

/-- What a list of tokens can be read as. -/
inductive Symbol where
  /-- A word that is not reserved. -/
  | identifier
  /-- Any word. -/
  | name
  /-- A number, a string or a regular expression. -/
  | literal
  /-- The key of a property. -/
  | key
  | property
  | properties
  | elements
  | arguments
  | params
  /-- The parameters in parentheses and the body of a function; the body
  is the first of the nodes. -/
  | callable
  | function (kind : Kind)
  | expression
  /-- Expressions with a comma before each. -/
  | sequence
  /-- An equality sign and an expression. -/
  | initializer
  | declarator
  | declarators
  /-- Declarators behind their word, without a semicolon. -/
  | declaration
  /-- The first part of a loop's head. -/
  | forInit
  | block
  /-- A statement behind `else`. -/
  | alternate
  /-- `catch` with its block. -/
  | handler
  /-- A block behind `finally`. -/
  | finalizer
  | switchCase
  | cases
  | statement
  | statements
  /-- The symbol, or nothing. -/
  | maybe (s : Symbol)
  deriving DecidableEq

/-- The properties of a regular expression. -/
def regexProps (raw : String) : List (String × Field Node) :=
  let reversed := raw.toList.tail.reverse
  let flags := (reversed.takeWhile (· != '/')).reverse
  let pattern := (reversed.dropWhile (· != '/')).tail.reverse
  [("value", .data (.obj [])), ("raw", .ofString raw),
   ("regex", .data (.obj
     [("pattern", .str (String.ofList pattern)), ("flags", .str (String.ofList flags))]))]

/-- A regular expression is split at its last slash. -/
theorem regexProps_eq {raw : String} {pattern flags : List Char}
    (h : raw.toList = '/' :: (pattern ++ '/' :: flags)) (hf : '/' ∉ flags) :
    regexProps raw = [("value", .data (.obj [])), ("raw", .ofString raw), ("regex", .data (.obj
         [("pattern", .str (String.ofList pattern)), ("flags", .str (String.ofList flags))]))] := by
  have ha : ∀ c ∈ flags.reverse, (c != '/') = true := by
    intro c hc
    rw [bne_iff_ne]
    rintro rfl
    exact hf (List.mem_reverse.1 hc)
  have hr : raw.toList.tail.reverse = flags.reverse ++ '/' :: pattern.reverse := by
    simp [h]
  simp only [regexProps, hr, List.takeWhile_append_of_pos ha, List.dropWhile_append_of_pos ha]
  simp

/-- The properties of a literal with the given value and text. -/
def literalProps (value : Json) (raw : String) : List (String × Field Node) :=
  [("value", .data value), ("raw", .ofString raw)]

/-- The properties of a function with the given name, if there is one. -/
def functionProps (id params : List Node) (body : Node) : List (String × Field Node) :=
  [("id", .ofNode? id.head?), ("params", .nodes params), ("body", .node body)]

/-- A member that starts at an offset and ends with the given tokens. -/
def memberNode (computed : Bool) (object property : Node) (start : Nat) (ts : List Token) :
    Node :=
  { Node.bare .memberExpression
      [("computed", .ofBool computed), ("object", .node object),
       ("property", .node property)] with
    range := some ⟨start, (extent ts).stop⟩ }

/-- Where a member starts: with the tokens of its object, or where the
object does. -/
def StartsMember (start : Nat) (object : Node) (ts : List Token) : Prop :=
  start = (extent ts).start ∨ object.range.map (·.start) = some start

-- == the rules

/-- The tokens `ts`, read as the symbol, stand for the nodes `ns`. -/
inductive Derives : Frame → Symbol → List Token → List Node → Prop
  -- words and literals
  | identifier {F t} :
      t.kind = .word → isReserved t.text = false →
      Derives F .identifier [t] [spanned .identifier [("name", .ofString t.text)] [t]]
  | name {F t} :
      t.kind = .word →
      Derives F .name [t] [spanned .identifier [("name", .ofString t.text)] [t]]
  | number {F t v} :
      t.kind = .number → numberValue? t.text = some v →
      Derives F .literal [t] [spanned .literal (literalProps v.toJson t.text) [t]]
  | string {F t v} :
      t.kind = .string → unquote? t.text = some v →
      Derives F .literal [t] [spanned .literal (literalProps (.str v) t.text) [t]]
  | regex {F t} :
      t.kind = .regex →
      Derives F .literal [t] [spanned .literal (regexProps t.text) [t]]
  | keyName {F ts ns} : Derives F .name ts ns → Derives F .key ts ns
  | keyLiteral {F t ns} :
      t.kind = .string ∨ t.kind = .number →
      Derives F .literal [t] ns → Derives F .key [t] ns
  -- optional parts
  | none {F s} : Derives F (.maybe s) [] []
  | some {F s ts n} : Derives F s ts [n] → Derives F (.maybe s) ts [n]
  -- functions
  | paramsNil {F} : Derives F .params [] []
  | paramsCons {F ts sep us n ns} :
      Derives F .identifier ts [n] → Perhaps "," sep → Derives F .params us ns →
      Derives F .params (ts ++ (sep ++ us)) (n :: ns)
  | callable {F lp ps rp bs ns body} :
      lp.is "(" = true → Derives F .params ps ns → rp.is ")" = true →
      Derives .function .block bs [body] →
      Derives F .callable (lp :: (ps ++ rp :: bs)) (body :: ns)
  | function {F kind t is cs id body params} :
      t.is "function" = true → Derives F (.maybe .identifier) is id →
      (kind = .functionExpression ∨ kind = .functionDeclaration ∧ id ≠ []) →
      Derives F .callable cs (body :: params) →
      Derives F (.function kind) (t :: (is ++ cs))
        [spanned kind (functionProps id params body) (t :: (is ++ cs))]
  -- primary expressions
  | ofIdentifier {F ts ns} : Derives F .identifier ts ns → Derives F .expression ts ns
  | ofLiteral {F ts ns} : Derives F .literal ts ns → Derives F .expression ts ns
  | ofFunction {F ts ns} :
      Derives F (.function .functionExpression) ts ns → Derives F .expression ts ns
  | this {F t} :
      t.kind = .word → t.text = "this" →
      Derives F .expression [t] [spanned .thisExpression [] [t]]
  | null {F t} :
      t.kind = .word → t.text = "null" →
      Derives F .expression [t] [spanned .literal (literalProps .null t.text) [t]]
  | truth {F t} :
      t.kind = .word → t.text = "true" ∨ t.text = "false" →
      Derives F .expression [t]
        [spanned .literal (literalProps (.bool (t.text == "true")) t.text) [t]]
  | parens {F lp ts rp ns} :
      lp.is "(" = true → Derives F .expression ts ns → rp.is ")" = true →
      Derives F .expression (lp :: (ts ++ [rp])) ns
  | elementsNil {F} : Derives F .elements [] []
  | elementsHole {F t ts ns} :
      t.is "," = true → Derives F .elements ts ns →
      Derives F .elements (t :: ts) (Node.hole :: ns)
  | elementsCons {F ts sep us n ns} :
      Derives F .expression ts [n] → Perhaps "," sep → Derives F .elements us ns →
      Derives F .elements (ts ++ (sep ++ us)) (n :: ns)
  | array {F lb ts rb ns} :
      lb.is "[" = true → Derives F .elements ts ns → rb.is "]" = true →
      Derives F .expression (lb :: (ts ++ [rb]))
        [spanned .arrayExpression [("elements", .nodes ns)] (lb :: (ts ++ [rb]))]
  | propertyInit {F ks t vs key value} :
      Derives F .key ks [key] → t.is ":" = true → Derives F .expression vs [value] →
      Derives F .property (ks ++ t :: vs)
        [spanned .property
          [("key", .node key), ("value", .node value), ("kind", .ofString "init")]
          (ks ++ t :: vs)]
  | propertyAccessor {F t ks cs key body params} :
      t.kind = .word → t.text = "get" ∨ t.text = "set" → Derives F .key ks [key] →
      Derives F .callable cs (body :: params) →
      Derives F .property (t :: (ks ++ cs))
        [spanned .property
          [("key", .node key),
           ("value", .node (spanned .functionExpression (functionProps [] params body) cs)),
           ("kind", .ofString t.text)]
          (t :: (ks ++ cs))]
  | propertiesNil {F} : Derives F .properties [] []
  | propertiesCons {F ts sep us n ns} :
      Derives F .property ts [n] → Perhaps "," sep → Derives F .properties us ns →
      Derives F .properties (ts ++ (sep ++ us)) (n :: ns)
  | object {F lb ts rb ns} :
      lb.is "\x7b" = true → Derives F .properties ts ns → rb.is "\x7d" = true →
      Derives F .expression (lb :: (ts ++ [rb]))
        [spanned .objectExpression [("properties", .nodes ns)] (lb :: (ts ++ [rb]))]
  -- members and calls
  | dot {F os t ps start object property} :
      Derives F .expression os [object] → t.is "." = true → Derives F .name ps [property] →
      StartsMember start object os →
      Derives F .expression (os ++ t :: ps)
        [memberNode false object property start (os ++ t :: ps)]
  | index {F os lb ps rb start object property} :
      Derives F .expression os [object] → lb.is "[" = true →
      Derives F .expression ps [property] → rb.is "]" = true →
      StartsMember start object os →
      Derives F .expression (os ++ lb :: (ps ++ [rb]))
        [memberNode true object property start (os ++ lb :: (ps ++ [rb]))]
  | argumentsNil {F} : Derives F .arguments [] []
  | argumentsCons {F ts sep us n ns} :
      Derives F .expression ts [n] → Perhaps "," sep → Derives F .arguments us ns →
      Derives F .arguments (ts ++ (sep ++ us)) (n :: ns)
  | call {F cs lp as rp callee arguments} :
      Derives F .expression cs [callee] → lp.is "(" = true →
      Derives F .arguments as arguments → rp.is ")" = true →
      Derives F .expression (cs ++ lp :: (as ++ [rp]))
        [spanned .callExpression [("callee", .node callee), ("arguments", .nodes arguments)]
          (cs ++ lp :: (as ++ [rp]))]
  | newBare {F t cs callee} :
      t.is "new" = true → Derives F .expression cs [callee] →
      Derives F .expression (t :: cs)
        [spanned .newExpression [("callee", .node callee), ("arguments", .nodes [])] (t :: cs)]
  | new {F t cs lp as rp callee arguments} :
      t.is "new" = true → Derives F .expression cs [callee] → lp.is "(" = true →
      Derives F .arguments as arguments → rp.is ")" = true →
      Derives F .expression (t :: (cs ++ lp :: (as ++ [rp])))
        [spanned .newExpression [("callee", .node callee), ("arguments", .nodes arguments)]
          (t :: (cs ++ lp :: (as ++ [rp])))]
  -- operators
  | unary {F t ts n} :
      isPrefixOperator t = true → Derives F .expression ts [n] →
      Derives F .expression (t :: ts)
        [spanned .unaryExpression
          [("operator", .ofString t.text), ("argument", .node n), ("prefix", .ofBool true)]
          (t :: ts)]
  | updateBefore {F t ts n} :
      isUpdateOperator t = true → Derives F .expression ts [n] → isTarget n = true →
      Derives F .expression (t :: ts)
        [spanned .updateExpression
          [("operator", .ofString t.text), ("argument", .node n), ("prefix", .ofBool true)]
          (t :: ts)]
  | updateBehind {F ts t n} :
      Derives F .expression ts [n] → isUpdateOperator t = true → isTarget n = true →
      Derives F .expression (ts ++ [t])
        [spanned .updateExpression
          [("operator", .ofString t.text), ("argument", .node n), ("prefix", .ofBool false)]
          (ts ++ [t])]
  | binary {F ls t rs left right strength} :
      Derives F .expression ls [left] → operatorStrength? t true = .some strength →
      Derives F .expression rs [right] →
      Derives F .expression (ls ++ t :: rs)
        [spanned (binaryKind t.text)
          [("operator", .ofString t.text), ("left", .node left), ("right", .node right)]
          (ls ++ t :: rs)]
  | conditional {F ts q ys c ns test yes no} :
      Derives F .expression ts [test] → q.is "?" = true → Derives F .expression ys [yes] →
      c.is ":" = true → Derives F .expression ns [no] →
      Derives F .expression (ts ++ q :: (ys ++ c :: ns))
        [spanned .conditionalExpression
          [("test", .node test), ("consequent", .node yes), ("alternate", .node no)]
          (ts ++ q :: (ys ++ c :: ns))]
  | assignment {F ls t rs left right} :
      Derives F .expression ls [left] → isTarget left = true → t.kind = .punct →
      t.text ∈ assignmentOperators → Derives F .expression rs [right] →
      Derives F .expression (ls ++ t :: rs)
        [spanned .assignmentExpression
          [("operator", .ofString t.text), ("left", .node left), ("right", .node right)]
          (ls ++ t :: rs)]
  | sequenceNil {F} : Derives F .sequence [] []
  | sequenceCons {F t ts us n ns} :
      t.is "," = true → Derives F .expression ts [n] → Derives F .sequence us ns →
      Derives F .sequence (t :: (ts ++ us)) (n :: ns)
  | sequence {F ts us n ns} :
      Derives F .expression ts [n] → Derives F .sequence us ns → ns ≠ [] →
      Derives F .expression (ts ++ us)
        [spanned .sequenceExpression [("expressions", .nodes (n :: ns))] (ts ++ us)]
  -- declarations
  | initializer {F t ts n} :
      t.is "=" = true → Derives F .expression ts [n] → Derives F .initializer (t :: ts) [n]
  | declarator {F ts us id init} :
      Derives F .identifier ts [id] → Derives F (.maybe .initializer) us init →
      Derives F .declarator (ts ++ us)
        [spanned .variableDeclarator [("id", .node id), ("init", .ofNode? init.head?)]
          (ts ++ us)]
  | declaratorsLast {F ts n} : Derives F .declarator ts [n] → Derives F .declarators ts [n]
  | declaratorsCons {F ts t us n ns} :
      Derives F .declarator ts [n] → t.is "," = true → Derives F .declarators us ns →
      Derives F .declarators (ts ++ t :: us) (n :: ns)
  | declaration {F t ts ns} :
      t.kind = .word → t.text ∈ ["var", "let", "const"] → Derives F .declarators ts ns →
      Derives F .declaration (t :: ts)
        [spanned .variableDeclaration
          [("declarations", .nodes ns), ("kind", .ofString t.text)] (t :: ts)]
  -- statements
  | statementsNil {F} : Derives F .statements [] []
  | statementsCons {F ts us n ns} :
      Derives F .statement ts [n] → Derives F .statements us ns →
      Derives F .statements (ts ++ us) (n :: ns)
  | block {F lb ts rb ns} :
      lb.is "\x7b" = true → Derives F .statements ts ns → rb.is "\x7d" = true →
      Derives F .block (lb :: (ts ++ [rb]))
        [spanned .blockStatement [("body", .nodes ns)] (lb :: (ts ++ [rb]))]
  | ofBlock {F ts ns} : Derives F .block ts ns → Derives F .statement ts ns
  | ofFunctionDeclaration {F ts ns} :
      Derives F (.function .functionDeclaration) ts ns → Derives F .statement ts ns
  | empty {F t} :
      t.is ";" = true → Derives F .statement [t] [spanned .emptyStatement [] [t]]
  | debugger {F t semi} :
      t.is "debugger" = true → Perhaps ";" semi →
      Derives F .statement (t :: semi) [spanned .debuggerStatement [] (t :: semi)]
  | expressionStatement {F ts semi n} :
      Derives F .expression ts [n] → Perhaps ";" semi →
      Derives F .statement (ts ++ semi)
        [spanned .expressionStatement [("expression", .node n)] (ts ++ semi)]
  | declarationStatement {F ts semi n} :
      Derives F .declaration ts [n] → Perhaps ";" semi →
      Derives F .statement (ts ++ semi) [spanned n.kind n.props (ts ++ semi)]
  | alternate {F t ts n} :
      t.is "else" = true → Derives F .statement ts [n] → Derives F .alternate (t :: ts) [n]
  | ifStatement {F t lp ts rp ys ns test yes no} :
      t.is "if" = true → lp.is "(" = true → Derives F .expression ts [test] →
      rp.is ")" = true → Derives F .statement ys [yes] →
      Derives F (.maybe .alternate) ns no → (no ≠ [] → dangles yes = false) →
      Derives F .statement (t :: lp :: (ts ++ rp :: (ys ++ ns)))
        [spanned .ifStatement
          [("test", .node test), ("consequent", .node yes), ("alternate", .ofNode? no.head?)]
          (t :: lp :: (ts ++ rp :: (ys ++ ns)))]
  | initDeclaration {F ts ns} : Derives F .declaration ts ns → Derives F .forInit ts ns
  | initExpression {F ts ns} : Derives F .expression ts ns → Derives F .forInit ts ns
  | forStatement {F t lp is s ts s' us rp bs init test update body} :
      t.is "for" = true → lp.is "(" = true → Derives F (.maybe .forInit) is init →
      s.is ";" = true → Derives F (.maybe .expression) ts test → s'.is ";" = true →
      Derives F (.maybe .expression) us update → rp.is ")" = true →
      Derives F .statement bs [body] →
      Derives F .statement (t :: lp :: (is ++ s :: (ts ++ s' :: (us ++ rp :: bs))))
        [spanned .forStatement
          [("init", .ofNode? init.head?), ("test", .ofNode? test.head?),
           ("update", .ofNode? update.head?), ("body", .node body)]
          (t :: lp :: (is ++ s :: (ts ++ s' :: (us ++ rp :: bs))))]
  | forInStatement {F t lp ls i rs rp bs left right body} :
      t.is "for" = true → lp.is "(" = true → Derives F .forInit ls [left] →
      isLoopTarget left = true → i.is "in" = true → Derives F .expression rs [right] →
      rp.is ")" = true → Derives F .statement bs [body] →
      Derives F .statement (t :: lp :: (ls ++ i :: (rs ++ rp :: bs)))
        [spanned .forInStatement
          [("left", .node left), ("right", .node right), ("body", .node body),
           ("each", .ofBool false)]
          (t :: lp :: (ls ++ i :: (rs ++ rp :: bs)))]
  | whileStatement {F t lp ts rp bs test body} :
      t.is "while" = true → lp.is "(" = true → Derives F .expression ts [test] →
      rp.is ")" = true → Derives F .statement bs [body] →
      Derives F .statement (t :: lp :: (ts ++ rp :: bs))
        [spanned .whileStatement [("test", .node test), ("body", .node body)]
          (t :: lp :: (ts ++ rp :: bs))]
  | doWhileStatement {F t bs w lp ts rp semi body test} :
      t.is "do" = true → Derives F .statement bs [body] → w.is "while" = true →
      lp.is "(" = true → Derives F .expression ts [test] → rp.is ")" = true →
      Perhaps ";" semi →
      Derives F .statement (t :: (bs ++ w :: lp :: (ts ++ rp :: semi)))
        [spanned .doWhileStatement [("body", .node body), ("test", .node test)]
          (t :: (bs ++ w :: lp :: (ts ++ rp :: semi)))]
  | returnStatement {F t ts semi argument} :
      F.inFunction = true → t.is "return" = true →
      Derives F (.maybe .expression) ts argument → Perhaps ";" semi →
      Derives F .statement (t :: (ts ++ semi))
        [spanned .returnStatement [("argument", .ofNode? argument.head?)] (t :: (ts ++ semi))]
  | throwStatement {F t ts semi argument} :
      t.is "throw" = true → Derives F .expression ts [argument] → Perhaps ";" semi →
      Derives F .statement (t :: (ts ++ semi))
        [spanned .throwStatement [("argument", .node argument)] (t :: (ts ++ semi))]
  | jump {F kind t semi} :
      (t.is "break" = true ∧ kind = .breakStatement ∨
        t.is "continue" = true ∧ kind = .continueStatement) → Perhaps ";" semi →
      Derives F .statement (t :: semi) [spanned kind [("label", .ofNode? .none)] (t :: semi)]
  | jumpTo {F kind t l semi label} :
      (t.is "break" = true ∧ kind = .breakStatement ∨
        t.is "continue" = true ∧ kind = .continueStatement) →
      Derives F .identifier [l] [label] → l.text ∈ F.labels → Perhaps ";" semi →
      Derives F .statement (t :: l :: semi)
        [spanned kind [("label", .node label)] (t :: l :: semi)]
  | labeledStatement {F l t bs label body} :
      Derives F .identifier [l] [label] → l.text ∉ F.labels → t.is ":" = true →
      Derives (F.push l.text) .statement bs [body] →
      Derives F .statement (l :: t :: bs)
        [spanned .labeledStatement [("label", .node label), ("body", .node body)]
          (l :: t :: bs)]
  | withStatement {F t lp ts rp bs object body} :
      t.is "with" = true → lp.is "(" = true → Derives F .expression ts [object] →
      rp.is ")" = true → Derives F .statement bs [body] →
      Derives F .statement (t :: lp :: (ts ++ rp :: bs))
        [spanned .withStatement [("object", .node object), ("body", .node body)]
          (t :: lp :: (ts ++ rp :: bs))]
  | handler {F t lp ps rp bs param body} :
      t.is "catch" = true → lp.is "(" = true → Derives F .identifier ps [param] →
      rp.is ")" = true → Derives F .block bs [body] →
      Derives F .handler (t :: lp :: (ps ++ rp :: bs))
        [spanned .catchClause [("param", .node param), ("body", .node body)]
          (t :: lp :: (ps ++ rp :: bs))]
  | finalizer {F t bs body} :
      t.is "finally" = true → Derives F .block bs [body] →
      Derives F .finalizer (t :: bs) [body]
  | tryStatement {F t bs hs fs body handler finalizer} :
      t.is "try" = true → Derives F .block bs [body] →
      Derives F (.maybe .handler) hs handler → Derives F (.maybe .finalizer) fs finalizer →
      ¬(handler = [] ∧ finalizer = []) →
      Derives F .statement (t :: (bs ++ (hs ++ fs)))
        [spanned .tryStatement
          [("block", .node body), ("handler", .ofNode? handler.head?),
           ("finalizer", .ofNode? finalizer.head?)]
          (t :: (bs ++ (hs ++ fs)))]
  | caseDefault {F t c ss ns} :
      t.is "default" = true → c.is ":" = true → Derives F .statements ss ns →
      Derives F .switchCase (t :: c :: ss)
        [spanned .switchCase [("test", .ofNode? .none), ("consequent", .nodes ns)]
          (t :: c :: ss)]
  | caseTest {F t ts c ss test ns} :
      t.is "case" = true → Derives F .expression ts [test] → c.is ":" = true →
      Derives F .statements ss ns →
      Derives F .switchCase (t :: (ts ++ c :: ss))
        [spanned .switchCase [("test", .ofNode? (.some test)), ("consequent", .nodes ns)]
          (t :: (ts ++ c :: ss))]
  | casesNil {F} : Derives F .cases [] []
  | casesCons {F ts us n ns} :
      Derives F .switchCase ts [n] → Derives F .cases us ns →
      Derives F .cases (ts ++ us) (n :: ns)
  | switchStatement {F t lp ts rp lb cs rb discriminant cases} :
      t.is "switch" = true → lp.is "(" = true → Derives F .expression ts [discriminant] →
      rp.is ")" = true → lb.is "\x7b" = true → Derives F .cases cs cases →
      rb.is "\x7d" = true →
      Derives F .statement (t :: lp :: (ts ++ rp :: lb :: (cs ++ [rb])))
        [spanned .switchStatement
          [("discriminant", .node discriminant), ("cases", .nodes cases)]
          (t :: lp :: (ts ++ rp :: lb :: (cs ++ [rb])))]

theorem binaryKind_cases (operator : String) :
    binaryKind operator = .logicalExpression ∨ binaryKind operator = .binaryExpression := by
  unfold binaryKind
  split
  · exact .inl rfl
  · exact .inr rfl

-- == no empty ones

/-- The symbols that take at least one token. -/
def Symbol.isSolid : Symbol → Bool
  | .properties | .elements | .arguments | .params | .sequence | .cases | .statements
  | .maybe _ => false
  | _ => true

theorem Derives.ne_nil {F : Frame} {s : Symbol} {ts : List Token} {ns : List Node}
    (h : Derives F s ts ns) (hs : s.isSolid = true) : ts ≠ [] := by
  induction h <;> simp_all [Symbol.isSolid]

/-- The symbols that stand for no holes. -/
def Symbol.isPlaced : Symbol → Bool
  | .elements => false
  | .maybe s => s.isPlaced
  | _ => true

theorem Derives.range_isSome {F : Frame} {s : Symbol} {ts : List Token} {ns : List Node}
    (h : Derives F s ts ns) (hs : s.isPlaced = true) : ∀ n ∈ ns, n.range.isSome = true := by
  induction h <;> simp_all [Symbol.isPlaced, spanned, memberNode]

end Inlay.Script
