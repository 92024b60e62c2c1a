/-
From the text of a script to its tree.

The root of the tree is a program whose body holds the statements; it
spans the whole text. A text can also be read as one expression, which is
then the only node of the body.
-/
import Inlay.Script.Attachment
import Inlay.Script.Grammar
import Inlay.Script.Lexer

namespace Inlay.Script

/-- The tree of a text whose top level nodes are read by `body`. -/
def parseWith (body : List Token → Except SyntaxError (List Node)) (text : List Char)
    (source : Option String) : Except SyntaxError Tree := do
  let lexed ← lex text
  let nodes ← body lexed.tokens
  let table := LineTable.ofText text
  let program : Node :=
    { Node.bare .program [("body", .nodes nodes)] with range := some ⟨0, Text.bytes text⟩ }
  let comments := lexed.comments.map (Comment.locate table source)
  let spans := (lexed.tokens.filter (!·.isEnd)).map (·.span)
  return ⟨attachAll spans comments (program.locate table source), comments⟩

/-- The tree of a script. -/
def parse (text : List Char) (source : Option String) : Except SyntaxError Tree :=
  parseWith statements text source

/-- The tree of a text that is one expression. -/
def parseExpression (text : List Char) (source : Option String) : Except SyntaxError Tree :=
  parseWith (fun tokens => (soleExpression tokens).map ([·])) text source

end Inlay.Script
