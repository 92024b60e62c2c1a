/-
Code and source maps of whole trees.

Code and source map come from one drawing. Code alone is drawn from the
same pieces without their marks.
-/
import Inlay.Script.Code

namespace Inlay.Script

/-- Generated code with the source map for it. -/
structure Generated where
  code : String
  map : SourceMap

/-- The code of a tree with its source map. -/
def generate (indented : Bool) (t : Tree) : Except GenerateError Generated := do
  let pieces ← Code.program 0 t.root
  let drawing := draw indented pieces
  return ⟨String.ofList drawing.code, SourceMap.ofEntries drawing.entries⟩

/-- The code of a tree alone. -/
def generateCode (indented : Bool) (t : Tree) : Except GenerateError String := do
  let pieces ← Code.program 0 t.root
  return String.ofList (draw indented (pieces.filter (!·.isMark))).code

/-- The source map for the code of a tree alone. -/
def generateMap (indented : Bool) (t : Tree) : Except GenerateError SourceMap := do
  let pieces ← Code.program 0 t.root
  return SourceMap.ofEntries (draw indented pieces).entries

/-- Code that ends with a comment that names its source map. -/
def withMapUrl (url : Option String) (code : String) : String :=
  match url with
  | some url => code ++ "\n//# sourceMappingURL=" ++ url
  | none => code

end Inlay.Script
