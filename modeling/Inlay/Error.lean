/-
Everything that can go wrong between a command and its output.

Each error knows its cause; `Error.message` has the wording.
-/
import Inlay.Script.Code
import Inlay.Script.Token
import Inlay.Tree.Document

namespace Inlay

/-- A place in a file: a byte offset, and line and column counted from
one. A text that came from no file has no name. -/
structure Place where
  file : Option String
  index : Nat
  line : Nat
  column : Nat
  deriving DecidableEq, Repr

/-- How a file is named in messages. -/
def Place.fileText (p : Place) : String :=
  match p.file with
  | some file => "`" ++ file ++ "`"
  | none => "<input>"

inductive Error where
  | read (path reason : String)
  | write (path reason : String)
  | parse (place : Place) (cause : Script.Cause)
  /-- Included nodes cannot stand where a directive asks for them. -/
  | validity (place : Place)
  | generate (cause : GenerateError)
  | unknownFormat (role name : String)
  | unknownTransform (name : String)
  | missingTech (name : String)
  | config
  | document (cause : DocumentError)

namespace Error

def message : Error → String
  | read path reason => "couldn't read file `" ++ path ++ "`: " ++ reason
  | write path reason => "couldn't write file `" ++ path ++ "`: " ++ reason
  | parse place cause =>
      "couldn't parse " ++ place.fileText ++ ": " ++ cause.message ++ " (line "
        ++ toString place.line ++ ", column " ++ toString place.column ++ ")"
  | validity place =>
      "source validity threat at " ++ place.fileText ++ " line: " ++ toString place.line
        ++ " column: " ++ toString place.column
  | generate cause => "couldn't generate source from AST: " ++ cause.message
  | unknownFormat role name => "unknown " ++ role ++ " format `" ++ name ++ "`"
  | unknownTransform name => "couldn't find `" ++ name ++ "` transform"
  | missingTech name => "no tech can handle `" ++ name ++ "`"
  | config => "failed to parse config file"
  | document cause => "invalid AST document: " ++ cause.message

/-- The code that identifies the kind of error in reports. -/
def code : Error → String
  | read .. => "weld::read"
  | write .. => "weld::write"
  | parse .. => "weld::parse"
  | validity .. => "weld::validity"
  | generate .. => "weld::generate"
  | unknownFormat .. => "weld::unknown_format"
  | unknownTransform .. => "weld::unknown_transform"
  | missingTech .. => "weld::missing_tech"
  | config => "weld::config_parse"
  | document .. => "weld::ast_document"

end Error

end Inlay
