import SchemaRecords.Schema.Registration
import SchemaRecords.Text.Blank
import SchemaRecords.Text.Quoted
import SchemaRecords.Text.Split
import SchemaRecords.Text.Utf8

/-!
# Schema files

A schema file is given by the name under which others import it and the path at which
it lies; a path alone is its own name.  Files are registered in the order in which they
are given, so one that is imported comes before those that import it.
-/

namespace SchemaRecords.Command

open SchemaRecords.Schema

/-- The name of a unit and the path of its text. -/
structure SchemaFile where
  name : String
  path : String
  deriving DecidableEq, Repr

/-- Why schema files cannot be registered. -/
inductive SchemaFileError where
  | unreadable (path reason : String)
  | notText (path : String)
  | invalid (path : String) (error : CompileError)
  deriving DecidableEq, Repr

/-- How bytes that are no text are reported. -/
def notText : String := "stream did not contain valid UTF-8"

/-- The explanations of an error, from the outermost to what is behind it. -/
def SchemaFileError.explanations : SchemaFileError → List String
  | .unreadable path reason => ["Failed to read schema file " ++ Text.quote path, reason]
  | .notText path => ["Failed to read schema file " ++ Text.quote path, Command.notText]
  | .invalid path error => ["Failed to compile schema file " ++ Text.quote path, error.message]

/-- The bytes of the file at a path, or why there are none. -/
abbrev Files := String → Except String Bytes

namespace SchemaFile

/-- The schema file that a text means.  Neither its name nor its path is empty. -/
def read? (text : String) : Option SchemaFile :=
  let (name, path) := (Text.splitAtFirst? '=' text.toList).getD (text.toList, text.toList)
  let (name, path) := (Text.trim name, Text.trim path)
  if name = [] ∨ path = [] then none else some ⟨String.ofList name, String.ofList path⟩

/-- How a text that means no schema file is reported. -/
def expectation (text : String) : String := s!"expected NAME=PATH, got '{text}'"

/-- Register a schema file. -/
def register (files : Files) (pool : Pool) (file : SchemaFile) : Except SchemaFileError Pool :=
  match files file.path with
  | .error reason => .error (.unreadable file.path reason)
  | .ok bytes =>
    match Text.Utf8.decode? bytes with
    | none => .error (.notText file.path)
    | some text =>
      match pool.addUnit file.name text with
      | .error error => .error (.invalid file.path error)
      | .ok pool => .ok pool

/-- Register schema files one after the other. -/
def registerAll (files : Files) (schemas : List SchemaFile) : Except SchemaFileError Pool :=
  schemas.foldlM (register files) .empty

end SchemaFile
end SchemaRecords.Command
