import SchemaRecords.Schema.Registration

/-!
# Schemas that are given by their characters

A text is kept as bytes, and a schema is read from its characters.  Where these are known, as they
are of a literal, packing them into bytes and unpacking them again can be left out.  Evaluating a
registration takes most of its time there.
-/

namespace SchemaRecords.Schema

/-- Read a schema from its characters. -/
def SchemaText.readCharacters (text : List Char) : Except SyntaxFault SchemaText :=
  match Lexeme.scan text with
  | .error fault => .error ⟨.lexical fault.cause, Position.of text fault.tail⟩
  | .ok lexemes =>
    match FileDecl.parse (lexemes.map Lexeme.token) with
    | .error fault =>
      .error ⟨.grammatical fault.cause, positionOfPlace text lexemes fault.place⟩
    | .ok file => .ok ⟨text, lexemes, file⟩

theorem SchemaText.read_ofList (text : List Char) :
    SchemaText.read (String.ofList text) = readCharacters text := by
  rw [read, String.toList_ofList]
  rfl

namespace Pool

/-- Register what was read of a schema under a name. -/
def addRead (pool : Pool) (name : String) (read : Except SyntaxFault SchemaText) :
    Except CompileError Pool :=
  if (pool.unit? name).isSome then .error ⟨name, .alreadyRegistered⟩
  else
    match read with
    | .error fault => .error ⟨name, .unreadable fault⟩
    | .ok schema =>
      match link pool name schema.file with
      | .error cause => .error ⟨name, .unlinkable (cause.map schema.line)⟩
      | .ok linked => .ok (pool.commit linked)

theorem addUnit_ofList (pool : Pool) (name : String) (text : List Char) :
    pool.addUnit name (String.ofList text) =
      pool.addRead name (SchemaText.readCharacters text) := by
  rw [addUnit, SchemaText.read_ofList]
  rfl

theorem register_ofList (pool : Pool) (name : String) (text : List Char) :
    pool.register name (String.ofList text) =
      (pool.addRead name (SchemaText.readCharacters text)).toOption.getD pool := by
  rw [register, addUnit_ofList]
  cases pool.addRead name (SchemaText.readCharacters text) <;> rfl

theorem registerAll_ofList (name : String) (text : List Char) :
    registerAll [(name, String.ofList text)] =
      (empty.addRead name (SchemaText.readCharacters text)).toOption.getD empty :=
  register_ofList empty name text

end Pool
end SchemaRecords.Schema
