import SchemaRecords.Schema.Declaration.Parser
import SchemaRecords.Schema.Token.Lexer

/-!
# From schema text to declarations

Lexing and parsing together.  The whole text is lexed first, so a fault between
characters wins over one between tokens, wherever it stands.

Only here do places meet the text again.  A place counts tokens from the end; the
line and column it stands for are those of the token that many from the end, and
the end of the text is reported at its last token.
-/

namespace SchemaRecords.Schema

/-- Why a text declares nothing. -/
inductive SyntaxCause where
  | lexical (cause : LexicalCause)
  | grammatical (cause : GrammarCause)
  deriving DecidableEq, Repr

/-- The explanation of a cause. -/
def SyntaxCause.message : SyntaxCause → String
  | .lexical cause => cause.message
  | .grammatical cause => cause.message

/-- A cause and where it arises. -/
structure SyntaxFault where
  cause : SyntaxCause
  position : Position
  deriving DecidableEq, Repr

/-- Where the token stands that has the given number of tokens from it to the end,
or the last token if that number is zero. -/
def positionOfPlace (text : List Char) (lexemes : List Lexeme) (place : Nat) : Position :=
  match (lexemes.drop (lexemes.length - max place 1)).head? with
  | some lexeme => Position.of text lexeme.tail
  | none => Position.start

/-- A schema text that could be read: its characters, its lexemes, and what they
declare. -/
structure SchemaText where
  text : List Char
  lexemes : List Lexeme
  file : FileDecl
  deriving Repr

namespace SchemaText

/-- The line of a place. -/
def line (schema : SchemaText) (place : Nat) : Nat :=
  (positionOfPlace schema.text schema.lexemes place).line

/-- Read a schema text. -/
def read (text : String) : Except SyntaxFault SchemaText :=
  match Lexeme.scan text.toList with
  | .error fault => .error ⟨.lexical fault.cause, Position.of text.toList fault.tail⟩
  | .ok lexemes =>
    match FileDecl.parse (lexemes.map Lexeme.token) with
    | .error fault =>
      .error ⟨.grammatical fault.cause, positionOfPlace text.toList lexemes fault.place⟩
    | .ok file => .ok ⟨text.toList, lexemes, file⟩

end SchemaText
end SchemaRecords.Schema
