import SchemaRecords.Number.Double

/-!
# Tokens of schema text

A schema text is a sequence of tokens with blanks and comments between them.  What
a token is never depends on where it stands, so places are kept out of tokens: a
lexeme pairs a token with the text from its first character on, and the line and
column of that place are worked out from the text in front of it when they are
asked for.
-/

namespace SchemaRecords.Schema

open SchemaRecords.Number

/-- A token of the schema language. -/
inductive Token where
  | identifier (name : String)
  | integer (value : Nat)
  | float (value : Double)
  | string (text : String)
  | symbol (c : Char)
  deriving DecidableEq, Repr

/-- How a token is named in an explanation. -/
def Token.describe : Token → String
  | .identifier name => "identifier \"" ++ name ++ "\""
  | .integer value => "integer " ++ String.ofList (Numeral.ofNat value)
  | .float value => "number " ++ String.ofList value.display
  | .string text => "string \"" ++ text ++ "\""
  | .symbol c => String.ofList ['\'', c, '\'']

/-- A token together with the text that begins with it. -/
structure Lexeme where
  token : Token
  tail : List Char
  deriving Repr

/-- A place in a text, both counts beginning at one. -/
structure Position where
  line : Nat
  column : Nat
  deriving DecidableEq, Repr

namespace Position

/-- Where a text begins. -/
def start : Position := ⟨1, 1⟩

/-- The place behind a character. -/
def next (position : Position) (c : Char) : Position :=
  if c = '\n' then ⟨position.line + 1, 1⟩ else ⟨position.line, position.column + 1⟩

/-- The place at which the suffix `tail` of `text` begins. -/
def of (text tail : List Char) : Position :=
  (text.take (text.length - tail.length)).foldl next start

end Position
end SchemaRecords.Schema
