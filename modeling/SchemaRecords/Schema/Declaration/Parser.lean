import SchemaRecords.Schema.Declaration
import SchemaRecords.Schema.Token

/-!
# From tokens to declarations

A parser takes the tokens that are left and returns a result with the tokens that
are left after it.  Loops take as many rounds as there are tokens when they begin:
each round consumes a token, and a loop that has run out of rounds is at the end of
its input.

A fault carries the number of tokens from its place to the end, so zero stands for
the end of the text.  No parser sees where a token stands.
-/

namespace SchemaRecords.Schema

open SchemaRecords.Number

/-! ## Faults -/

/-- What a parser looks for. -/
inductive Expected where
  | symbol (c : Char)
  | identifier
  | string
  | topLevel
  | messageMember
  | oneofMember
  | enumMember
  | fieldType
  | fieldNumber
  | mapKey
  | enumNumber
  | optionName
  | optionValue
  | number
  deriving DecidableEq, Repr

/-- How it is named where the text ends instead. -/
def Expected.atEnd : Expected → String
  | .symbol c => String.ofList ['\'', c, '\'']
  | .identifier => "identifier"
  | .string => "string"
  | .topLevel => "a top-level declaration"
  | .messageMember => "'\x7d' closing message"
  | .oneofMember => "'\x7d' closing oneof"
  | .enumMember => "'\x7d' closing enum"
  | .fieldType => "field type"
  | .fieldNumber => "field number"
  | .mapKey => "map key type"
  | .enumNumber => "enum value number"
  | .optionName => "option name"
  | .optionValue => "option value"
  | .number => "number"

/-- How it is named where another token stands instead. -/
def Expected.inPlace : Expected → String
  | .messageMember => "a field or declaration"
  | .oneofMember => "a oneof field"
  | .enumMember => "an enum value"
  | .fieldNumber => "a field number"
  | .enumNumber => "an enum value number"
  | .optionValue => "an option value"
  | .number => "a number"
  | expected => expected.atEnd

/-- Why tokens are no declarations. -/
inductive GrammarCause where
  | endOfText (expected : Expected)
  | unexpected (expected : Expected) (found : Token)
  | unknownDeclaration (word : String)
  | unsupportedDialect (name : String)
  | repeatedPackage
  | labelInOneof
  | mapInOneof
  | labelledMap
  | group
  | invalidMapKey (name : String)
  | enumNumberOutOfRange (number : Int)
  | packedNotBool
  | jsonNameNotString
  deriving DecidableEq, Repr

/-- The explanation of a grammatical cause. -/
def GrammarCause.message : GrammarCause → String
  | .endOfText expected => "unexpected end of input, expected " ++ expected.atEnd
  | .unexpected expected found => "expected " ++ expected.inPlace ++ ", found " ++ found.describe
  | .unknownDeclaration word => "expected a top-level declaration, found \"" ++ word ++ "\""
  | .unsupportedDialect name => "unsupported syntax \"" ++ name ++ "\""
  | .repeatedPackage => "multiple package declarations"
  | .labelInOneof => "oneof fields cannot have labels"
  | .mapInOneof => "map fields cannot be oneof members"
  | .labelledMap => "map fields cannot have labels"
  | .group => "groups are not supported"
  | .invalidMapKey name => "\"" ++ name ++ "\" is not a valid map key type"
  | .enumNumberOutOfRange number =>
    "enum value " ++ String.ofList (Numeral.ofInt number) ++ " is out of the int32 range"
  | .packedNotBool => "option \"packed\" expects a bool"
  | .jsonNameNotString => "option \"json_name\" expects a string"

/-- A cause, and how many tokens there are from its place to the end. -/
structure GrammarFault where
  cause : GrammarCause
  place : Nat
  deriving DecidableEq, Repr

/-! ## Single tokens -/

/-- Reads a part of a token sequence. -/
abbrev Parser := StateT (List Token) (Except GrammarFault)

namespace Parser

/-- A parser of two parts reads the second behind the first. -/
theorem bind_eq_ok_iff {α β : Type} {first : Parser α} {next : α → Parser β}
    {tokens rest : List Token} {value : β} :
    (first >>= next) tokens = .ok (value, rest) ↔
      ∃ middle left, first tokens = .ok (middle, left) ∧ next middle left = .ok (value, rest) := by
  simp only [Bind.bind, StateT.bind]
  cases first tokens with
  | error fault => simp [Except.bind]
  | ok pair => simp [Except.bind, Prod.ext_iff, and_assoc]

/-- Stop at the end of the text. -/
def failAtEnd {α : Type} (expected : Expected) : Parser α :=
  fun _ => .error ⟨.endOfText expected, 0⟩

/-- Stop with a fault at the first of the given tokens. -/
def failAt {α : Type} (tokens : List Token) (cause : GrammarCause) : Parser α :=
  fun _ => .error ⟨cause, tokens.length⟩

/-- Stop because another token stands first. -/
def failFirst {α : Type} (expected : Expected) : Parser α :=
  fun tokens =>
    match tokens with
    | [] => .error ⟨.endOfText expected, 0⟩
    | found :: _ => .error ⟨.unexpected expected found, tokens.length⟩

/-- Read the given symbol. -/
def symbol (c : Char) : Parser Unit := fun tokens =>
  match tokens with
  | .symbol found :: rest =>
    if found = c then .ok ((), rest) else failFirst (.symbol c) tokens
  | _ => failFirst (.symbol c) tokens

/-- Read the given symbol if it stands first. -/
def eatSymbol (c : Char) : Parser Bool := fun tokens =>
  match tokens with
  | .symbol found :: rest => if found = c then .ok (true, rest) else .ok (false, tokens)
  | _ => .ok (false, tokens)

/-- Read the given word if it stands first. -/
def eatWord (word : String) : Parser Bool := fun tokens =>
  match tokens with
  | .identifier found :: rest => if found = word then .ok (true, rest) else .ok (false, tokens)
  | _ => .ok (false, tokens)

/-- Read an identifier. -/
def identifier : Parser String := fun tokens =>
  match tokens with
  | .identifier name :: rest => .ok (name, rest)
  | _ => failFirst .identifier tokens

/-- Read an integer. -/
def integer (expected : Expected) : Parser Nat := fun tokens =>
  match tokens with
  | .integer value :: rest => .ok (value, rest)
  | _ => failFirst expected tokens

/-- The strings that stand first, joined, and the tokens behind them. -/
def spanStrings : List Token → String × List Token
  | .string text :: rest =>
    let (more, left) := spanStrings rest
    (text ++ more, left)
  | tokens => ("", tokens)

/-- Read a string, which may be written in several parts. -/
def string : Parser String := fun tokens =>
  match tokens with
  | .string _ :: _ => .ok (spanStrings tokens)
  | _ => failFirst .string tokens

/-- Run a loop with as many rounds as there are tokens. -/
def rounds {α : Type} (loop : Nat → Parser α) : Parser α :=
  fun tokens => loop tokens.length tokens

/-! ## Names -/

/-- Split a token sequence after the parts of a dotted name behind its first one.
The text of the parts includes the points in front of them. -/
def spanDottedParts : List Token → Except GrammarFault (String × List Token)
  | .symbol '.' :: .identifier name :: rest => do
    let (more, left) ← spanDottedParts rest
    return ("." ++ name ++ more, left)
  | .symbol '.' :: rest => failFirst .identifier rest
  | tokens => .ok ("", tokens)

/-- Read the parts of a dotted name behind its first one. -/
def dottedParts : Parser String := spanDottedParts

/-- Read identifiers with points between them. -/
def dottedName : Parser String := do
  let first ← identifier
  let more ← dottedParts
  return first ++ more

/-- Read a name that may begin with a point. -/
def typeName : Parser String := do
  if ← eatSymbol '.' then
    let name ← dottedName
    return "." ++ name
  else dottedName

/-- Read the name of a type; the keyword of a scalar is that scalar. -/
def typeReference : Parser TypeName := do
  let name ← typeName
  match Scalar.ofKeyword? name with
  | some scalar => return .scalar scalar
  | none => return .named name

/-! ## What is passed over -/

/-- Drop the tokens up to the brace that closes a block, with `inner` more blocks
inside of it to be closed first. -/
def dropBlock : (inner : Nat) → List Token → Except GrammarFault (Unit × List Token)
  | _, [] => failAtEnd (.symbol '}') []
  | inner, .symbol '{' :: rest => dropBlock (inner + 1) rest
  | 0, .symbol '}' :: rest => .ok ((), rest)
  | inner + 1, .symbol '}' :: rest => dropBlock inner rest
  | inner, _ :: rest => dropBlock inner rest

/-- Pass over a block in braces. -/
def skipBlock : Parser Unit := do
  symbol '{'
  dropBlock 0

/-- Drop the tokens up to and including the next semicolon. -/
def dropStatement : List Token → Except GrammarFault (Unit × List Token)
  | [] => failAtEnd (.symbol ';') []
  | .symbol ';' :: rest => .ok ((), rest)
  | _ :: rest => dropStatement rest

/-- Pass over the rest of a statement. -/
def skipStatement : Parser Unit := dropStatement

/-! ## Options -/

/-- What is known of the value of an option. -/
inductive OptionValue where
  | flag (value : Bool)
  | text (value : String)
  | other
  deriving DecidableEq, Repr

/-- Read one part of an option name: an identifier, or a type name in
parentheses. -/
def optionNamePart : Parser String := do
  if ← eatSymbol '(' then
    let inner ← typeName
    symbol ')'
    return "(" ++ inner ++ ")"
  else identifier

/-- Read the parts of an option name behind the ones read so far. -/
def optionNameRest : (rounds : Nat) → (name : String) → Parser String
  | 0, name => return name
  | rounds + 1, name => do
    if ← eatSymbol '.' then
      let part ← optionNamePart
      optionNameRest rounds (name ++ "." ++ part)
    else return name

/-- Read the name of an option. -/
def optionName : Parser String := do
  let first ← optionNamePart
  rounds fun count => optionNameRest count first

/-- Read a number behind its sign. -/
def signedNumber : Parser OptionValue := fun tokens =>
  match tokens with
  | .integer _ :: rest => .ok (.other, rest)
  | .float _ :: rest => .ok (.other, rest)
  | .identifier word :: rest =>
    if word = "inf" ∨ word = "nan" then .ok (.other, rest) else failFirst .number tokens
  | _ => failFirst .number tokens

/-- Read the value of an option. -/
def optionValue : Parser OptionValue := fun tokens =>
  match tokens with
  | .string _ :: _ => (do return OptionValue.text (← string)) tokens
  | .integer _ :: rest => .ok (.other, rest)
  | .float _ :: rest => .ok (.other, rest)
  | .symbol '-' :: rest => signedNumber rest
  | .symbol '+' :: rest => signedNumber rest
  | .symbol '{' :: _ => (do skipBlock; return OptionValue.other) tokens
  | .identifier word :: rest =>
    if word = "true" then .ok (.flag true, rest)
    else if word = "false" then .ok (.flag false, rest)
    else (do let _ ← dottedParts; return OptionValue.other) rest
  | _ => failFirst .optionValue tokens

/-- Read an option statement behind its keyword. -/
def optionStatement : Parser Unit := do
  let _ ← optionName
  symbol '='
  let _ ← optionValue
  symbol ';'

/-- The options of a field that matter. -/
structure FieldOptions where
  packed : Option Bool
  jsonName : Option String
  deriving DecidableEq, Repr

/-- Take an option into account; the tokens are those from its name on. -/
def FieldOptions.add (options : FieldOptions) (tokens : List Token) (name : String)
    (value : OptionValue) : Parser FieldOptions :=
  if name = "packed" then
    match value with
    | .flag packed => return { options with packed := some packed }
    | _ => failAt tokens .packedNotBool
  else if name = "json_name" then
    match value with
    | .text jsonName => return { options with jsonName := some jsonName }
    | _ => failAt tokens .jsonNameNotString
  else return options

/-- Read options with commas between them. -/
def fieldOptionList : (rounds : Nat) → FieldOptions → Parser FieldOptions
  | 0, _ => failAtEnd .optionName
  | rounds + 1, options => do
    let tokens ← get
    if tokens = [] then failAtEnd .optionName
    else
      let name ← optionName
      symbol '='
      let value ← optionValue
      let options ← options.add tokens name value
      if ← eatSymbol ',' then fieldOptionList rounds options else return options

/-- Read options in brackets, if a bracket stands first. -/
def fieldOptions : Parser FieldOptions := do
  if ← eatSymbol '[' then
    let options ← rounds fun count => fieldOptionList count ⟨none, none⟩
    symbol ']'
    return options
  else return ⟨none, none⟩

/-! ## Fields -/

/-- Read the type of a map field behind the word `map`. -/
def mapType : Parser FieldType := do
  symbol '<'
  let tokens ← get
  if tokens = [] then failAtEnd .mapKey
  else
    let name ← identifier
    match (Scalar.ofKeyword? name).filter Scalar.isMapKey with
    | none => failAt tokens (.invalidMapKey name)
    | some key =>
      symbol ','
      let value ← typeReference
      symbol '>'
      return .map key value

/-- Read the type of a field.  The word `map` is a type name unless an angle bracket
follows. -/
def fieldType (label : Label) : Parser FieldType := fun tokens =>
  match tokens with
  | [] => failAtEnd .fieldType []
  | .identifier "map" :: .symbol '<' :: rest =>
    if label = .unlabelled then mapType (.symbol '<' :: rest) else failAt tokens .labelledMap tokens
  | .identifier "group" :: _ => failAt tokens .group tokens
  | _ => (do return FieldType.single (← typeReference)) tokens

/-- Read a field behind its label. -/
def field (label : Label) (oneof : Option Nat) (place : Nat) : Parser FieldDecl := do
  let type ← fieldType label
  let name ← identifier
  symbol '='
  let number ← integer .fieldNumber
  let options ← fieldOptions
  symbol ';'
  return ⟨name, number, label, type, oneof, options.packed, options.jsonName, place⟩

/-! ## Blocks -/

/-- Read the items of a block up to its closing brace.  Semicolons between items are
passed over. -/
def blockItems {σ : Type} (expected : Expected) (item : σ → Parser σ) :
    (rounds : Nat) → σ → Parser σ
  | 0, _ => failAtEnd expected
  | rounds + 1, state => fun tokens =>
    match tokens with
    | [] => failAtEnd expected []
    | .symbol '}' :: rest => .ok (state, rest)
    | .symbol ';' :: rest => blockItems expected item rounds state rest
    | _ => (do blockItems expected item rounds (← item state)) tokens

/-- Read a block in braces. -/
def block {σ : Type} (expected : Expected) (item : σ → Parser σ) (state : σ) : Parser σ := do
  symbol '{'
  rounds fun count => blockItems expected item count state

/-- Whether a number fits a signed 32-bit word. -/
def isInt32 (number : Int) : Bool := -(2 ^ 31) ≤ number && number < 2 ^ 31

/-- Read the number of an enumeration value. -/
def enumNumber : Parser Int := do
  let negative ← eatSymbol '-'
  let tokens ← get
  let magnitude ← integer .enumNumber
  let number : Int := if negative then -(magnitude : Int) else magnitude
  if isInt32 number then return number else failAt tokens (.enumNumberOutOfRange number)

/-- Read one item of an enumeration. -/
def enumMember (decl : EnumDecl) : Parser EnumDecl := fun tokens =>
  match tokens with
  | .identifier word :: rest =>
    if word = "option" then (do optionStatement; return decl) rest
    else if word = "reserved" then (do skipStatement; return decl) rest
    else
      (do
        symbol '='
        let number ← enumNumber
        let _ ← fieldOptions
        symbol ';'
        return { decl with values := decl.values ++ [EnumValue.mk word number] }) rest
  | _ => failFirst .enumMember tokens

/-- Read an enumeration behind its keyword. -/
def enumeration : Parser EnumDecl := do
  let name ← identifier
  block .enumMember enumMember ⟨name, []⟩

/-- The label that a word is. -/
def labelOf? (word : String) : Option Label :=
  if word = "optional" then some .optional
  else if word = "required" then some .required
  else if word = "repeated" then some .repeated
  else none

/-- Read one item of a oneof, which has the given position among the oneofs. -/
def oneofMember (index : Nat) (decl : MessageDecl) : Parser MessageDecl := fun tokens =>
  match tokens with
  | .identifier word :: rest =>
    if word = "option" then (do optionStatement; return decl) rest
    else if (labelOf? word).isSome then failAt tokens .labelInOneof tokens
    else
      (do
        let member ← field .unlabelled (some index) tokens.length
        match member.type with
        | .map _ _ => failAt tokens .mapInOneof
        | .single _ => return { decl with fields := decl.fields ++ [member] }) tokens
  | _ => failFirst .oneofMember tokens

/-- Read a oneof behind its keyword. -/
def oneof (decl : MessageDecl) : Parser MessageDecl := do
  let name ← identifier
  block .oneofMember (oneofMember decl.oneofs.length)
    { decl with oneofs := decl.oneofs ++ [name] }

/-- Read one item of a message, given a parser for messages inside of it.  A word
that begins nothing else begins the type of a field. -/
def messageMember (inner : (place : Nat) → Parser MessageDecl) (decl : MessageDecl) :
    Parser MessageDecl := fun tokens =>
  match tokens with
  | .identifier word :: rest =>
    if word = "message" then
      (do return { decl with messages := decl.messages ++ [← inner tokens.length] }) rest
    else if word = "enum" then
      (do return { decl with enums := decl.enums ++ [← enumeration] }) rest
    else if word = "oneof" then oneof decl rest
    else if word = "option" then (do optionStatement; return decl) rest
    else if word = "reserved" ∨ word = "extensions" then (do skipStatement; return decl) rest
    else if word = "extend" then (do let _ ← typeName; skipBlock; return decl) rest
    else
      match labelOf? word with
      | some label =>
        (do return { decl with fields := decl.fields ++ [← field label none tokens.length] }) rest
      | none =>
        (do
          return { decl with
            fields := decl.fields ++ [← field .unlabelled none tokens.length] }) tokens
  | _ => failFirst .messageMember tokens

/-- Read a message behind its keyword, which stands at `place`, with at most
`nesting` messages inside of each other. -/
def message : (nesting : Nat) → (place : Nat) → Parser MessageDecl
  | 0, _ => failAtEnd .identifier
  | nesting + 1, place => do
    let name ← identifier
    block .messageMember (messageMember (message nesting)) ⟨name, [], [], [], [], place⟩

/-! ## Files -/

/-- Read the declaration of the dialect behind its keyword; the tokens are those
from the keyword on. -/
def dialect (tokens : List Token) : Parser Dialect := do
  symbol '='
  let name ← string
  if name = "proto3" then
    symbol ';'
    return .proto3
  else if name = "proto2" then
    symbol ';'
    return .proto2
  else failAt tokens (.unsupportedDialect name)

/-- Read an import behind its keyword. -/
def importStatement : Parser ImportDecl := do
  let isPublic ← eatWord "public"
  if !isPublic then
    let _ ← eatWord "weak"
  let path ← string
  symbol ';'
  return ⟨path, isPublic⟩

/-- Read the package behind its keyword; the tokens are those from the keyword
on. -/
def package (file : FileDecl) (tokens : List Token) : Parser FileDecl := do
  if file.package.isSome then failAt tokens .repeatedPackage
  else
    let name ← dottedName
    symbol ';'
    return { file with package := some name }

/-- Read one declaration of a file. -/
def topLevel (file : FileDecl) : Parser FileDecl := fun tokens =>
  match tokens with
  | .symbol ';' :: rest => .ok (file, rest)
  | .identifier word :: rest =>
    if word = "syntax" then
      (do return { file with dialect := ← dialect tokens }) rest
    else if word = "package" then package file tokens rest
    else if word = "import" then
      (do return { file with imports := file.imports ++ [← importStatement] }) rest
    else if word = "option" then (do optionStatement; return file) rest
    else if word = "message" then
      (do return { file with
            messages := file.messages ++ [← message rest.length tokens.length] }) rest
    else if word = "enum" then
      (do return { file with enums := file.enums ++ [← enumeration] }) rest
    else if word = "service" ∨ word = "extend" then
      (do let _ ← typeName; skipBlock; return file) rest
    else failAt tokens (.unknownDeclaration word) tokens
  | _ => failFirst .topLevel tokens

/-- Read declarations up to the end of the text. -/
def file : (rounds : Nat) → FileDecl → Parser FileDecl
  | 0, decl => return decl
  | rounds + 1, decl => fun tokens =>
    match tokens with
    | [] => .ok (decl, [])
    | _ => (do file rounds (← topLevel decl)) tokens

end Parser

/-- The declarations that a sequence of tokens makes. -/
def FileDecl.parse (tokens : List Token) : Except GrammarFault FileDecl :=
  (Parser.file tokens.length FileDecl.empty tokens).map Prod.fst

end SchemaRecords.Schema
