import SchemaRecords.Schema.Token
import SchemaRecords.Text.Blank

/-!
# From schema text to tokens

Blanks and comments separate tokens and are dropped.  A comment runs from two
slashes to the end of the line, or from `/*` to the first `*/`.

An identifier is a letter or underscore followed by letters, digits and
underscores.  A number takes in every letter, digit and point that follows, and a
sign behind an `e` unless it is hexadecimal; only then is it decided what number
this is, if any.  A string stands between two equal quotes on one line and may hold
escapes.  Letters and digits are those of ASCII; blanks are those of Unicode.

Each part of the lexer returns the text behind what it read.  Faults and lexemes
carry the text from their place on, and nothing here counts lines.
-/

namespace SchemaRecords.Schema

open SchemaRecords.Number SchemaRecords.Text

/-- Why a text is no sequence of tokens. -/
inductive LexicalCause where
  | unexpectedCharacter (c : Char)
  | unterminatedComment
  | unterminatedString
  | newlineInString
  | invalidHexEscape
  | invalidEscape (c : Char)
  | invalidNumber (text : List Char)
  deriving DecidableEq, Repr

/-- The explanation of a lexical cause. -/
def LexicalCause.message : LexicalCause → String
  | .unexpectedCharacter c => "unexpected character '" ++ String.ofList [c, '\'']
  | .unterminatedComment => "unterminated block comment"
  | .unterminatedString => "unterminated string literal"
  | .newlineInString => "newline in string literal"
  | .invalidHexEscape => "invalid hex escape"
  | .invalidEscape c => "invalid escape '\\" ++ String.ofList [c, '\'']
  | .invalidNumber text => "invalid number \"" ++ String.ofList text ++ "\""

/-- A cause and the text from the place where it arises. -/
structure LexicalFault where
  cause : LexicalCause
  tail : List Char
  deriving Repr

/-! ## Between tokens -/

/-- What the lexer is inside of while no token has begun.  A block comment
remembers the text from its beginning. -/
inductive Gap where
  | blank
  | line
  | block (opening : List Char)

/-- The text from the next token on. -/
def skipGap : Gap → List Char → Except LexicalFault (List Char)
  | .blank, [] => .ok []
  | .blank, '/' :: '/' :: rest => skipGap .line rest
  | .blank, '/' :: '*' :: rest => skipGap (.block ('/' :: '*' :: rest)) rest
  | .blank, c :: rest => if isBlank c then skipGap .blank rest else .ok (c :: rest)
  | .line, [] => .ok []
  | .line, c :: rest => if c = '\n' then skipGap .blank rest else skipGap .line rest
  | .block opening, [] => .error ⟨.unterminatedComment, opening⟩
  | .block _, '*' :: '/' :: rest => skipGap .blank rest
  | .block opening, _ :: rest => skipGap (.block opening) rest

/-! ## Identifiers and symbols -/

/-- An ASCII letter or an underscore. -/
def isIdentifierStart (c : Char) : Bool := c.isAlpha || c = '_'

/-- A character that continues an identifier. -/
def isIdentifierPart (c : Char) : Bool := c.isAlphanum || c = '_'

/-- The characters that are tokens by themselves. -/
def isSymbol (c : Char) : Bool :=
  ['{', '}', '[', ']', '(', ')', '<', '>', ';', ',', '=', '.', '-', '+', ':', '/'].contains c

/-! ## Numbers -/

/-- Split a text after the characters that belong to a number.  `previous` is the
character in front of the text. -/
def spanNumber (hexadecimal : Bool) : (previous : Char) → List Char → List Char × List Char
  | _, [] => ([], [])
  | previous, c :: rest =>
    let signed := (c = '-' || c = '+') && (previous = 'e' || previous = 'E') && !hexadecimal
    if c.isAlphanum || c = '.' || signed then
      let (taken, left) := spanNumber hexadecimal c rest
      (c :: taken, left)
    else ([], c :: rest)

/-- The greatest integer that a token holds. -/
def maxInteger : Nat := 2 ^ 64 - 1

/-- The digits behind the mark of a hexadecimal number. -/
def hexadecimalDigits? : List Char → Option (List Char)
  | '0' :: 'x' :: digits => some digits
  | '0' :: 'X' :: digits => some digits
  | _ => none

/-- Whether a letter marks a number as a float when it stands last. -/
def isFloatMark (c : Char) : Bool := c = 'f' || c = 'F'

/-- The token of a number: hexadecimal behind `0x`, a float if it has a point, an
`e` or a float mark at the end, octal behind another leading zero, and else
decimal. -/
def numberToken? (text : List Char) : Option Token :=
  match hexadecimalDigits? text with
  | some digits => (Numeral.readNat 16 maxInteger digits).toOption.map .integer
  | none =>
    if text.any (fun c => c = '.' || c = 'e' || c = 'E') || (text.getLast?.any isFloatMark) then
      let digits := (text.reverse.dropWhile isFloatMark).reverse
      (Literal.read? digits).map fun literal => .float (Double.ofLiteral literal)
    else
      match text with
      | '0' :: c :: digits => (Numeral.readNat 8 maxInteger (c :: digits)).toOption.map .integer
      | _ => (Numeral.readNat 10 maxInteger text).toOption.map .integer

/-! ## Strings -/

/-- Read at most `count` more digits of an escape. -/
def readEscapeDigits (base : Nat) : (count value : Nat) → List Char → Nat × List Char
  | 0, value, text => (value, text)
  | _ + 1, value, [] => (value, [])
  | count + 1, value, c :: rest =>
    match Numeral.digitIn? base c with
    | some digit => readEscapeDigits base count (value * base + digit) rest
    | none => (value, c :: rest)

/-- The character that a letter or sign behind a backslash stands for. -/
def escaped? (c : Char) : Option Char :=
  if c = 'n' then some '\n'
  else if c = 't' then some '\t'
  else if c = 'r' then some '\r'
  else if c = 'a' then some (Char.ofNat 7)
  else if c = 'b' then some (Char.ofNat 8)
  else if c = 'f' then some (Char.ofNat 12)
  else if c = 'v' then some (Char.ofNat 11)
  else if c = '\\' ∨ c = '\'' ∨ c = '"' ∨ c = '?' then some c
  else none

/-- Read an escape behind its backslash: one character, one or two hexadecimal
digits behind an `x`, or one to three octal digits. -/
def readEscape : List Char → Except LexicalCause (Char × List Char)
  | [] => .error .unterminatedString
  | c :: rest =>
    match escaped? c with
    | some character => .ok (character, rest)
    | none =>
      if c = 'x' ∨ c = 'X' then
        let (code, left) := readEscapeDigits 16 2 0 rest
        if left.length = rest.length then .error .invalidHexEscape
        else .ok (Char.ofNat code, left)
      else
        match Numeral.digitIn? 8 c with
        | some digit =>
          let (code, left) := readEscapeDigits 8 2 digit rest
          .ok (Char.ofNat code, left)
        | none => .error (.invalidEscape c)

theorem readEscapeDigits_length (base count value : Nat) (text : List Char) :
    (readEscapeDigits base count value text).2.length ≤ text.length := by
  induction count generalizing value text with
  | zero => simp [readEscapeDigits]
  | succ count ih =>
    cases text with
    | nil => simp [readEscapeDigits]
    | cons c rest =>
      simp only [readEscapeDigits]
      split
      · exact Nat.le_succ_of_le (ih _ rest)
      · exact Nat.le_refl _

theorem readEscape_length {text rest : List Char} {c : Char}
    (read : readEscape text = .ok (c, rest)) : rest.length < text.length := by
  cases text with
  | nil => cases read
  | cons first text =>
    have hexadecimal := readEscapeDigits_length 16 2 0 text
    simp only [readEscape] at read
    split at read
    · cases read; exact Nat.lt_succ_self _
    · split at read
      · split at read
        · cases read
        · cases read; exact Nat.lt_succ_of_le hexadecimal
      · split at read
        · next digit _ =>
          have octal := readEscapeDigits_length 8 2 digit text
          cases read; exact Nat.lt_succ_of_le octal
        · cases read

/-- Read a string behind its opening quote. -/
def readString (quote : Char) (text : List Char) :
    Except LexicalCause (List Char × List Char) :=
  match text with
  | [] => .error .unterminatedString
  | c :: rest =>
    if c = '\n' then .error .newlineInString
    else if c = '\\' then
      match read : readEscape rest with
      | .error cause => .error cause
      | .ok (character, left) =>
        have : left.length < rest.length := readEscape_length read
        (readString quote left).map fun (value, left) => (character :: value, left)
    else if c = quote then .ok ([], rest)
    else (readString quote rest).map fun (value, left) => (c :: value, left)
termination_by text.length

/-! ## Lexemes -/

/-- Whether a number begins with this text. -/
def startsNumber : List Char → Bool
  | '.' :: c :: _ => c.isDigit
  | c :: _ => c.isDigit
  | [] => false

/-- Read the token at the front of a text that begins with neither a blank nor a
comment.  A string and a number are reported at their first character. -/
def readToken (first : Char) (rest : List Char) : Except LexicalCause (Token × List Char) :=
  if isIdentifierStart first then
    .ok (.identifier (String.ofList (first :: rest.takeWhile isIdentifierPart)),
      rest.dropWhile isIdentifierPart)
  else if startsNumber (first :: rest) then
    let (behind, left) := spanNumber (hexadecimalDigits? (first :: rest)).isSome first rest
    match numberToken? (first :: behind) with
    | some token => .ok (token, left)
    | none => .error (.invalidNumber (first :: behind))
  else if first = '"' ∨ first = '\'' then
    (readString first rest).map fun (value, left) => (.string (String.ofList value), left)
  else if isSymbol first then .ok (.symbol first, rest)
  else .error (.unexpectedCharacter first)

theorem skipGap_length {gap : Gap} {text rest : List Char}
    (skipped : skipGap gap text = .ok rest) : rest.length ≤ text.length := by
  fun_induction skipGap gap text <;> grind

theorem spanNumber_length (hexadecimal : Bool) (previous : Char) (text : List Char) :
    (spanNumber hexadecimal previous text).2.length ≤ text.length := by
  fun_induction spanNumber hexadecimal previous text <;> grind

theorem readString_length {quote : Char} {text rest value : List Char}
    (read : readString quote text = .ok (value, rest)) : rest.length ≤ text.length := by
  fun_induction readString quote text generalizing value rest with
  | case4 left character behind escape shorter _ ih =>
    cases inner : readString quote behind with
    | error cause => rw [inner] at read; cases read
    | ok result =>
      rw [inner] at read
      cases read
      have := ih inner
      simp only [List.length_cons]
      omega
  | case5 => cases read; exact Nat.le_succ _
  | case6 c left _ _ _ ih =>
    cases inner : readString quote left with
    | error cause => rw [inner] at read; cases read
    | ok result =>
      rw [inner] at read
      cases read
      exact Nat.le_succ_of_le (ih inner)
  | _ => cases read

theorem readToken_length {first : Char} {text rest : List Char} {token : Token}
    (read : readToken first text = .ok (token, rest)) : rest.length ≤ text.length := by
  unfold readToken at read
  split at read
  · cases read
    exact (List.dropWhile_suffix _).length_le
  · split at read
    · have bound :=
        spanNumber_length (hexadecimalDigits? (first :: text)).isSome first text
      dsimp only at read
      split at read
      · cases read; exact bound
      · cases read
    · split at read
      · cases inner : readString first text with
        | error cause => rw [inner] at read; cases read
        | ok result =>
          rw [inner] at read
          cases read
          exact readString_length inner
      · split at read
        · cases read; exact Nat.le_refl _
        · cases read

/-- The lexemes of a text. -/
def Lexeme.scan (text : List Char) : Except LexicalFault (List Lexeme) :=
  match skipped : skipGap .blank text with
  | .error fault => .error fault
  | .ok [] => .ok []
  | .ok (first :: rest) =>
    match read : readToken first rest with
    | .error cause => .error ⟨cause, first :: rest⟩
    | .ok (token, left) =>
      have : left.length < text.length :=
        Nat.lt_of_lt_of_le (Nat.lt_succ_of_le (readToken_length read)) (skipGap_length skipped)
      (Lexeme.scan left).map fun behind => ⟨token, first :: rest⟩ :: behind
termination_by text.length

/-- A text as its lexemes, or the position and cause of its first fault. -/
def tokenize (text : String) : Except (Position × LexicalCause) (List Lexeme) :=
  (Lexeme.scan text.toList).mapError fun fault => (Position.of text.toList fault.tail, fault.cause)

end SchemaRecords.Schema
