import SchemaRecords.Text.Unseen

/-!
# Quotations

How a text or a character appears inside a message.  The quotation mark and the
backslash get a backslash in front, some control characters have a letter of their
own, and what could not be seen appears as its code point.
-/

namespace SchemaRecords.Text

/-- The lower-case hexadecimal numeral of a code point. -/
def codePoint (c : Char) : List Char :=
  Nat.toDigits 16 c.toNat

/-- A character inside of quotation marks of a kind. -/
def escapeIn (mark c : Char) : List Char :=
  if c = mark ∨ c = '\\' then ['\\', c]
  else if c = '\x00' then ['\\', '0']
  else if c = '\t' then ['\\', 't']
  else if c = '\n' then ['\\', 'n']
  else if c = '\r' then ['\\', 'r']
  else if isHidden c ∨ isCombining c then ['\\', 'u', '\x7b'] ++ codePoint c ++ ['\x7d']
  else [c]

/-- A text between double quotation marks. -/
def quote (text : String) : String :=
  String.ofList ('"' :: text.toList.flatMap (escapeIn '"') ++ ['"'])

/-- A character between single quotation marks. -/
def quoteChar (c : Char) : String :=
  String.ofList ('\'' :: escapeIn '\'' c ++ ['\''])

example : quote "a\"\n\u0301" = "\"a\\\"\\n\\u\x7b301\x7d\"" := by decide +kernel

end SchemaRecords.Text
