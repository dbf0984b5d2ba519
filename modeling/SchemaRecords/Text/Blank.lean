/-!
# Blank characters

The Unicode property White_Space: twenty-five characters in ten ranges.  Schema
text may be laid out with any of them, and numeric texts are trimmed of them.
Core's `Char.isWhitespace` knows four of these characters; this table adds to it
and takes nothing away.
-/

namespace SchemaRecords.Text

/-- The closed ranges of code points with the property White_Space, ascending
and apart. -/
def blankRanges : List (Nat × Nat) :=
  [(0x09, 0x0D), (0x20, 0x20), (0x85, 0x85), (0xA0, 0xA0), (0x1680, 0x1680), (0x2000, 0x200A),
    (0x2028, 0x2029), (0x202F, 0x202F), (0x205F, 0x205F), (0x3000, 0x3000)]

/-- Whether a character has the property White_Space. -/
def isBlank (c : Char) : Bool :=
  blankRanges.any fun range => range.1 ≤ c.toNat && c.toNat ≤ range.2

/-- A text without the blanks before its first and after its last other
character. -/
def trim (text : List Char) : List Char :=
  (((text.dropWhile isBlank).reverse).dropWhile isBlank).reverse

end SchemaRecords.Text
