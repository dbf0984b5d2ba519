import SchemaRecords.Wire.Record

/-!
# Tags and values in a row

Below the records of a payload, the wire format is a row of tags and values.  A writer
appends one after the other to a buffer.  A reader is called for one after the other,
for a tag or for a value of some layout; nothing in the bytes says which of them comes
next, and nothing here asks that a value stands behind a tag of its kind.
-/

namespace SchemaRecords.Wire

/-- What a reader may be called for. -/
inductive Call where
  | tag
  | value (layout : Layout)
  deriving DecidableEq, Repr

/-- What one call writes or reads. -/
inductive Item where
  | tag (mark : Tag)
  | value (content : Value)
  deriving DecidableEq, Repr

namespace Item

/-- The call that reads an item. -/
def call : Item → Call
  | .tag _ => .tag
  | .value content => .value content.layout

/-- The bytes of an item. -/
def encode : Item → Bytes
  | .tag mark => mark.encode
  | .value content => content.encode

/-- Append an item to a buffer. -/
def write (buffer : Bytes) (item : Item) : Bytes := buffer ++ item.encode

/-- Append items to a buffer, one after the other. -/
def writeAll (buffer : Bytes) (items : List Item) : Bytes := items.foldl write buffer

end Item

namespace Call

/-- The item at the front and the bytes after it. -/
def read : Call → Bytes → Except Fault (Item × Bytes)
  | .tag, bytes =>
    match Tag.read bytes with
    | .ok (mark, rest) => .ok (.tag mark, rest)
    | .error fault => .error fault
  | .value layout, bytes =>
    match Value.read layout bytes with
    | .ok (content, rest) => .ok (.value content, rest)
    | .error fault => .error fault

/-- The items that calls read, one after the other, and the bytes after them. -/
def readAll : List Call → Bytes → Except Fault (List Item × Bytes)
  | [], bytes => .ok ([], bytes)
  | call :: calls, bytes =>
    match call.read bytes with
    | .error fault => .error fault
    | .ok (item, rest) =>
      match readAll calls rest with
      | .error fault => .error fault
      | .ok (items, after) => .ok (item :: items, after)

end Call
end SchemaRecords.Wire
