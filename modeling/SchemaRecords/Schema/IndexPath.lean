import SchemaRecords.Schema.Pool

/-!
# Index paths

A framed record names its message by position instead of by name.  The first index
of a path counts the messages that a unit declares outside of any message, every
further one those declared inside the message reached so far; enumerations and the
entries of map fields are not counted.  The empty path means the first message.
-/

namespace SchemaRecords.Schema

/-- Why a path leads nowhere. -/
inductive ResolveError where
  | unknownUnit (name : String)
  | indexOutOfRange (position : Nat)
  deriving DecidableEq, Repr

/-- The explanation of an error. -/
def ResolveError.message : ResolveError → String
  | .unknownUnit name => s!"Unknown schema unit: {name}"
  | .indexOutOfRange position => s!"Index out of range at position {position}"

/-- The element at an index that may be negative. -/
def elementAt? {α : Type} (elements : List α) : Int → Option α
  | .ofNat index => elements[index]?
  | .negSucc _ => none

namespace Pool

/-- The message whose place is listed at an index. -/
def messageAt? (pool : Pool) (ids : List MessageId) (index : Int) : Option Message :=
  (elementAt? ids index).bind pool.message?

/-- Follow the rest of a path from the message reached so far.  `position` counts the
indices before it. -/
def descend (pool : Pool) (message : Message) (position : Nat) :
    List Int → Except ResolveError Message
  | [] => .ok message
  | index :: rest =>
    match pool.messageAt? message.nestedMessages index with
    | none => .error (.indexOutOfRange position)
    | some nested => pool.descend nested (position + 1) rest

/-- The message that a path selects in a unit. -/
def resolve (pool : Pool) (unitName : String) (path : List Int) : Except ResolveError Message :=
  match pool.unit? unitName with
  | none => .error (.unknownUnit unitName)
  | some unit =>
    match pool.messageAt? unit.messages (path.headD 0) with
    | none => .error (.indexOutOfRange 0)
    | some message => pool.descend message 1 path.tail

/-- The places among which a message is counted. -/
def siblings (pool : Pool) (message : Message) : List MessageId :=
  match message.parent with
  | some parent => (pool.message? parent).elim [] (·.nestedMessages)
  | none => (pool.unitAt? message.unit).elim [] (·.messages)

/-- The path to a message, climbing at most `height` times and followed by `below`. -/
def climb (pool : Pool) : (height : Nat) → Message → (below : List Int) → Option (List Int)
  | 0, _, _ => none
  | height + 1, message, below => do
    let index ← (pool.siblings message).idxOf? message.id
    let path := Int.ofNat index :: below
    match message.parent with
    | none => some path
    | some parent => pool.climb height (← pool.message? parent) path

/-- The path that selects a message in its own unit.  A message comes before those that
are declared inside of it, so none lies deeper than its place.  The entries of map fields
have no path. -/
def indexPath? (pool : Pool) (message : Message) : Option (List Int) :=
  if message.isMapEntry then none else pool.climb (message.id.index + 1) message []

/-- The path that selects the message of a name. -/
def messageIndex? (pool : Pool) (name : String) : Option (List Int) :=
  (pool.findMessage? name).bind pool.indexPath?

end Pool
end SchemaRecords.Schema
