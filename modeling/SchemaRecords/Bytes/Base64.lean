import SchemaRecords.Bytes

/-!
# Base64 text

Four symbols of six bits stand for three bytes.  Two choices are independent: the
alphabet decides how the last two of the sixty-four values are spelled, and the
padding rule decides whether the last group is filled up to four characters or
must not be.

Reading is strict.  Nothing outside the alphabet is skipped, padding stands only
at the very end, and the bits of the last symbol that belong to no byte are zero.
Hence every byte string has exactly one text per form, and a text is accepted in a
form exactly when it is that text.
-/

namespace SchemaRecords.Bytes.Base64

/-- The two spellings of the values 62 and 63. -/
inductive Alphabet where
  | standard
  | urlSafe
  deriving DecidableEq, Repr

/-- Whether the last group is filled up with `=`. -/
inductive Padding where
  | required
  | forbidden
  deriving DecidableEq, Repr

/-- One way to spell byte strings. -/
structure Form where
  alphabet : Alphabet
  padding : Padding
  deriving DecidableEq, Repr

/-- The standard alphabet, padded.  This is the form in which bytes are written. -/
def Form.standard : Form := ⟨.standard, .required⟩

/-- Every form that is read, in the order in which they are tried. -/
def Form.all : List Form :=
  [⟨.standard, .required⟩, ⟨.urlSafe, .required⟩, ⟨.standard, .forbidden⟩, ⟨.urlSafe, .forbidden⟩]

/-- Why a text is not in a form.  A symbol outside the alphabet includes padding
that stands where none may. -/
inductive Fault where
  | symbol (byte : UInt8) (offset : Nat)
  | length (count : Nat)
  | lastSymbol (byte : UInt8) (offset : Nat)
  | padding
  deriving DecidableEq, Repr

/-- The explanation of a fault. -/
def Fault.message : Fault → String
  | .symbol byte offset => s!"Invalid symbol {byte.toNat}, offset {offset}."
  | .length count => s!"Invalid input length: {count}"
  | .lastSymbol byte offset => s!"Invalid last symbol {byte.toNat}, offset {offset}."
  | .padding => "Invalid padding"

/-- The character that fills the last group. -/
def pad : UInt8 := 61

/-- The symbol of a value below sixty-four. -/
def Alphabet.symbol (alphabet : Alphabet) (value : Nat) : UInt8 :=
  if value < 26 then UInt8.ofNat (65 + value)
  else if value < 52 then UInt8.ofNat (71 + value)
  else if value < 62 then UInt8.ofNat (value - 4)
  else match alphabet with
    | .standard => if value = 62 then 43 else 47
    | .urlSafe => if value = 62 then 45 else 95

/-- The value of a symbol, if the alphabet has it. -/
def Alphabet.value? (alphabet : Alphabet) (byte : UInt8) : Option Nat :=
  if 65 ≤ byte ∧ byte ≤ 90 then some (byte.toNat - 65)
  else if 97 ≤ byte ∧ byte ≤ 122 then some (byte.toNat - 71)
  else if 48 ≤ byte ∧ byte ≤ 57 then some (byte.toNat + 4)
  else match alphabet with
    | .standard => if byte = 43 then some 62 else if byte = 47 then some 63 else none
    | .urlSafe => if byte = 45 then some 62 else if byte = 95 then some 63 else none

/-! ## Writing -/

/-- `count` padding characters, where the form has them. -/
def Form.fill (form : Form) (count : Nat) : Bytes :=
  match form.padding with
  | .required => List.replicate count pad
  | .forbidden => []

/-- Spell a byte string, three bytes to a group. -/
def encode (form : Form) : Bytes → Bytes
  | [] => []
  | [a] =>
    [form.alphabet.symbol (a.toNat / 4), form.alphabet.symbol (a.toNat % 4 * 16)] ++ form.fill 2
  | [a, b] =>
    [form.alphabet.symbol (a.toNat / 4),
      form.alphabet.symbol (a.toNat % 4 * 16 + b.toNat / 16),
      form.alphabet.symbol (b.toNat % 16 * 4)] ++ form.fill 1
  | a :: b :: c :: rest =>
    form.alphabet.symbol (a.toNat / 4) ::
      form.alphabet.symbol (a.toNat % 4 * 16 + b.toNat / 16) ::
      form.alphabet.symbol (b.toNat % 16 * 4 + c.toNat / 64) ::
      form.alphabet.symbol (c.toNat % 64) :: encode form rest

/-- The spelling of a byte string as text. -/
def text (form : Form) (bytes : Bytes) : String :=
  String.ofList ((encode form bytes).map fun byte => Char.ofNat byte.toNat)

/-! ## Reading -/

/-- The value of the symbol at `offset`. -/
def Form.readSymbol (form : Form) (byte : UInt8) (offset : Nat) : Except Fault Nat :=
  match form.alphabet.value? byte with
  | some value => .ok value
  | none => .error (.symbol byte offset)

/-- The bytes of the bits that two, three or four symbol values carry in full. -/
def joinSymbols : List Nat → Bytes
  | [a, b] => [UInt8.ofNat (a * 4 + b / 16)]
  | [a, b, c] => [UInt8.ofNat (a * 4 + b / 16), UInt8.ofNat (b % 16 * 16 + c / 4)]
  | [a, b, c, d] =>
    [UInt8.ofNat (a * 4 + b / 16), UInt8.ofNat (b % 16 * 16 + c / 4),
      UInt8.ofNat (c % 4 * 64 + d)]
  | _ => []

/-- The bits of the last symbol that no byte takes up. -/
def looseBits : List Nat → Nat
  | [_, b] => b % 16
  | [_, _, c] => c % 4
  | _ => 0

/-- Read the last group, at most four characters whose first stands at `offset`
and of which `index` are already read: its symbol values, and how many padding
characters follow them.  Padding may follow two symbols or more, and nothing but
padding may follow it. -/
def readLastGroup (form : Form) (offset : Nat) : (index : Nat) → Bytes →
    Except Fault (List Nat × Nat)
  | _, [] => .ok ([], 0)
  | index, byte :: rest =>
    if byte = pad then
      if index < 2 then .error (.symbol byte (offset + index))
      else if rest.all (· == pad) then .ok ([], rest.length + 1)
      else .error (.symbol pad (offset + index))
    else do
      let value ← form.readSymbol byte (offset + index)
      let (values, padding) ← readLastGroup form offset (index + 1) rest
      return (value :: values, padding)

/-- Check and convert the last group. -/
def decodeLastGroup (form : Form) (offset : Nat) (text : Bytes) : Except Fault Bytes := do
  let (values, padding) ← readLastGroup form offset 0 text
  if text ≠ [] ∧ values.length < 2 then
    throw (.length (offset + values.length))
  match form.padding with
  | .required => if (padding + values.length) % 4 ≠ 0 then throw .padding
  | .forbidden => if padding ≠ 0 then throw .padding
  if looseBits values ≠ 0 then
    throw (.lastSymbol (form.alphabet.symbol (values.getLastD 0)) (offset + values.length - 1))
  return joinSymbols values

/-- Read group by group from `offset` on.  A group is the last one unless a fifth
character follows. -/
def decodeGroups (form : Form) (offset : Nat) : Bytes → Except Fault Bytes
  | a :: b :: c :: d :: e :: rest => do
    let va ← form.readSymbol a offset
    let vb ← form.readSymbol b (offset + 1)
    let vc ← form.readSymbol c (offset + 2)
    let vd ← form.readSymbol d (offset + 3)
    let bytes ← decodeGroups form (offset + 4) (e :: rest)
    return joinSymbols [va, vb, vc, vd] ++ bytes
  | text => decodeLastGroup form offset text

/-- The bytes that a text spells in one form.  A single character left over after
whole groups is looked at first, so that a stray last character is reported
before any fault in front of it. -/
def decode (form : Form) (text : Bytes) : Except Fault Bytes := do
  if text.length % 4 = 1 then
    let last := text.getLastD pad
    if last ≠ pad ∧ form.alphabet.value? last = none then
      throw (.symbol last (text.length - 1))
  decodeGroups form 0 text

/-- The bytes that a text spells in the first form that accepts it. -/
def decodeAny? (text : Bytes) : Option Bytes :=
  Form.all.findSome? fun form => (decode form text).toOption

end SchemaRecords.Bytes.Base64
