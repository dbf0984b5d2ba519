import SchemaRecords.Wire.Record

/-!
# Written records are read back

What the writer puts into a payload, the reader takes out of it again: single values in
front of any bytes, the values of a packed block, and whole sequences of records.  The one
condition is that every content is shorter than 2^32 bytes.  The writer puts the length of
any content in front of it, but the reader keeps only 32 bits of a length, so of a longer
content it takes a part and reads what is left over as further records.
-/

namespace SchemaRecords

/-! ## Fixed widths -/

namespace Bytes

theorem length_littleEndian (width value : Nat) : (littleEndian width value).length = width := by
  induction width generalizing value with
  | zero => rfl
  | succ width inductionHypothesis =>
    rw [littleEndian, List.length_cons, inductionHypothesis]

theorem ofLittleEndian_littleEndian (width value : Nat) (fits : value < 256 ^ width) :
    ofLittleEndian (littleEndian width value) = value := by
  induction width generalizing value with
  | zero =>
    have none : value = 0 := by simpa using fits
    exact none.symm
  | succ width inductionHypothesis =>
    have high : value / 256 < 256 ^ width := by
      apply Nat.div_lt_of_lt_mul
      rwa [Nat.mul_comm, ← Nat.pow_succ]
    have low : (UInt8.ofNat value).toNat = value % 256 := UInt8.toNat_ofNat'
    rw [littleEndian, ofLittleEndian, inductionHypothesis _ high, low]
    omega

end Bytes

namespace Wire

open Bytes

theorem readFixed_littleEndian (width value : Nat) (rest : Bytes) (fits : value < 256 ^ width) :
    readFixed width (littleEndian width value ++ rest) = .ok (value, rest) := by
  have cut := splitAt?_append (littleEndian width value) rest
  rw [length_littleEndian] at cut
  simp only [readFixed, cut, ofLittleEndian_littleEndian width value fits]

/-! ## Values -/

namespace Value

/-- The length of a value, if it has one, has no more than the 32 bits that count. -/
def Fits : Value → Prop
  | .delimited content => content.length < 2 ^ 32
  | _ => True

theorem fits_of_length {value : Value} (short : value.encode.length < 2 ^ 32) : value.Fits := by
  cases value with
  | delimited content =>
    simp only [encode, List.length_append] at short
    exact Nat.lt_of_le_of_lt (Nat.le_add_left _ _) short
  | _ => trivial

theorem read_encode {value : Value} (fits : value.Fits) (rest : Bytes) :
    read value.layout (value.encode ++ rest) = .ok (value, rest) := by
  cases value with
  | varint word =>
    simp only [layout, encode, read, Varint.read_encode _ rest word.toNat_lt, UInt64.ofNat_toNat]
  | fixed64 word =>
    have small : word.toNat < 256 ^ 8 := word.toNat_lt
    simp only [layout, encode, read, readFixed_littleEndian 8 _ rest small, UInt64.ofNat_toNat]
  | fixed32 word =>
    have small : word.toNat < 256 ^ 4 := word.toNat_lt
    simp only [layout, encode, read, readFixed_littleEndian 4 _ rest small, UInt32.ofNat_toNat]
  | delimited content =>
    have number := Varint.read_encode content.length (content ++ rest)
      (Nat.lt_trans fits (by decide))
    simp only [layout, encode, read, readDelimited, List.append_assoc, number,
      readContent_append fits]

theorem encode_ne_nil {value : Value} : value.encode ≠ [] := by
  cases value with
  | varint word => exact Varint.encode_ne_nil _
  | fixed64 word => exact List.cons_ne_nil _ _
  | fixed32 word => exact List.cons_ne_nil _ _
  | delimited content =>
    intro empty
    exact Varint.encode_ne_nil _ (List.append_eq_nil_iff.mp empty).1

/-- A value of one layout in front of others of that layout. -/
theorem readAll_append {value : Value} (fits : value.Fits) (rest : Bytes) :
    readAll value.layout (value.encode ++ rest) =
      match readAll value.layout rest with
      | .error fault => .error fault
      | .ok values => .ok (value :: values) := by
  have front := read_encode fits rest
  rw [readAll.eq_def]
  split
  · rename_i empty
    exact absurd (List.append_eq_nil_iff.mp empty).1 encode_ne_nil
  · rename_i first others whole
    rw [whole] at front
    split
    · rename_i fault refused
      rw [front] at refused
      cases refused
    · rename_i other after read
      rw [front] at read
      cases read
      rfl

theorem readAll_encode {layout : Layout} {values : List Value}
    (same : ∀ value ∈ values, value.layout = layout) (fits : ∀ value ∈ values, value.Fits) :
    readAll layout (values.flatMap encode) = .ok values := by
  induction values with
  | nil => rw [List.flatMap_nil, readAll.eq_def]
  | cons value rest inductionHypothesis =>
    have later := inductionHypothesis (fun other member => same other (List.mem_cons_of_mem _ member))
      fun other member => fits other (List.mem_cons_of_mem _ member)
    have layoutSame := same value List.mem_cons_self
    subst layoutSame
    rw [List.flatMap_cons, readAll_append (fits value List.mem_cons_self), later]

end Value

/-! ## Records -/

/-- A field number that fits into a tag. -/
def IsNumber (number : Nat) : Prop := 0 < number ∧ number < 2 ^ 29

theorem Tag.read_encode {number : Nat} (legal : IsNumber number) (kind : Kind) (rest : Bytes) :
    Tag.read (Tag.encode ⟨number, kind⟩ ++ rest) = .ok (⟨number, kind⟩, rest) := by
  have low := kind.code_lt
  have small : (Tag.mk number kind).code < 2 ^ 32 := by
    simp only [code]
    have := legal.2
    omega
  have front : Varint.read .short (Varint.encode (Tag.mk number kind).code ++ rest) =
      .ok ((Tag.mk number kind).code, rest) :=
    Varint.readDigits_encode 15 4 _ rest (by decide) small
  have back := ofCode_code (Tag.mk number kind) legal.1
  simp only [Tag.read, Tag.encode, Nat.mod_eq_of_lt small, front, back]

namespace Record

/-- The bytes of records with values. -/
def encodeAll (records : List (Nat × Value)) : Bytes :=
  records.flatMap fun record => encode record.1 record.2

theorem encodeAll_cons (record : Nat × Value) (rest : List (Nat × Value)) :
    encodeAll (record :: rest) = encode record.1 record.2 ++ encodeAll rest :=
  List.flatMap_cons

theorem encodeAll_append (first second : List (Nat × Value)) :
    encodeAll (first ++ second) = encodeAll first ++ encodeAll second :=
  List.flatMap_append

theorem length_encode_le {records : List (Nat × Value)} {record : Nat × Value}
    (member : record ∈ records) : record.2.encode.length ≤ (encodeAll records).length := by
  induction records with
  | nil => cases member
  | cons first rest inductionHypothesis =>
    rw [encodeAll_cons, List.length_append]
    rcases List.mem_cons.mp member with same | later
    · subst same
      rw [encode, List.length_append]
      omega
    · have := inductionHypothesis later
      omega

theorem read_encode {number : Nat} (legal : IsNumber number) {value : Value} (fits : value.Fits)
    (rest : Bytes) :
    read (encode number value ++ rest) = .ok (⟨number, some value⟩, rest) := by
  simp only [read, encode, List.append_assoc, Tag.read_encode legal, readValue,
    Value.read_encode fits]

/-- Taking a payload apart goes on behind its first record. -/
theorem split_of_read {bytes rest : Bytes} {record : Record}
    (front : read bytes = .ok (record, rest)) :
    split bytes = (record :: (split rest).1, (split rest).2) := by
  rw [split.eq_def]
  split
  · cases front
  · rename_i first others
    split
    · rename_i fault refused
      rw [front] at refused
      cases refused
    · rename_i other after read
      rw [front] at read
      cases read
      rfl

theorem split_of_refused {bytes : Bytes} {fault : Fault} (nonempty : bytes ≠ [])
    (refused : read bytes = .error fault) : split bytes = ([], some fault) := by
  rw [split.eq_def]
  split
  · exact absurd rfl nonempty
  · split
    · rename_i other read
      rw [refused] at read
      cases read
      rfl
    · rename_i read
      rw [refused] at read
      cases read

theorem split_encodeAll {records : List (Nat × Value)}
    (legal : ∀ record ∈ records, IsNumber record.1) (fits : ∀ record ∈ records, record.2.Fits) :
    split (encodeAll records) = (records.map fun record => ⟨record.1, some record.2⟩, none) := by
  induction records with
  | nil => rw [encodeAll, List.flatMap_nil, split.eq_def, List.map_nil]
  | cons record rest inductionHypothesis =>
    have later := inductionHypothesis
      (fun other member => legal other (List.mem_cons_of_mem _ member))
      fun other member => fits other (List.mem_cons_of_mem _ member)
    have front := read_encode (legal record List.mem_cons_self) (fits record List.mem_cons_self)
      (encodeAll rest)
    rw [encodeAll_cons, split_of_read front, later, List.map_cons]

end Record
end Wire
end SchemaRecords
