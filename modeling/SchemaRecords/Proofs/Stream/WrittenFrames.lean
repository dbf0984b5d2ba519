import SchemaRecords.Proofs.Wire.WrittenRecords
import SchemaRecords.Stream.Frame

/-!
# Written frames

A frame is read back as it was written if its index path can be read at all: the path is not
empty, it is not longer than a reader allows, and its numbers fit into 64 bits.
-/

namespace SchemaRecords

/-! ## Numbers in front of other bytes -/

/-- The value of base-256 digits is the same in both byte orders. -/
theorem Bytes.ofBigEndian_reverse (digits : Bytes) :
    ofBigEndian digits.reverse = ofLittleEndian digits := by
  rw [ofBigEndian, List.foldl_reverse]
  induction digits with
  | nil => rfl
  | cons digit rest inductionHypothesis =>
    rw [List.foldr_cons, inductionHypothesis, ofLittleEndian]
    omega

theorem Bytes.ofBigEndian_bigEndian (width value : Nat) (fits : value < 256 ^ width) :
    ofBigEndian (bigEndian width value) = value := by
  rw [bigEndian, ofBigEndian_reverse, ofLittleEndian_littleEndian width value fits]

theorem Bytes.length_bigEndian (width value : Nat) : (bigEndian width value).length = width := by
  rw [bigEndian, List.length_reverse, length_littleEndian]

theorem Wire.ZigZag.encode_lt {value : Int} (low : -2 ^ 63 ≤ value) (high : value < 2 ^ 63) :
    encode value < 2 ^ 64 := by
  unfold encode
  split <;> omega

namespace Stream.Frame

/-! ## Index paths -/

/-- An integer that fits into 64 bits. -/
def IsLong (index : Int) : Prop := -2 ^ 63 ≤ index ∧ index < 2 ^ 63

/-- An index path that is read back as it was written. -/
structure Readable (path : List Int) : Prop where
  nonempty : path ≠ []
  short : path.length ≤ maxIndexCount
  long : ∀ index ∈ path, IsLong index

theorem readIndex_encode {index : Int} (long : IsLong index) (rest : Bytes) :
    readIndex (Wire.Varint.encode (Wire.ZigZag.encode index) ++ rest) = .ok (index, rest) := by
  simp only [readIndex, Wire.Varint.read_encode _ rest (Wire.ZigZag.encode_lt long.1 long.2),
    Wire.ZigZag.decode_encode]

theorem readIndices_encode {path : List Int} (long : ∀ index ∈ path, IsLong index) (rest : Bytes) :
    readIndices path.length
      ((path.flatMap fun index => Wire.Varint.encode (Wire.ZigZag.encode index)) ++ rest) =
        .ok (path, rest) := by
  induction path with
  | nil => rfl
  | cons index path inductionHypothesis =>
    rw [List.flatMap_cons, List.append_assoc, List.length_cons, readIndices,
      readIndex_encode (long index List.mem_cons_self)]
    simp only [inductionHypothesis fun other member => long other (List.mem_cons_of_mem _ member)]

/-- The path to the first message is written as no path, and no path is read as that one. -/
theorem readPath_encodePath {path : List Int} (readable : Readable path) (rest : Bytes) :
    readPath (encodePath path ++ rest) = .ok (path, rest) := by
  have bounded := readable.short
  rw [encodePath, readPath, List.append_assoc]
  by_cases first : path = [0]
  · subst first
    have isLong : IsLong ([] : List Int).length := ⟨by decide, by decide⟩
    rw [if_pos rfl, readIndex_encode isLong]
    rfl
  · have some : 0 < path.length := List.length_pos_iff.mpr readable.nonempty
    have isLong : IsLong path.length := by
      unfold IsLong
      unfold maxIndexCount at bounded
      omega
    rw [if_neg first, readIndex_encode isLong]
    have legal : ¬ ((path.length : Int) < 0 ∨ (maxIndexCount : Int) < path.length) := by omega
    simp only [if_neg legal, if_neg (show ¬ (path.length : Int) = 0 by omega), Int.toNat_natCast,
      readIndices_encode readable.long]

/-! ## Frames -/

theorem decode_encode {frame : Frame} (readable : Readable frame.index) :
    decode frame.encode = .ok frame := by
  have identifier := Bytes.splitAt?_append (Bytes.bigEndian 4 frame.schemaId.toNat)
    (encodePath frame.index ++ frame.payload)
  rw [Bytes.length_bigEndian] at identifier
  rw [encode, List.append_assoc, List.cons_append, decode, if_neg (not_not_intro rfl)]
  simp only [identifier, readPath_encodePath readable]
  rw [Bytes.ofBigEndian_bigEndian 4 _ frame.schemaId.toNat_lt, UInt32.ofNat_toNat]

end Stream.Frame
end SchemaRecords
