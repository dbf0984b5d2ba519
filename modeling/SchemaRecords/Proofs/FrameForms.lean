import SchemaRecords.Proofs.Outcome
import SchemaRecords.Proofs.Stream.WrittenFrames
import SchemaRecords.Proofs.Wire.ReadVarints

/-!
# The forms of a frame

A frame may be written in many ways: the path to the first message with or without its number,
and every number with superfluous digits.  All of them are read, and the one that is written is
the shortest.
-/

namespace SchemaRecords

namespace Stream.Frame

/-! ## Index paths as they are read -/

theorem isLong_decode {code : Nat} (small : code < 2 ^ 64) : IsLong (Wire.ZigZag.decode code) := by
  unfold IsLong Wire.ZigZag.decode
  split <;> omega

/-- The path to the first message can be read, however it is written. -/
theorem readable_first : Readable [0] where
  nonempty := List.cons_ne_nil _ _
  short := by decide
  long := fun _ member => List.mem_singleton.mp member ▸ ⟨by decide, by decide⟩

theorem encodePath_first : encodePath [0] = Wire.Varint.encode (Wire.ZigZag.encode 0) := by
  rw [encodePath, if_pos rfl]
  exact List.append_nil _

theorem exists_of_readIndex {index : Int} {bytes rest : Bytes}
    (read : readIndex bytes = .ok (index, rest)) :
    ∃ digits, bytes = digits ++ rest ∧
      (Wire.Varint.encode (Wire.ZigZag.encode index)).length ≤ digits.length ∧ IsLong index := by
  unfold readIndex at read
  split at read
  · rename_i code after accepted
    cases read
    rcases Wire.Varint.exists_of_read accepted with ⟨digits, same, longer, small⟩
    exact ⟨digits, same, by rwa [Wire.ZigZag.encode_decode], isLong_decode small⟩
  · cases read

/-- By induction on the numbers that are still to be read. -/
theorem exists_of_readIndices {count : Nat} {path : List Int} {bytes rest : Bytes}
    (read : readIndices count bytes = .ok (path, rest)) :
    ∃ digits, bytes = digits ++ rest ∧
      (path.flatMap fun i => Wire.Varint.encode (Wire.ZigZag.encode i)).length ≤ digits.length ∧
      path.length = count ∧ ∀ index ∈ path, IsLong index := by
  induction count generalizing path bytes with
  | zero =>
    cases read
    exact ⟨[], rfl, Nat.le_refl _, rfl, fun _ member => nomatch member⟩
  | succ count inductionHypothesis =>
    rw [readIndices] at read
    split at read
    · cases read
    · rename_i index after first
      split at read
      · cases read
      · rename_i indices _ others
        cases read
        rcases exists_of_readIndex first with ⟨front, same, longer, long⟩
        rcases inductionHypothesis others with ⟨back, sameToo, longerToo, counted, allLong⟩
        refine ⟨front ++ back, by rw [same, sameToo, List.append_assoc], ?_, ?_, ?_⟩
        · rw [List.flatMap_cons, List.length_append, List.length_append]
          omega
        · rw [List.length_cons, counted]
        · exact List.forall_mem_cons.mpr ⟨long, allLong⟩

/-- A path that was read can be written again, in no more bytes. -/
theorem exists_of_readPath {path : List Int} {bytes rest : Bytes}
    (read : readPath bytes = .ok (path, rest)) :
    ∃ digits, bytes = digits ++ rest ∧ (encodePath path).length ≤ digits.length ∧
      Readable path := by
  unfold readPath at read
  split at read
  · cases read
  · rename_i count after first
    rcases exists_of_readIndex first with ⟨front, same, longer, _⟩
    split at read
    · cases read
    · rename_i legal
      split at read
      · rename_i isZero
        cases read
        subst isZero
        exact ⟨front, same, encodePath_first ▸ longer, readable_first⟩
      · rename_i notZero
        rcases exists_of_readIndices read with ⟨back, sameToo, longerToo, counted, allLong⟩
        have readable : Readable path := by
          refine ⟨fun empty => ?_, ?_, allLong⟩
          · rw [empty, List.length_nil] at counted
            omega
          · omega
        refine ⟨front ++ back, by rw [same, sameToo, List.append_assoc], ?_, readable⟩
        by_cases isFirst : path = [0]
        · -- The short form is a single byte, and some byte stood there for the length.
          have atLeast :=
            List.length_pos_iff.mpr (Wire.Varint.encode_ne_nil (Wire.ZigZag.encode count))
          rw [isFirst, encodePath_first, Wire.Varint.length_encode_of_lt (by decide),
            List.length_append]
          omega
        · rw [encodePath, List.length_append, List.length_append]
          have sameCount : (path.length : Int) = count := by omega
          simp only [if_neg isFirst, sameCount]
          omega

/-! ## Frames as they are read -/

/-- The path as which a path is read: no path is the path to the first message. -/
def completed (path : List Int) : List Int := if path = [] then [0] else path

theorem encodePath_completed (path : List Int) : encodePath (completed path) = encodePath path := by
  unfold completed
  split
  · rename_i empty
    rw [empty]
    rfl
  · rfl

theorem readable_completed {path : List Int} (short : path.length ≤ maxIndexCount)
    (long : ∀ index ∈ path, IsLong index) : Readable (completed path) := by
  unfold completed
  split
  · exact readable_first
  · rename_i nonempty
    exact ⟨nonempty, short, long⟩

/-- What is read of a frame: its payload stands last, its path can be written, and the whole is no
shorter than the written form. -/
theorem exists_of_decode {bytes : Bytes} {frame : Frame} (read : decode bytes = .ok frame) :
    frame.payload <:+ bytes ∧ frame.encode.length ≤ bytes.length ∧ Readable frame.index := by
  unfold decode at read
  split at read
  · cases read
  · rename_i first rest
    split at read
    · cases read
    · split at read
      · cases read
      · rename_i identifier afterIdentifier cut
        split at read
        · cases read
        · rename_i index payload isPath
          cases read
          rcases Bytes.splitAt?_eq_some_iff.mp cut with ⟨same, four⟩
          rcases exists_of_readPath isPath with ⟨digits, sameToo, longer, readable⟩
          have whole : first :: rest = (first :: identifier ++ digits) ++ payload := by
            rw [same, sameToo, List.cons_append, List.cons_append, List.append_assoc]
          refine ⟨⟨_, whole.symm⟩, ?_, readable⟩
          rw [whole, encode]
          simp only [List.length_append, List.length_cons, Bytes.length_bigEndian, four]
          omega

/-- Whatever can be framed is read back, the empty path as the path to the first message.
Whatever is read as a frame ends with its payload, and the frame is written in no more bytes,
which are read as the same frame. -/
theorem decode_encode_forms :
    (∀ (schemaId : UInt32) (path : List Int) (payload : Bytes), path.length ≤ maxIndexCount →
      (∀ index ∈ path, IsLong index) →
      decode (encode ⟨schemaId, path, payload⟩) = .ok ⟨schemaId, completed path, payload⟩) ∧
    ∀ (bytes : Bytes) (frame : Frame), decode bytes = .ok frame →
      frame.payload <:+ bytes ∧ frame.encode.length ≤ bytes.length ∧
        decode frame.encode = .ok frame := by
  constructor
  · intro schemaId path payload short long
    have sameBytes : encode ⟨schemaId, path, payload⟩ =
        encode ⟨schemaId, completed path, payload⟩ := by
      rw [encode, encode, encodePath_completed]
    rw [sameBytes]
    exact decode_encode (readable_completed short long)
  · intro bytes frame read
    rcases exists_of_decode read with ⟨suffix, shorter, readable⟩
    exact ⟨suffix, shorter, decode_encode readable⟩

/-- A path of no numbers, and the path to the first message with superfluous digits. -/
theorem decode_encode_forms_first :
    decode (encode ⟨7, [], [8, 1]⟩) = .ok ⟨7, [0], [8, 1]⟩ ∧
      decode [0, 0, 0, 0, 7, 0x82, 0x00, 0x80, 0x00, 8, 1] = .ok ⟨7, [0], [8, 1]⟩ ∧
      (encode ⟨7, [0], [8, 1]⟩).length ≤ 11 ∧
      decode (encode ⟨7, [0], [8, 1]⟩) = .ok ⟨7, [0], [8, 1]⟩ := by
  have read : decode [0, 0, 0, 0, 7, 0x82, 0x00, 0x80, 0x00, 8, 1] = .ok ⟨7, [0], [8, 1]⟩ :=
    Outcome.toOption_eq_some_iff.mp (by decide +kernel)
  have forms := decode_encode_forms.2 _ _ read
  exact ⟨decode_encode_forms.1 7 [] [8, 1] (by decide) (fun _ member => nomatch member), read, forms.2⟩

end Stream.Frame
end SchemaRecords
