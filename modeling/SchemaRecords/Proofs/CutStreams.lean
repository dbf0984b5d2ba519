import SchemaRecords.Proofs.Stream.WrittenFrames
import SchemaRecords.Proofs.Text.WrittenText
import SchemaRecords.Stream.Record

/-!
# Streams that are cut off

A stream of records is read back as it was written.  If it is cut off somewhere, the records in
front of the cut are still read, and how the reading ends says where the last record was cut: its
lines do not count, since a stream may end with lines, but its length and its value do.

The reader looks for the ends of lines only in the lines.  A value may therefore hold any bytes,
while an offset or a key with a line feed in it would be taken for two lines.
-/

namespace SchemaRecords.Stream

/-! ## Lines -/

/-- What stands behind the first line of a stream, if the stream is cut off. -/
theorem splitLine_take {line : Bytes} (oneLine : lineFeed ∉ line) (rest : Bytes) (count : Nat) :
    (splitLine ((line ++ lineFeed :: rest).take count)).2 =
      rest.take (count - (line.length + 1)) := by
  induction line generalizing count with
  | nil =>
    cases count with
    | zero => rw [Nat.zero_sub, List.take_zero, List.take_zero, splitLine]
    | succ count =>
      rw [List.nil_append, List.take_succ_cons, splitLine, if_pos rfl]
      rfl
  | cons byte line inductionHypothesis =>
    have different := List.ne_of_not_mem_cons oneLine
    have others := List.not_mem_of_not_mem_cons oneLine
    cases count with
    | zero => rw [Nat.zero_sub, List.take_zero, List.take_zero, splitLine]
    | succ count =>
      rw [List.cons_append, List.take_succ_cons, splitLine, if_neg (Ne.symm different)]
      simp only [inductionHypothesis others, List.length_cons, Nat.add_sub_add_right]

theorem splitLine_append {line : Bytes} (oneLine : lineFeed ∉ line) (rest : Bytes) :
    splitLine (line ++ lineFeed :: rest) = (line, rest) := by
  induction line with
  | nil => rw [List.nil_append, splitLine, if_pos rfl]
  | cons byte line inductionHypothesis =>
    have different := List.ne_of_not_mem_cons oneLine
    have others := List.not_mem_of_not_mem_cons oneLine
    rw [List.cons_append, splitLine, if_neg (Ne.symm different)]
    simp only [inductionHypothesis others]

/-- The end of a line is the byte of the character that ends lines, and of no other. -/
theorem lineFeed_notMem_encode {text : String} (oneLine : '\n' ∉ text.toList) :
    lineFeed ∉ Text.Utf8.encode text :=
  fun member => oneLine (Text.Utf8.mem_encode (by decide) member)

theorem readLine_encode {text : String} (oneLine : '\n' ∉ text.toList) (rest : Bytes) :
    readLine (Text.Utf8.encode text ++ lineFeed :: rest) = (text, rest) := by
  rw [readLine, splitLine_append (lineFeed_notMem_encode oneLine), Text.Utf8.decodeLossy_encode]

theorem readLine_take {text : String} (oneLine : '\n' ∉ text.toList) (rest : Bytes) (count : Nat) :
    (readLine ((Text.Utf8.encode text ++ lineFeed :: rest).take count)).2 =
      rest.take (count - ((Text.Utf8.encode text).length + 1)) :=
  splitLine_take (lineFeed_notMem_encode oneLine) rest count

/-! ## Records -/

namespace Record

/-- A record that can be written: its offset and key are lines, and its value has a length of
four bytes. -/
structure Writable (record : Record) : Prop where
  offset : '\n' ∉ record.offset.toList
  key : '\n' ∉ record.key.toList
  value : record.value.length < 2 ^ 32

/-- How many bytes there are in front of the length of a record: its two lines. -/
def linesLength (record : Record) : Nat :=
  (Text.Utf8.encode record.offset).length + 1 + ((Text.Utf8.encode record.key).length + 1)

/-- How the reading of a record ends of which only so many bytes are left.  Without a byte of the
length, the stream is over. -/
def endingAt (record : Record) (count : Nat) : Option FramingError :=
  if count ≤ record.linesLength then none
  else if count < record.linesLength + 4 then some (.endOfInput .recordLength)
  else some (.endOfInput .recordValue)

variable {record : Record}

theorem length_encode (record : Record) :
    record.encode.length = record.linesLength + 4 + record.value.length := by
  simp only [encode, linesLength, List.length_append, List.length_cons, Bytes.length_bigEndian]
  omega

/-- A record in front of other bytes, taken apart in the order of reading. -/
theorem encode_append (record : Record) (rest : Bytes) :
    record.encode ++ rest = Text.Utf8.encode record.offset ++ lineFeed ::
      (Text.Utf8.encode record.key ++ lineFeed ::
        (Bytes.bigEndian 4 record.value.length ++ (record.value ++ rest))) := by
  simp only [encode, List.append_assoc, List.cons_append]

theorem readValue_bigEndian {value : Bytes} (short : value.length < 2 ^ 32) (rest : Bytes) :
    readValue (Bytes.bigEndian 4 value.length ++ (value ++ rest)) = .ok (some (value, rest)) := by
  have length := Bytes.splitAt?_append (Bytes.bigEndian 4 value.length) (value ++ rest)
  rw [Bytes.length_bigEndian] at length
  have nonempty : Bytes.bigEndian 4 value.length ++ (value ++ rest) ≠ [] := by
    intro empty
    have length := congrArg List.length empty
    rw [List.length_append, Bytes.length_bigEndian, List.length_nil] at length
    omega
  simp only [readValue, if_neg nonempty, length, Bytes.ofBigEndian_bigEndian 4 _ short,
    Bytes.splitAt?_append]

/-- A written record is read, whatever follows it. -/
theorem read_encode (writable : record.Writable) (rest : Bytes) :
    read (record.encode ++ rest) = .ok (some (record, rest)) := by
  rw [encode_append, read]
  simp only [readLine_encode writable.offset, readLine_encode writable.key,
    readValue_bigEndian writable.value]

/-- A length and a value of which some bytes are missing. -/
theorem readValue_take {value : Bytes} (short : value.length < 2 ^ 32) {count : Nat}
    (missing : count < 4 + value.length) :
    readValue ((Bytes.bigEndian 4 value.length ++ value).take count) =
      if count = 0 then .ok none
      else if count < 4 then .error (.endOfInput .recordLength)
      else .error (.endOfInput .recordValue) := by
  have four := Bytes.length_bigEndian 4 value.length
  have taken : ((Bytes.bigEndian 4 value.length ++ value).take count).length = count := by
    rw [List.length_take_of_le]
    rw [List.length_append, four]
    omega
  by_cases nothing : count = 0
  · rw [nothing, List.take_zero, readValue, if_pos rfl, if_pos rfl]
  · have nonempty : (Bytes.bigEndian 4 value.length ++ value).take count ≠ [] := by
      intro empty
      rw [empty, List.length_nil] at taken
      exact nothing taken.symm
    rw [readValue, if_neg nonempty, if_neg nothing]
    by_cases inLength : count < 4
    · have tooFew : Bytes.splitAt? 4 ((Bytes.bigEndian 4 value.length ++ value).take count) =
          none := Bytes.splitAt?_of_lt (taken.symm ▸ inLength)
      simp only [tooFew, if_pos inLength]
    · have behind : (Bytes.bigEndian 4 value.length ++ value).take count =
          Bytes.bigEndian 4 value.length ++ value.take (count - 4) := by
        rw [List.take_append, four, List.take_of_length_le (by omega)]
      have length := Bytes.splitAt?_append (Bytes.bigEndian 4 value.length)
        (value.take (count - 4))
      rw [four] at length
      have tooFew : Bytes.splitAt? value.length (value.take (count - 4)) = none := by
        apply Bytes.splitAt?_of_lt
        rw [List.length_take]
        omega
      simp only [behind, length, Bytes.ofBigEndian_bigEndian 4 _ short, tooFew, if_neg inLength]

/-- A record of which some bytes are missing is not read, and the reading ends as its missing
bytes say. -/
theorem read_take (writable : record.Writable) {count : Nat} (missing : count < record.encode.length) :
    read (record.encode.take count) =
      match record.endingAt count with
      | none => .ok none
      | some error => .error error := by
  rw [length_encode] at missing
  have apart := encode_append record []
  simp only [List.append_nil] at apart
  have behindLines : (readLine (readLine (record.encode.take count)).2).2 =
      (Bytes.bigEndian 4 record.value.length ++ record.value).take (count - record.linesLength) := by
    rw [apart, readLine_take writable.offset, readLine_take writable.key, Nat.sub_sub]
    rfl
  simp only [read, behindLines,
    readValue_take writable.value (show count - record.linesLength < _ by omega), endingAt]
  by_cases inLines : count ≤ record.linesLength
  · rw [if_pos inLines, if_pos (by omega)]
  · rw [if_neg inLines, if_neg (by omega)]
    by_cases inLength : count < record.linesLength + 4
    · rw [if_pos inLength, if_pos (by omega)]
    · rw [if_neg inLength, if_neg (by omega)]

/-! ## Streams -/

theorem readAll_append (writable : record.Writable) (rest : Bytes) :
    readAll (record.encode ++ rest) = (record :: (readAll rest).1, (readAll rest).2) := by
  rw [readAll.eq_def]
  split
  · rename_i error step
    cases (read_encode writable rest).symm.trans step
  · rename_i step
    cases (read_encode writable rest).symm.trans step
  · rename_i step
    cases (read_encode writable rest).symm.trans step
    rfl

theorem readAll_flatMap_append {records : List Record} (writable : ∀ record ∈ records, record.Writable)
    (rest : Bytes) :
    readAll (records.flatMap encode ++ rest) = (records ++ (readAll rest).1, (readAll rest).2) := by
  induction records with
  | nil => rfl
  | cons record records inductionHypothesis =>
    rcases List.forall_mem_cons.mp writable with ⟨here, later⟩
    rw [List.flatMap_cons, List.append_assoc, readAll_append here, inductionHypothesis later]
    rfl

theorem readAll_take (writable : record.Writable) {count : Nat}
    (missing : count < record.encode.length) :
    readAll (record.encode.take count) = ([], record.endingAt count) := by
  have step := read_take writable missing
  rw [readAll.eq_def]
  cases ending : record.endingAt count with
  | none =>
    rw [ending] at step
    split
    · rename_i found
      cases step.symm.trans found
    · rfl
    · rename_i found
      cases step.symm.trans found
  | some error =>
    rw [ending] at step
    split
    · rename_i found
      cases step.symm.trans found
      rfl
    · rename_i found
      cases step.symm.trans found
    · rename_i found
      cases step.symm.trans found

/-- A cut inside of a stream falls into exactly one of its records. -/
theorem exists_cut {records : List Record} {count : Nat}
    (inside : count < (records.flatMap encode).length) :
    ∃ whole record rest, records = whole ++ record :: rest ∧
      (whole.flatMap encode).length ≤ count ∧
      count - (whole.flatMap encode).length < record.encode.length := by
  induction records generalizing count with
  | nil => exact absurd inside (Nat.not_lt_zero _)
  | cons first records inductionHypothesis =>
    rw [List.flatMap_cons, List.length_append] at inside
    by_cases here : count < first.encode.length
    · exact ⟨[], first, records, rfl, Nat.zero_le _, by simpa using here⟩
    · have later : count - first.encode.length < (records.flatMap encode).length := by omega
      rcases inductionHypothesis later with
        ⟨whole, record, rest, same, before, within⟩
      refine ⟨first :: whole, record, rest, by rw [same, List.cons_append], ?_, ?_⟩ <;>
        rw [List.flatMap_cons, List.length_append] <;> omega

/-- Records are read back as they were written, up to the clean end of the stream.  If the stream
is cut off, the records that lie wholly in front of the cut are read, and the reading ends as the
record says in which the cut lies. -/
theorem readAll_written {records : List Record} (writable : ∀ record ∈ records, record.Writable) :
    readAll (records.flatMap encode) = (records, none) ∧
      ∀ count < (records.flatMap encode).length, ∃ whole record rest,
        records = whole ++ record :: rest ∧ (whole.flatMap encode).length ≤ count ∧
        count - (whole.flatMap encode).length < record.encode.length ∧
        readAll ((records.flatMap encode).take count) =
          (whole, record.endingAt (count - (whole.flatMap encode).length)) := by
  constructor
  · have read := readAll_flatMap_append writable []
    have nothing : readAll [] = ([], none) := by
      rw [readAll.eq_def]
      rfl
    rwa [nothing, List.append_nil, List.append_nil] at read
  · intro count inside
    rcases exists_cut inside with ⟨whole, record, rest, same, before, within⟩
    refine ⟨whole, record, rest, same, before, within, ?_⟩
    have fronts : ∀ front ∈ whole, front.Writable := fun front member =>
      writable front (same ▸ List.mem_append_left _ member)
    have last : record.Writable := writable record (same ▸ List.mem_append_right _ List.mem_cons_self)
    have cut : (records.flatMap encode).take count =
        whole.flatMap encode ++ record.encode.take (count - (whole.flatMap encode).length) := by
      rw [same, List.flatMap_append, List.flatMap_cons, List.take_append,
        List.take_of_length_le before, List.take_append_of_le_length (Nat.le_of_lt within)]
    rw [cut, readAll_flatMap_append fronts, readAll_take last within, List.append_nil]

/-- A value with line feeds in it, and a stream that ends in the length of its second record. -/
theorem readAll_written_notes :
    readAll ([⟨"1", "", [10, 10]⟩, ⟨"2", "é", []⟩].flatMap encode) =
        ([⟨"1", "", [10, 10]⟩, ⟨"2", "é", []⟩], none) ∧
      ∃ whole record rest,
        ([⟨"1", "", [10, 10]⟩, ⟨"2", "é", []⟩] : List Record) = whole ++ record :: rest ∧
        readAll (([⟨"1", "", [10, 10]⟩, ⟨"2", "é", []⟩].flatMap encode).take 15) =
          (whole, record.endingAt (15 - (whole.flatMap encode).length)) := by
  have writable : ∀ record ∈ ([⟨"1", "", [10, 10]⟩, ⟨"2", "é", []⟩] : List Record),
      record.Writable := by
    intro record member
    simp only [List.mem_cons, List.not_mem_nil, or_false] at member
    rcases member with rfl | rfl
    · exact ⟨by decide, by decide, by decide⟩
    · exact ⟨by decide, by decide, by decide⟩
  have written := readAll_written writable
  rcases written.2 15 (by decide) with ⟨whole, record, rest, same, _, _, read⟩
  exact ⟨written.1, whole, record, rest, same, read⟩

end Record
end SchemaRecords.Stream
