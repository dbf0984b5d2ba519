import SchemaRecords.Proofs.Outcome
import SchemaRecords.Wire.Record

/-!
# Spellings of numbers, values and tags

Which bytes may stand for a number, a single value or a tag, said without a reader.  A number is a
row of digits of base 128, all but the last of which have the high bit; a value is laid out by its
kind; a tag is a number that joins a field number and a kind.  Each reader takes exactly one
spelling off the front of its bytes: it accepts if and only if the bytes begin with one.  For byte
strings that needs a bound, since of a length from 2^32 on the reader takes fewer bytes than it says.
-/

namespace SchemaRecords.Wire

/-! ## Numbers -/

namespace Varint

/-- The number that digits stand for, the least significant first. -/
def total : Bytes → Nat
  | [] => 0
  | byte :: rest => byte.toNat % 128 + 128 * total rest

/-- Digits that go on as long as the high bit says, and that keep within a bound. -/
def IsNumeral (bound : Bound) (digits : Bytes) : Prop :=
  ∃ front last, digits = front ++ [last] ∧ (∀ byte ∈ front, 128 ≤ byte.toNat) ∧
    last.toNat < 128 ∧ front.length < bound.size ∧
    (front.length + 1 = bound.size → last.toNat ≤ bound.top)

variable {top size value : Nat} {byte : UInt8} {bytes digits rest : Bytes}

theorem isNumeral_last (ends : byte.toNat < 128) (small : size = 0 → byte.toNat ≤ top) :
    IsNumeral ⟨size + 1, top⟩ [byte] :=
  ⟨[], byte, rfl, List.forall_mem_nil _, ends, Nat.succ_pos size,
    fun whole => small (Nat.succ.inj whole).symm⟩

theorem isNumeral_more (continues : 128 ≤ byte.toNat) (numeral : IsNumeral ⟨size, top⟩ digits) :
    IsNumeral ⟨size + 1, top⟩ (byte :: digits) := by
  rcases numeral with ⟨front, last, same, high, ends, short, small⟩
  refine ⟨byte :: front, last, by rw [same, List.cons_append], ?_, ends, Nat.succ_lt_succ short,
    fun whole => small (Nat.succ.inj whole)⟩
  intro other member
  rcases List.mem_cons.mp member with first | later
  · exact first ▸ continues
  · exact high other later

/-- A numeral is its last digit alone, or a digit with the high bit in front of a numeral. -/
theorem isNumeral_cases (numeral : IsNumeral ⟨size + 1, top⟩ digits) :
    (∃ byte, digits = [byte] ∧ byte.toNat < 128 ∧ (size = 0 → byte.toNat ≤ top)) ∨
      ∃ byte others, digits = byte :: others ∧ 128 ≤ byte.toNat ∧
        IsNumeral ⟨size, top⟩ others := by
  rcases numeral with ⟨front, last, same, high, ends, short, small⟩
  cases front with
  | nil => exact .inl ⟨last, same, ends, fun none => small (by rw [none]; rfl)⟩
  | cons byte front =>
    refine .inr ⟨byte, front ++ [last], same, high byte List.mem_cons_self, front, last, rfl,
      fun other member => high other (List.mem_cons_of_mem _ member), ends,
      Nat.lt_of_succ_lt_succ short, fun whole => small ?_⟩
    rw [List.length_cons, whole]

@[simp] theorem total_singleton : total [byte] = byte.toNat % 128 := rfl

/-- What was read is a numeral, by induction on the digits that may still come. -/
theorem exists_numeral_of_readDigits (small : top < 128)
    (read : readDigits top (size + 1) bytes = .ok (value, rest)) :
    ∃ digits, bytes = digits ++ rest ∧ IsNumeral ⟨size + 1, top⟩ digits ∧
      total digits = value := by
  induction size generalizing value bytes with
  | zero =>
    cases bytes with
    | nil => cases read
    | cons byte tail =>
      simp only [readDigits] at read
      split at read
      · rename_i isLast
        cases read
        exact ⟨[byte], rfl, isNumeral_last (by omega) fun _ => isLast, Nat.mod_eq_of_lt (by omega)⟩
      · cases read
  | succ size inductionHypothesis =>
    cases bytes with
    | nil => cases read
    | cons byte tail =>
      have isByte := byte.toNat_lt
      simp only [readDigits] at read
      split at read
      · rename_i isLast
        cases read
        exact ⟨[byte], rfl, isNumeral_last isLast fun none => absurd none (Nat.succ_ne_zero _),
          Nat.mod_eq_of_lt isLast⟩
      · rename_i more
        split at read
        · rename_i inner after later
          cases read
          rcases inductionHypothesis later with ⟨digits, same, numeral, isTotal⟩
          refine ⟨byte :: digits, by rw [same, List.cons_append],
            isNumeral_more (by omega) numeral, ?_⟩
          rw [total, isTotal]
          omega
        · cases read

/-- A numeral is read off the front of any bytes, by induction on its digits. -/
theorem readDigits_append (numeral : IsNumeral ⟨size + 1, top⟩ digits) (rest : Bytes) :
    readDigits top (size + 1) (digits ++ rest) = .ok (total digits, rest) := by
  induction size generalizing digits with
  | zero =>
    rcases isNumeral_cases numeral with
      ⟨byte, rfl, ends, isLast⟩ | ⟨byte, others, rfl, continues, front, last, -, -, -, none, -⟩
    · simp only [List.cons_append, List.nil_append, readDigits, if_pos (isLast rfl),
        total_singleton, Nat.mod_eq_of_lt ends]
    · exact absurd none (Nat.not_lt_zero _)
  | succ size inductionHypothesis =>
    rcases isNumeral_cases numeral with
      ⟨byte, rfl, ends, -⟩ | ⟨byte, others, rfl, continues, later⟩
    · simp only [List.cons_append, List.nil_append, readDigits, if_pos ends, total_singleton,
        Nat.mod_eq_of_lt ends]
    · have isByte := byte.toNat_lt
      have digit : byte.toNat - 128 = byte.toNat % 128 := by omega
      simp only [List.cons_append, readDigits, if_neg (Nat.not_lt.mpr continues),
        inductionHypothesis later, total, digit]

theorem readDigits_eq_ok_iff (small : top < 128) :
    readDigits top (size + 1) bytes = .ok (value, rest) ↔
      ∃ digits, bytes = digits ++ rest ∧ IsNumeral ⟨size + 1, top⟩ digits ∧
        total digits = value := by
  constructor
  · exact exists_numeral_of_readDigits small
  · rintro ⟨digits, rfl, numeral, rfl⟩
    exact readDigits_append numeral rest

theorem read_long_eq_ok_iff : read .long bytes = .ok (value, rest) ↔
    ∃ digits, bytes = digits ++ rest ∧ IsNumeral .long digits ∧ total digits = value :=
  readDigits_eq_ok_iff (by decide)

theorem read_short_eq_ok_iff : read .short bytes = .ok (value, rest) ↔
    ∃ digits, bytes = digits ++ rest ∧ IsNumeral .short digits ∧ total digits = value :=
  readDigits_eq_ok_iff (by decide)

end Varint

/-! ## Values -/

/-- The bytes that a value of a layout may be written as. -/
inductive Value.Spelled : Layout → Bytes → Prop
  | varint {digits : Bytes} (numeral : Varint.IsNumeral .long digits) : Spelled .varint digits
  | fixed64 {word : Bytes} (width : word.length = 8) : Spelled .fixed64 word
  | fixed32 {word : Bytes} (width : word.length = 4) : Spelled .fixed32 word
  | delimited {digits content : Bytes} (numeral : Varint.IsNumeral .long digits)
      (length : Varint.total digits = content.length) : Spelled .delimited (digits ++ content)

theorem exists_readFixed_iff {width : Nat} {bytes rest : Bytes} :
    (∃ word, readFixed width bytes = .ok (word, rest)) ↔
      ∃ front, bytes = front ++ rest ∧ front.length = width := by
  constructor
  · rintro ⟨word, read⟩
    unfold readFixed at read
    split at read
    · rename_i front after parts
      cases read
      exact ⟨front, Bytes.splitAt?_eq_some_iff.mp parts⟩
    · cases read
  · rintro ⟨front, parts⟩
    refine ⟨Bytes.ofLittleEndian front, ?_⟩
    simp only [readFixed, Bytes.splitAt?_eq_some_iff.mpr parts]

/-- A content of less than 2^32 bytes is read behind any spelling of its length. -/
theorem readDelimited_append {digits content : Bytes} (numeral : Varint.IsNumeral .long digits)
    (length : Varint.total digits = content.length) (short : content.length < 2 ^ 32)
    (rest : Bytes) : readDelimited (digits ++ (content ++ rest)) = .ok (content, rest) := by
  have number : Varint.read .long (digits ++ (content ++ rest)) =
      .ok (content.length, content ++ rest) :=
    Varint.read_long_eq_ok_iff.mpr ⟨digits, rfl, numeral, length⟩
  simp only [readDelimited, number, readContent_append short]

/-- In fewer than 2^32 bytes every length that can be covered counts in full. -/
theorem exists_readDelimited_iff {bytes rest : Bytes} (short : bytes.length < 2 ^ 32) :
    (∃ content, readDelimited bytes = .ok (content, rest)) ↔
      ∃ digits content, bytes = digits ++ (content ++ rest) ∧ Varint.IsNumeral .long digits ∧
        Varint.total digits = content.length := by
  constructor
  · rintro ⟨content, read⟩
    rcases readDelimited_eq_ok_iff.mp read with ⟨length, number, inside, taken⟩
    have shorter := Varint.length_of_read number
    rcases Varint.read_long_eq_ok_iff.mp number with ⟨digits, same, numeral, isLength⟩
    rw [Nat.mod_eq_of_lt (by omega)] at taken
    exact ⟨digits, content, same, numeral, isLength.trans taken.symm⟩
  · rintro ⟨digits, content, rfl, numeral, length⟩
    simp only [List.length_append] at short
    exact ⟨content, readDelimited_append numeral length (by omega) rest⟩

/-- A reader that only wraps what another reader takes accepts the same bytes. -/
theorem exists_wrapped_iff {α : Type} {whole : Except Fault (Value × Bytes)}
    {step : Except Fault (α × Bytes)} {wrap : α → Value} {rest : Bytes}
    (wraps : whole = step.map (Prod.map wrap id)) :
    (∃ value, whole = .ok (value, rest)) ↔ ∃ inner, step = .ok (inner, rest) := by
  simp only [wraps, Outcome.map_eq_ok_iff]
  constructor
  · rintro ⟨_, ⟨inner, _⟩, isInner, rfl, rfl⟩
    exact ⟨inner, isInner⟩
  · rintro ⟨inner, isInner⟩
    exact ⟨wrap inner, (inner, rest), isInner, rfl⟩

theorem Value.read_varint {bytes : Bytes} : read .varint bytes =
    (Varint.read .long bytes).map (Prod.map (fun word => .varint (.ofNat word)) id) := by
  rw [read]
  cases Varint.read .long bytes <;> rfl

theorem Value.read_fixed64 {bytes : Bytes} : read .fixed64 bytes =
    (readFixed 8 bytes).map (Prod.map (fun word => .fixed64 (.ofNat word)) id) := by
  rw [read]
  cases readFixed 8 bytes <;> rfl

theorem Value.read_fixed32 {bytes : Bytes} : read .fixed32 bytes =
    (readFixed 4 bytes).map (Prod.map (fun word => .fixed32 (.ofNat word)) id) := by
  rw [read]
  cases readFixed 4 bytes <;> rfl

theorem Value.read_delimited {bytes : Bytes} : read .delimited bytes =
    (readDelimited bytes).map (Prod.map .delimited id) := by
  rw [read]
  cases readDelimited bytes <;> rfl

/-- A value is read exactly if the bytes begin with a spelling of its layout. -/
theorem Value.exists_read_iff {layout : Layout} {bytes rest : Bytes}
    (short : bytes.length < 2 ^ 32) :
    (∃ value, read layout bytes = .ok (value, rest)) ↔
      ∃ front, bytes = front ++ rest ∧ Spelled layout front := by
  cases layout with
  | varint =>
    refine (exists_wrapped_iff read_varint).trans ⟨?_, ?_⟩
    · rintro ⟨word, number⟩
      rcases Varint.read_long_eq_ok_iff.mp number with ⟨digits, same, numeral, -⟩
      exact ⟨digits, same, .varint numeral⟩
    · rintro ⟨front, same, ⟨numeral⟩⟩
      exact ⟨_, Varint.read_long_eq_ok_iff.mpr ⟨front, same, numeral, rfl⟩⟩
  | fixed64 =>
    refine ((exists_wrapped_iff read_fixed64).trans exists_readFixed_iff).trans ⟨?_, ?_⟩
    · rintro ⟨front, same, width⟩
      exact ⟨front, same, .fixed64 width⟩
    · rintro ⟨front, same, spelled⟩
      rcases spelled with _ | width | _ | _
      exact ⟨front, same, width⟩
  | fixed32 =>
    refine ((exists_wrapped_iff read_fixed32).trans exists_readFixed_iff).trans ⟨?_, ?_⟩
    · rintro ⟨front, same, width⟩
      exact ⟨front, same, .fixed32 width⟩
    · rintro ⟨front, same, spelled⟩
      rcases spelled with _ | _ | width | _
      exact ⟨front, same, width⟩
  | delimited =>
    refine ((exists_wrapped_iff read_delimited).trans (exists_readDelimited_iff short)).trans
      ⟨?_, ?_⟩
    · rintro ⟨digits, content, same, numeral, length⟩
      exact ⟨digits ++ content, by rw [same, List.append_assoc], .delimited numeral length⟩
    · rintro ⟨_, same, spelled⟩
      rcases spelled with _ | _ | _ | @⟨digits, content, numeral, length⟩
      exact ⟨digits, content, by rw [same, List.append_assoc], numeral, length⟩

/-! ## Tags -/

/-- The bytes that a tag may be written as.  Field number zero is never announced. -/
def Tag.Spelled (tag : Tag) (digits : Bytes) : Prop :=
  Varint.IsNumeral .short digits ∧ Varint.total digits = tag.code ∧ 0 < tag.number

theorem Kind.code_of_ofCode? {code : Nat} {kind : Kind} (found : ofCode? code = some kind) :
    kind.code = code := by
  unfold ofCode? at found
  split at found <;> cases found <;> rfl

theorem Tag.ofCode_eq_ok_iff {code : Nat} {tag : Tag} :
    ofCode code = .ok tag ↔ code = tag.code ∧ 0 < tag.number := by
  constructor
  · intro found
    unfold ofCode at found
    split at found
    · cases found
    · rename_i positive
      split at found
      · rename_i kind isKind
        cases found
        refine ⟨?_, Nat.pos_of_ne_zero positive⟩
        rw [Tag.code, Kind.code_of_ofCode? isKind]
        exact (Nat.div_add_mod' code 8).symm
      · cases found
  · rintro ⟨rfl, positive⟩
    exact ofCode_code tag positive

/-- A tag is read exactly if the bytes begin with a spelling of it. -/
theorem Tag.read_eq_ok_iff {tag : Tag} {bytes rest : Bytes} :
    read bytes = .ok (tag, rest) ↔ ∃ front, bytes = front ++ rest ∧ tag.Spelled front := by
  constructor
  · intro done
    unfold read at done
    split at done
    · cases done
    · rename_i code after number
      split at done
      · cases done
      · rename_i found isTag
        cases done
        rcases Varint.read_short_eq_ok_iff.mp number with ⟨digits, same, numeral, isCode⟩
        rcases ofCode_eq_ok_iff.mp isTag with ⟨codeSame, positive⟩
        exact ⟨digits, same, numeral, isCode.trans codeSame, positive⟩
  · rintro ⟨front, same, numeral, isCode, positive⟩
    have number := Varint.read_short_eq_ok_iff.mpr ⟨front, same, numeral, rfl⟩
    have isTag := ofCode_eq_ok_iff.mpr ⟨isCode, positive⟩
    simp only [read, number, isTag]

end SchemaRecords.Wire
