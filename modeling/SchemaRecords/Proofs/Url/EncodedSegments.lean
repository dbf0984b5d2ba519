import SchemaRecords.Proofs.Number.WrittenNumerals
import SchemaRecords.Proofs.Text.WrittenText
import SchemaRecords.Registry.Client

/-!
# Encoded segments

A text is found again behind its percent-encoding, as long as the percent sign is encoded itself and
everything outside ASCII is.  This alone separates segments of a path from all that segments can be
taken for: no delimiter of a URL is left in one, two of them are equal only for equal texts, and one
is taken for a dot segment only if the text is one already.
-/

namespace SchemaRecords.Url

open Text

/-! ## Bytes behind percent signs -/

/-- A set of characters for an encoding that can be undone. -/
structure EncodeSet.Reversible (set : EncodeSet) : Prop where
  percent : set '%' = true
  outside : ∀ c : Char, 128 ≤ c.toNat → set c = true

theorem reversible_segmentSet (special : Bool) : EncodeSet.Reversible (segmentSet special) where
  percent := by cases special <;> rfl
  outside := by
    intro c large
    have control : controlSet c = true := by
      rw [controlSet, Bool.or_eq_true]
      exact .inr (decide_eq_true (Nat.le_of_succ_le large))
    simp only [segmentSet, pathSet, fragmentSet, control, Bool.true_or]

/-- The character of an upper-case hexadecimal digit, as a byte. -/
theorem encodeChar_upperHexDigit {value : Nat} (small : value < 16) :
    ∃ byte, Utf8.encodeChar (upperHexDigit value) = [byte] ∧ hexValue? byte = some value := by
  have each : ∀ value < 16, (Utf8.encodeChar (upperHexDigit value)).head?.bind hexValue? =
      some value ∧ (Utf8.encodeChar (upperHexDigit value)).length = 1 := by decide
  rcases each value small with ⟨isValue, single⟩
  rcases List.length_eq_one_iff.mp single with ⟨byte, same⟩
  rw [same] at isValue
  exact ⟨byte, same, isValue⟩

theorem percentDecode_percentByte (byte : UInt8) (rest : Bytes) :
    percentDecode ((percentByte byte).flatMap Utf8.encodeChar ++ rest) =
      byte :: percentDecode rest := by
  have isByte := byte.toNat_lt
  rcases encodeChar_upperHexDigit (show byte.toNat / 16 < 16 by omega) with ⟨high, isHigh, highValue⟩
  rcases encodeChar_upperHexDigit (show byte.toNat % 16 < 16 by omega) with ⟨low, isLow, lowValue⟩
  have mark : Utf8.encodeChar '%' = [37] := rfl
  have whole : UInt8.ofNat (byte.toNat / 16 * 16 + byte.toNat % 16) = byte := by
    rw [Nat.div_add_mod' byte.toNat 16, UInt8.ofNat_toNat]
  simp only [percentByte, List.flatMap_cons, List.flatMap_nil, mark, isHigh, isLow,
    List.cons_append, List.nil_append, percentDecode, highValue, lowValue, whole]

theorem percentDecode_of_ne {byte : UInt8} (plain : byte ≠ 37) (rest : Bytes) :
    percentDecode (byte :: rest) = byte :: percentDecode rest := by
  rw [percentDecode.eq_def]
  split
  · rename_i same
    exact absurd (List.cons.inj same).1 plain
  · rename_i same
    cases same
    rfl
  · rename_i none
    cases none

theorem encodeChar_of_lt {c : Char} (small : c.toNat < 128) :
    Utf8.encodeChar c = [UInt8.ofNat c.toNat] := by
  have least : c.val.toNat ≤ 0x7F := Nat.le_of_lt_succ small
  unfold Utf8.encodeChar String.utf8EncodeChar
  dsimp only
  rw [if_pos least]
  rfl

/-- Undoing the encoding gives the bytes of the text. -/
theorem percentDecode_percentEncode {set : EncodeSet} (reversible : set.Reversible)
    (text : List Char) :
    percentDecode ((percentEncode set text).flatMap Utf8.encodeChar) =
      text.flatMap Utf8.encodeChar := by
  have bytes (encoded rest : Bytes) :
      percentDecode ((encoded.flatMap percentByte).flatMap Utf8.encodeChar ++ rest) =
        encoded ++ percentDecode rest := by
    induction encoded with
    | nil => rfl
    | cons byte encoded inductionHypothesis =>
      rw [List.flatMap_cons, List.flatMap_append, List.append_assoc, percentDecode_percentByte,
        inductionHypothesis, List.cons_append]
  unfold percentEncode
  induction text with
  | nil => rfl
  | cons c text inductionHypothesis =>
    rw [List.flatMap_cons, List.flatMap_append, List.flatMap_cons]
    split
    · rw [bytes, inductionHypothesis]
    · rename_i kept
      have small : c.toNat < 128 := Nat.not_le.mp fun large => kept (reversible.outside c large)
      have notPercent : UInt8.ofNat c.toNat ≠ 37 := by
        intro same
        have code : c.toNat = 37 := by
          have codes := congrArg UInt8.toNat same
          rwa [UInt8.toNat_ofNat', Nat.mod_eq_of_lt (by omega)] at codes
        have isPercent : c = '%' := by
          rw [← Char.ofNat_toNat c, code]
        exact kept (isPercent ▸ reversible.percent)
      rw [List.flatMap_singleton, encodeChar_of_lt small, List.cons_append, List.nil_append,
        percentDecode_of_ne notPercent, inductionHypothesis, List.cons_append, List.nil_append]

/-- The text behind an encoding, as it is found by undoing the encoding. -/
theorem decode?_percentEncode {set : EncodeSet} (reversible : set.Reversible) (text : String) :
    Utf8.decode? (percentDecode (Utf8.encode (String.ofList (percentEncode set text.toList)))) =
      some text := by
  rw [Utf8.encode_eq, String.toList_ofList, percentDecode_percentEncode reversible,
    ← Utf8.encode_eq, Utf8.decode?_encode]

theorem flatMap_encodeChar_injective {first second : List Char}
    (same : first.flatMap Utf8.encodeChar = second.flatMap Utf8.encodeChar) : first = second := by
  have texts : Utf8.encode (String.ofList first) = Utf8.encode (String.ofList second) := by
    rw [Utf8.encode_eq, Utf8.encode_eq, String.toList_ofList, String.toList_ofList, same]
  have read := congrArg Utf8.decode? texts
  rw [Utf8.decode?_encode, Utf8.decode?_encode] at read
  exact String.ofList_injective (Option.some.inj read)

theorem percentEncode_injective {set : EncodeSet} (reversible : set.Reversible)
    {first second : List Char} (same : percentEncode set first = percentEncode set second) :
    first = second := by
  have decoded := congrArg (fun text => percentDecode (text.flatMap Utf8.encodeChar)) same
  simp only [percentDecode_percentEncode reversible] at decoded
  exact flatMap_encodeChar_injective decoded

/-! ## What an encoding leaves -/

/-- A text without characters of the set is not changed. -/
theorem percentEncode_eq_self {set : EncodeSet} {text : List Char}
    (plain : ∀ c ∈ text, set c = false) : percentEncode set text = text := by
  unfold percentEncode
  induction text with
  | nil => rfl
  | cons c text inductionHypothesis =>
    rw [List.forall_mem_cons] at plain
    rw [List.flatMap_cons, plain.1, inductionHypothesis plain.2]
    rfl

theorem mem_percentByte {byte : UInt8} {c : Char} (member : c ∈ percentByte byte) :
    c ∈ "%0123456789ABCDEF".toList := by
  have digit : ∀ value < 16, upperHexDigit value ∈ "%0123456789ABCDEF".toList := by decide
  have isByte := byte.toNat_lt
  simp only [percentByte, List.mem_cons, List.not_mem_nil, or_false] at member
  rcases member with rfl | rfl | rfl
  · decide
  · exact digit _ (by omega)
  · exact digit _ (by omega)

/-- An encoding consists of percent signs, digits, and characters that are not in the set. -/
theorem mem_percentEncode {set : EncodeSet} {text : List Char} {c : Char}
    (member : c ∈ percentEncode set text) :
    c ∈ "%0123456789ABCDEF".toList ∨ set c = false := by
  rcases List.mem_flatMap.mp member with ⟨source, -, among⟩
  split at among
  · rcases List.mem_flatMap.mp among with ⟨byte, -, among⟩
    exact .inl (mem_percentByte among)
  · rename_i kept
    rw [List.mem_singleton.mp among]
    exact .inr (Bool.eq_false_iff.mpr kept)

/-- A text that was looked through without finding a character of a kind has none. -/
theorem eq_false_of_any {kind : Char → Bool} {text : List Char} (nowhere : text.any kind = false)
    {c : Char} (member : c ∈ text) : kind c = false :=
  Bool.eq_false_iff.mpr (List.any_eq_false.mp nowhere c member)

/-- Nothing in an encoded segment ends the path or the segment. -/
theorem endsAuthority_of_mem_percentEncode {special : Bool} {text : List Char} {c : Char}
    (member : c ∈ percentEncode (segmentSet special) text) : endsAuthority special c = false := by
  have encoded : ∀ special, "%0123456789ABCDEF".toList.any (endsAuthority special) = false := by
    decide
  rcases mem_percentEncode member with sign | kept
  · exact eq_false_of_any (encoded special) sign
  · -- Every delimiter is in the set.
    rw [Bool.eq_false_iff] at kept ⊢
    intro ends
    apply kept
    simp only [endsAuthority, Bool.or_eq_true, Bool.and_eq_true, decide_eq_true_eq] at ends
    rcases ends with ((rfl | rfl) | rfl) | ⟨isSpecial, rfl⟩
    · cases special <;> rfl
    · cases special <;> rfl
    · cases special <;> rfl
    · rw [isSpecial]
      rfl

/-! ## Dot segments -/

/-- A character is its own lower case, or the capital letter 32 places in front of it. -/
theorem toLower_eq {c lower : Char} (same : c.toLower = lower) :
    c = lower ∨ 65 ≤ c.toNat ∧ c.toNat ≤ 90 ∧ c.toNat + 32 = lower.toNat := by
  unfold Char.toLower at same
  split at same
  · rename_i capital
    have low : 65 ≤ c.toNat := capital.1
    have high : c.toNat ≤ 90 := capital.2
    refine .inr ⟨low, high, ?_⟩
    rw [← same]
    change c.val.toNat + 32 = (c.val + 32).toNat
    rw [UInt32.toNat_add]
    change c.toNat + 32 = (c.toNat + 32) % 2 ^ 32
    omega
  · exact .inl same

theorem eq_of_toLower {c lower : Char} (same : c.toLower = lower)
    (noLetter : lower.toNat < 97) : c = lower := by
  rcases toLower_eq same with isLower | ⟨low, -, offset⟩
  · exact isLower
  · omega

theorem eq_of_toLower_e {c : Char} (same : c.toLower = 'e') : c = 'e' ∨ c = 'E' := by
  rcases toLower_eq same with isLower | ⟨-, -, offset⟩
  · exact .inl isLower
  · have code : c.toNat = 69 := Nat.add_right_cancel offset
    exact .inr (by rw [← Char.ofNat_toNat c, code])

/-- A dot, or its encoding in digits of either case, is a dot. -/
theorem percentDecode_dot {spelling : List Char}
    (dot : spelling.map Char.toLower = ['.'] ∨ spelling.map Char.toLower = ['%', '2', 'e'])
    (rest : Bytes) :
    percentDecode (spelling.flatMap Utf8.encodeChar ++ rest) = 46 :: percentDecode rest := by
  rcases dot with alone | encoded
  · rcases List.map_eq_singleton_iff.mp alone with ⟨c, rfl, isDot⟩
    rw [eq_of_toLower isDot (by decide)]
    exact percentDecode_of_ne (by decide) rest
  · rcases List.map_eq_cons_iff.mp encoded with ⟨mark, others, rfl, isMark, tail⟩
    rcases List.map_eq_cons_iff.mp tail with ⟨high, others, rfl, isHigh, tail⟩
    rcases List.map_eq_singleton_iff.mp tail with ⟨low, rfl, isLow⟩
    rw [eq_of_toLower isMark (by decide), eq_of_toLower isHigh (by decide)]
    rcases eq_of_toLower_e isLow with rfl | rfl <;> rfl

/-- A word among words, by its characters. -/
theorem mem_map_toList {word : List Char} {words : List String}
    (among : words.contains (String.ofList word) = true) : word ∈ words.map String.toList := by
  have member := List.mem_map_of_mem (f := String.toList) (List.contains_iff_mem.mp among)
  rwa [String.toList_ofList] at member

theorem percentDecode_of_isSingleDot {segment : List Char} (dot : isSingleDot segment = true) :
    percentDecode (segment.flatMap Utf8.encodeChar) = ['.'].flatMap Utf8.encodeChar := by
  have spelled : segment.map Char.toLower ∈ [['.'], ['%', '2', 'e']] := mem_map_toList dot
  rw [List.mem_cons, List.mem_singleton] at spelled
  have decoded := percentDecode_dot spelled []
  rwa [List.append_nil] at decoded

theorem percentDecode_of_isDoubleDot {segment : List Char} (dots : isDoubleDot segment = true) :
    percentDecode (segment.flatMap Utf8.encodeChar) = ['.', '.'].flatMap Utf8.encodeChar := by
  have spelled : ∃ first second : List Char, segment.map Char.toLower = first ++ second ∧
      (first = ['.'] ∨ first = ['%', '2', 'e']) ∧ (second = ['.'] ∨ second = ['%', '2', 'e']) := by
    have member : segment.map Char.toLower ∈ [['.', '.'], ['.', '%', '2', 'e'],
      ['%', '2', 'e', '.'], ['%', '2', 'e', '%', '2', 'e']] := mem_map_toList dots
    simp only [List.mem_cons, List.not_mem_nil, or_false] at member
    rcases member with same | same | same | same
    · exact ⟨['.'], ['.'], same, .inl rfl, .inl rfl⟩
    · exact ⟨['.'], ['%', '2', 'e'], same, .inl rfl, .inr rfl⟩
    · exact ⟨['%', '2', 'e'], ['.'], same, .inr rfl, .inl rfl⟩
    · exact ⟨['%', '2', 'e'], ['%', '2', 'e'], same, .inr rfl, .inr rfl⟩
  rcases spelled with ⟨first, second, same, isFirst, isSecond⟩
  rcases List.map_eq_append_iff.mp same with ⟨front, back, rfl, rfl, rfl⟩
  have decoded := percentDecode_dot isSecond []
  rw [List.append_nil] at decoded
  rw [List.flatMap_append, percentDecode_dot isFirst, decoded]
  rfl

/-- The encoding of a text other than dots is no dot segment, as dots are not encoded. -/
theorem isSingleDot_percentEncode {special : Bool} {text : List Char} (noDot : text ≠ ['.']) :
    isSingleDot (percentEncode (segmentSet special) text) = false := by
  rw [Bool.eq_false_iff]
  intro dot
  have decoded := percentDecode_of_isSingleDot dot
  rw [percentDecode_percentEncode (reversible_segmentSet special)] at decoded
  exact noDot (flatMap_encodeChar_injective decoded)

theorem isDoubleDot_percentEncode {special : Bool} {text : List Char} (noDots : text ≠ ['.', '.']) :
    isDoubleDot (percentEncode (segmentSet special) text) = false := by
  rw [Bool.eq_false_iff]
  intro dots
  have decoded := percentDecode_of_isDoubleDot dots
  rw [percentDecode_percentEncode (reversible_segmentSet special)] at decoded
  exact noDots (flatMap_encodeChar_injective decoded)

end SchemaRecords.Url
