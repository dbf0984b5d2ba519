import SchemaRecords.Proofs.Bytes.Sextets
import SchemaRecords.Proofs.Number.WrittenNumerals
import SchemaRecords.Proofs.Outcome
import SchemaRecords.Text.Utf8

/-!
# Base64 text is read exactly as it is written

A text is accepted in a form exactly if it is what the form writes for some bytes, and it is read as
these bytes, `decode_eq_ok_iff`.  The forms overlap, so a text may be accepted by a form that it was
not written in.  It is read as the same bytes nevertheless: `decodeAny?_eq_some_iff` says that trying
one form after the other reads a text as bytes exactly if it is one of their spellings.
-/

namespace SchemaRecords

/-! ## ASCII text -/

/-- Text of ASCII characters is written in one byte for each. -/
theorem Text.Utf8.encode_ascii {bytes : Bytes} (ascii : ∀ byte ∈ bytes, byte.toNat < 128) :
    encode (String.ofList (bytes.map fun byte => Char.ofNat byte.toNat)) = bytes := by
  have single : ∀ byte : UInt8, byte.toNat < 128 →
      String.utf8EncodeChar (Char.ofNat byte.toNat) = [byte] := by
    have each : ∀ value < 128,
        String.utf8EncodeChar (Char.ofNat value) = [UInt8.ofNat value] := by decide +kernel
    intro byte small
    rw [each byte.toNat small, UInt8.ofNat_toNat]
  rw [encode, String.toByteArray_ofList]
  induction bytes with
  | nil => simp
  | cons byte rest inductionHypothesis =>
    have later := inductionHypothesis fun other member => ascii other (List.mem_cons_of_mem _ member)
    have here := single byte (ascii byte List.mem_cons_self)
    rw [List.map_cons, List.utf8Encode_cons, List.utf8Encode_singleton, here]
    simp [later]

namespace Bytes.Base64

/-! ## The last group -/

section

variable {form : Form} {offset : Nat} {characters bytes : Bytes} {values : List Nat} {padding : Nat}

theorem all_pad_iff : characters.all (· == pad) = true ↔ characters = List.replicate characters.length pad := by
  rw [List.eq_replicate_iff, List.all_eq_true]
  simp only [beq_iff_eq, true_and]

/-- How a last group is spelled of which `index` symbols are already read: by symbols, and by padding
behind two of them or more. -/
structure Form.SpellsLast (form : Form) (index : Nat) (values : List Nat) (padding : Nat)
    (characters : Bytes) : Prop where
  spelled : characters = values.map form.alphabet.symbol ++ List.replicate padding pad
  small : ∀ value ∈ values, value < 64
  several : padding ≠ 0 → 2 ≤ index + values.length

section

variable {index : Nat} {byte : UInt8} {rest : Bytes}

theorem spellsLast_nil_iff : form.SpellsLast index values padding [] ↔ values = [] ∧ padding = 0 := by
  constructor
  · rintro ⟨same, -, -⟩
    rcases List.append_eq_nil_iff.mp same.symm with ⟨noSymbols, noPadding⟩
    exact ⟨List.map_eq_nil_iff.mp noSymbols, (List.replicate_eq_nil_iff pad).mp noPadding⟩
  · rintro ⟨rfl, rfl⟩
    exact ⟨rfl, List.forall_mem_nil _, fun padded => absurd rfl padded⟩

/-- Behind padding there is nothing but padding, since no symbol is the padding. -/
theorem spellsLast_pad_iff :
    form.SpellsLast index values padding (pad :: rest) ↔
      2 ≤ index ∧ rest = List.replicate rest.length pad ∧ values = [] ∧
        padding = rest.length + 1 := by
  constructor
  · rintro ⟨same, small, several⟩
    cases values with
    | nil =>
      cases padding with
      | zero => cases same
      | succ count =>
        have others : rest = List.replicate count pad := (List.cons.inj same).2
        have counted : rest.length = count := by rw [others, List.length_replicate]
        exact ⟨several (Nat.succ_ne_zero _), counted.symm ▸ others, rfl, by rw [counted]⟩
    | cons value others =>
      have isSymbol := (List.cons.inj same).1
      exact absurd isSymbol.symm (symbol_facts (small value List.mem_cons_self)).2.1
  · rintro ⟨several, others, rfl, rfl⟩
    exact ⟨congrArg (pad :: ·) others, List.forall_mem_nil _, fun _ => several⟩

theorem spellsLast_symbol_iff (notPad : byte ≠ pad) :
    form.SpellsLast index values padding (byte :: rest) ↔
      ∃ value others, (value < 64 ∧ form.alphabet.symbol value = byte) ∧
        form.SpellsLast (index + 1) others padding rest ∧ values = value :: others := by
  constructor
  · rintro ⟨same, small, several⟩
    cases values with
    | nil =>
      cases padding with
      | zero => cases same
      | succ count => exact absurd (List.cons.inj same).1 notPad
    | cons value others =>
      rcases List.cons.inj same with ⟨isSymbol, restSame⟩
      rcases List.forall_mem_cons.mp small with ⟨valueSmall, othersSmall⟩
      refine ⟨value, others, ⟨valueSmall, isSymbol.symm⟩, ⟨restSame, othersSmall, fun padded => ?_⟩,
        rfl⟩
      have more := several padded
      rw [List.length_cons] at more
      omega
  · rintro ⟨value, others, ⟨valueSmall, isSymbol⟩, ⟨restSame, othersSmall, several⟩, rfl⟩
    refine ⟨by rw [restSame, ← isSymbol]; rfl, List.forall_mem_cons.mpr ⟨valueSmall, othersSmall⟩,
      fun padded => ?_⟩
    have more := several padded
    rw [List.length_cons]
    omega

end

/-- The last group is read as symbols and padding exactly if it is spelled by these.  By induction on
its characters. -/
theorem readLastGroup_eq_ok_iff {index : Nat} :
    readLastGroup form offset index characters = .ok (values, padding) ↔
      form.SpellsLast index values padding characters := by
  induction characters generalizing index values padding with
  | nil => simp only [readLastGroup, Except.ok.injEq, Prod.mk.injEq, spellsLast_nil_iff, eq_comm]
  | cons byte rest inductionHypothesis =>
    rw [readLastGroup]
    by_cases isPad : byte = pad
    · subst isPad
      rw [if_pos rfl, spellsLast_pad_iff, ← all_pad_iff]
      by_cases few : index < 2
      · simp [few, Nat.not_le.mpr few]
      · by_cases others : rest.all (· == pad) = true
        · simp [few, others, Nat.not_lt.mp few, eq_comm]
        · simp [few, others]
    · rw [if_neg isPad, spellsLast_symbol_iff isPad]
      simp only [Outcome.bind_eq_ok_iff, readSymbol_eq_ok_iff, Prod.exists, inductionHypothesis]
      constructor
      · rintro ⟨value, symbol, others, count, spelled, same⟩
        cases same
        exact ⟨value, others, symbol, spelled, rfl⟩
      · rintro ⟨value, others, symbol, spelled, rfl⟩
        exact ⟨value, symbol, others, _, spelled, rfl⟩

/-- Whether so much padding behind so many symbols is what the form asks for. -/
def Form.Fills (form : Form) (symbols padding : Nat) : Prop :=
  match form.padding with
  | .required => (padding + symbols) % 4 = 0
  | .forbidden => padding = 0

/-- A check in front of further steps. -/
theorem check_eq_ok_iff {condition : Prop} [Decidable condition] {fault : Fault}
    {next : PUnit → Except Fault Bytes} {further : Except Fault Bytes} :
    (if condition then throw fault >>= next else further) = .ok bytes ↔
      ¬ condition ∧ further = .ok bytes := by
  by_cases holds : condition
  · rw [if_pos holds]
    constructor
    · intro done
      cases done
    · exact fun both => absurd holds both.1
  · rw [if_neg holds, and_iff_right holds]

/-- The last group is accepted exactly if its padding is what the form asks for and no bit is loose. -/
theorem decodeLastGroup_eq_ok_iff_read :
    decodeLastGroup form offset characters = .ok bytes ↔
      ∃ values padding, readLastGroup form offset 0 characters = .ok (values, padding) ∧
        (characters ≠ [] → 2 ≤ values.length) ∧ form.Fills values.length padding ∧
        looseBits values = 0 ∧ joinSymbols values = bytes := by
  rw [decodeLastGroup, Outcome.bind_eq_ok_iff]
  simp only [Prod.exists, Form.Fills, ne_eq]
  refine exists_congr fun values => exists_congr fun padding => and_congr_right fun _ => ?_
  have several : ¬ (¬ characters = [] ∧ values.length < 2) ↔ (¬ characters = [] → 2 ≤ values.length) := by
    rw [not_and, Nat.not_lt]
  have joined : (pure (joinSymbols values) : Except Fault Bytes) = .ok bytes ↔
      joinSymbols values = bytes := ⟨Except.ok.inj, congrArg Except.ok⟩
  cases form.padding with
  | required => simp only [check_eq_ok_iff, several, joined, Decidable.not_not]
  | forbidden => simp only [check_eq_ok_iff, several, joined, Decidable.not_not]

/-- The padding that a form writes behind a number of symbols is what it asks for. -/
theorem exists_fill (form : Form) (bytes : Bytes) :
    ∃ padding, form.fill ((3 - bytes.length % 3) % 3) = List.replicate padding pad ∧
      form.Fills (sextets bytes).length padding ∧ (padding ≠ 0 → bytes ≠ []) := by
  rcases form with ⟨alphabet, _ | _⟩
  · refine ⟨(3 - bytes.length % 3) % 3, rfl, ?_, ?_⟩
    · simp only [Form.Fills, length_sextets]
      omega
    · rintro padded rfl
      exact padded rfl
  · exact ⟨0, rfl, rfl, fun padded => absurd rfl padded⟩

/-- At most four characters are accepted as a last group exactly if they spell the bytes. -/
theorem decodeLastGroup_eq_ok_iff (short : characters.length ≤ 4) :
    decodeLastGroup form offset characters = .ok bytes ↔ characters = encode form bytes := by
  rw [decodeLastGroup_eq_ok_iff_read]
  constructor
  · rintro ⟨values, padding, read, several, fills, tight, rfl⟩
    rcases readLastGroup_eq_ok_iff.mp read with ⟨rfl, small, behind⟩
    rw [List.length_append, List.length_map, List.length_replicate] at short
    have notOne : values.length ≠ 1 := by
      intro one
      have nonempty : values.map form.alphabet.symbol ++ List.replicate padding pad ≠ [] := by
        intro empty
        have none := congrArg List.length empty
        rw [List.length_append, List.length_map, one] at none
        exact absurd none (by rw [List.length_nil]; omega)
      have two := several nonempty
      omega
    rcases sextets_joinSymbols small (by omega) notOne tight with ⟨same, length⟩
    rw [encode_eq, same, length]
    congr 1
    rcases form with ⟨alphabet, _ | _⟩
    · simp only [Form.Fills] at fills
      rw [Form.fill]
      congr 1
      omega
    · cases show padding = 0 from fills
      rfl
  · rintro rfl
    have few : bytes.length ≤ 3 := by
      rw [encode_eq, List.length_append, List.length_map, length_sextets] at short
      omega
    have several : bytes ≠ [] → 2 ≤ (sextets bytes).length := by
      intro nonempty
      have positive := List.length_pos_iff.mpr nonempty
      rw [length_sextets]
      omega
    rcases joinSymbols_sextets few with ⟨joined, tight⟩
    rcases exists_fill form bytes with ⟨padding, fill, fills, behind⟩
    have spelled : encode form bytes =
        (sextets bytes).map form.alphabet.symbol ++ List.replicate padding pad := by
      rw [encode_eq, fill]
    refine ⟨sextets bytes, padding,
      readLastGroup_eq_ok_iff.mpr ⟨spelled, sextets_small bytes, fun padded => ?_⟩,
      fun nonempty => several fun empty => nonempty (congrArg (encode form) empty), fills, tight,
      joined⟩
    rw [Nat.zero_add]
    exact several (behind padded)

/-! ## The whole text -/

/-- A group of four symbols in front of the spelling of further bytes. -/
theorem encode_joinSymbols_append {a b c d : Nat} (small : ∀ value ∈ [a, b, c, d], value < 64)
    (rest : Bytes) :
    encode form (joinSymbols [a, b, c, d] ++ rest) =
      [a, b, c, d].map form.alphabet.symbol ++ encode form rest := by
  have length : (joinSymbols [a, b, c, d] ++ rest).length % 3 = rest.length % 3 := by
    simp only [joinSymbols, List.length_append, List.length_cons, List.length_nil]
    omega
  rw [encode_eq, encode_eq, length, sextets_joinSymbols_append small]
  rfl

/-- By the groups of four characters; only the last one is read in another way. -/
theorem decodeGroups_eq_ok_iff (offset : Nat) :
    decodeGroups form offset characters = .ok bytes ↔ characters = encode form bytes := by
  fun_induction decodeGroups form offset characters generalizing bytes with
  | case1 offset a b c d e rest inductionHypothesis =>
    simp only [Outcome.bind_eq_ok_iff, readSymbol_eq_ok_iff, inductionHypothesis]
    constructor
    · rintro ⟨va, ⟨smallA, rfl⟩, vb, ⟨smallB, rfl⟩, vc, ⟨smallC, rfl⟩, vd, ⟨smallD, rfl⟩, behind,
        others, same⟩
      cases same
      have small : ∀ value ∈ [va, vb, vc, vd], value < 64 := by
        simp only [List.forall_mem_cons]
        exact ⟨smallA, smallB, smallC, smallD, List.forall_mem_nil _⟩
      rw [encode_joinSymbols_append small, ← others]
      rfl
    · intro same
      have many : 3 ≤ bytes.length := by
        have length := length_encode_le form bytes
        rw [← same] at length
        simp only [List.length_cons] at length
        omega
      rcases bytes with _ | ⟨x, _ | ⟨y, _ | ⟨z, behind⟩⟩⟩
      · exact absurd many (by decide)
      · exact absurd many (by simp)
      · exact absurd many (by simp)
      · have small := sextets_small (x :: y :: z :: behind)
        simp only [sextets, List.forall_mem_cons] at small
        rcases small with ⟨smallA, smallB, smallC, smallD, -⟩
        simp only [encode, List.cons.injEq] at same
        rcases same with ⟨isA, isB, isC, isD, others⟩
        refine ⟨_, ⟨smallA, isA.symm⟩, _, ⟨smallB, isB.symm⟩, _, ⟨smallC, isC.symm⟩, _,
          ⟨smallD, isD.symm⟩, behind, others, ?_⟩
        rw [joinSymbols_bytes]
        rfl
  | case2 offset characters whole =>
    refine decodeLastGroup_eq_ok_iff (Nat.not_lt.mp fun long => ?_)
    rcases characters with _ | ⟨a, _ | ⟨b, _ | ⟨c, _ | ⟨d, _ | ⟨e, rest⟩⟩⟩⟩⟩
    iterate 5 exact absurd long (by simp)
    exact whole a b c d e rest rfl

/-- A text is accepted in a form exactly if it is the spelling of some bytes, and it is read as these
bytes. -/
theorem decode_eq_ok_iff : decode form characters = .ok bytes ↔ characters = encode form bytes := by
  rw [← decodeGroups_eq_ok_iff 0, decode]
  split
  · rename_i stray
    rw [check_eq_ok_iff]
    refine and_iff_right_of_imp fun groups _ => ?_
    -- No spelling has a single character behind its groups.
    have spelled := (decodeGroups_eq_ok_iff 0).mp groups
    rcases exists_fill form bytes with ⟨padding, fill, fills, -⟩
    rw [spelled, encode_eq, fill, List.length_append, List.length_map, List.length_replicate] at stray
    rw [length_sextets] at stray fills
    rcases form with ⟨alphabet, _ | _⟩
    · simp only [Form.Fills] at fills
      omega
    · simp only [Form.Fills] at fills
      omega
  · rfl

/-! ## Spellings as text -/

/-- What holds of all symbols and of the padding holds of every character that is written. -/
theorem forall_mem_encode {P : UInt8 → Prop} (form : Form)
    (symbol : ∀ value < 64, P (form.alphabet.symbol value)) (padding : P pad) (bytes : Bytes) :
    ∀ byte ∈ encode form bytes, P byte := by
  intro byte member
  rw [encode_eq, List.mem_append] at member
  rcases member with isSymbol | isPad
  · rcases List.mem_map.mp isSymbol with ⟨value, isSextet, same⟩
    exact same ▸ symbol value (sextets_small bytes value isSextet)
  · exact form.eq_pad_of_mem_fill isPad ▸ padding

/-- The bytes of a spelling as text are the spelling. -/
theorem encode_text (form : Form) (bytes : Bytes) :
    Text.Utf8.encode (text form bytes) = encode form bytes :=
  Text.Utf8.encode_ascii
    (forall_mem_encode form (fun _ small => (symbol_facts small).2.2) (by decide) bytes)

/-- Only the spelling itself has the bytes of a spelling. -/
theorem encode_eq_encode_iff {given : String} :
    Text.Utf8.encode given = encode form bytes ↔ given = text form bytes := by
  rw [← encode_text]
  constructor
  · intro same
    have read := Text.Utf8.decode?_encode given
    rw [same, Text.Utf8.decode?_encode] at read
    exact (Option.some.inj read).symm
  · exact congrArg Text.Utf8.encode

theorem decode_text (form : Form) (bytes : Bytes) :
    decode form (Text.Utf8.encode (text form bytes)) = .ok bytes :=
  decode_eq_ok_iff.mpr (encode_text form bytes)

/-! ## One form after the other -/

/-- Bytes are determined by any of their spellings, whatever form it is in. -/
theorem eq_of_encode_eq {other : Form} {others : Bytes}
    (same : encode form bytes = encode other others) : bytes = others := by
  -- Without padding, a spelling in one fixed form depends on the sextets alone.
  have bare (bytes : Bytes) : encode ⟨.standard, .forbidden⟩ bytes =
      (sextets bytes).map Alphabet.standard.symbol := by
    rw [encode_eq]
    exact List.append_nil _
  have sameBare : encode ⟨.standard, .forbidden⟩ bytes = encode ⟨.standard, .forbidden⟩ others := by
    rw [bare, bare, sextets_eq_of_encode_eq same]
  exact Except.ok.inj ((decode_eq_ok_iff.mpr sameBare).symm.trans (decode_eq_ok_iff.mpr rfl)).symm

theorem Form.mem_all (form : Form) : form ∈ Form.all := by
  rcases form with ⟨_ | _, _ | _⟩ <;> decide

/-- A text is read as bytes exactly if it is one of their spellings. -/
theorem decodeAny?_eq_some_iff :
    decodeAny? characters = some bytes ↔ ∃ form, characters = encode form bytes := by
  have spelled {bytes : Bytes} (read : decodeAny? characters = some bytes) :
      ∃ form, characters = encode form bytes := by
    rcases List.exists_of_findSome?_eq_some read with ⟨form, -, accepted⟩
    exact ⟨form, decode_eq_ok_iff.mp (Outcome.toOption_eq_some_iff.mp accepted)⟩
  constructor
  · exact spelled
  · rintro ⟨form, isSpelling⟩
    have accepted : (decode form characters).toOption = some bytes :=
      Outcome.toOption_eq_some_iff.mpr (decode_eq_ok_iff.mpr isSpelling)
    have some : (decodeAny? characters).isSome = true :=
      List.findSome?_isSome_iff.mpr ⟨form, form.mem_all, by rw [accepted]; rfl⟩
    rcases Option.isSome_iff_exists.mp some with ⟨first, read⟩
    rcases spelled read with ⟨other, isOther⟩
    rw [read, eq_of_encode_eq (isOther.symm.trans isSpelling)]

end

theorem decodeAny?_encode_iff {given : String} {bytes : Bytes} :
    decodeAny? (Text.Utf8.encode given) = some bytes ↔ ∃ form, given = text form bytes := by
  simp only [decodeAny?_eq_some_iff, encode_eq_encode_iff]

/-- Bytes that appear in a document are read back from it. -/
theorem decodeAny?_text (bytes : Bytes) :
    decodeAny? (Text.Utf8.encode (text .standard bytes)) = some bytes :=
  decodeAny?_encode_iff.mpr ⟨.standard, rfl⟩

/-! ## The form that is written -/

/-- No blank is ever written. -/
theorem trim_text (bytes : Bytes) :
    Text.trim (text .standard bytes).toList = (text .standard bytes).toList := by
  have solid := forall_mem_encode .standard
    (P := fun byte => Text.isBlank (Char.ofNat byte.toNat) = false)
    (by decide +kernel) (by decide +kernel) bytes
  refine Text.trim_eq_self fun c member => ?_
  rw [text, String.toList_ofList] at member
  rcases List.mem_map.mp member with ⟨byte, written, same⟩
  exact same ▸ solid byte written

theorem text_eq_empty_iff (bytes : Bytes) : text .standard bytes = "" ↔ bytes = [] := by
  constructor
  · intro empty
    have read := decodeAny?_text bytes
    rw [empty] at read
    exact Option.some.inj (read.symm.trans (by decide : decodeAny? (Text.Utf8.encode "") = some []))
  · intro empty
    rw [empty]
    rfl

end Bytes.Base64
end SchemaRecords
