import SchemaRecords.Proofs.CanonicalPayloads
import SchemaRecords.Proofs.Payload.ConvertedFields
import SchemaRecords.Proofs.Payload.Merging
import SchemaRecords.Proofs.Payload.MessageLevels
import SchemaRecords.Proofs.Payload.OwnRecords
import SchemaRecords.Proofs.Schema.GivenCharacters

/-!
# Entries of maps

Every entry of a map object is written as an entry of its own.  The keys of the object are texts,
and those on the wire are values: different texts stand for different keys, except that a map of
integers takes every spelling of an integer.  So two entries get the same key exactly if their
texts denote the same integer, and of these a decoder keeps the last.

Which entries a payload has is said by what is read from it, so again it has less than 2^32 bytes.
-/

namespace SchemaRecords
namespace Payload

open SchemaRecords.Json SchemaRecords.Schema

/-! ## Keys on the wire -/

/-- The key in the content of a map entry. -/
def entryKey? : Wire.Value → Option Wire.Value
  | .delimited content => (valuesNumbered 1 content).getLast?
  | _ => none

/-- The keys in the records of a map field. -/
def keysWritten (field : Field) (payload : Bytes) : List Wire.Value :=
  (valuesNumbered field.number payload).filterMap entryKey?

/-- The entries that an object shows under a key. -/
def entriesShown (key : String) (members : Members) : Members :=
  match members.lookup key with
  | some (.object entries) => entries
  | _ => []

section Keys

variable {pool : Pool} {key : Scalar} {type : ValueType}

theorem entryKey?_entryContent {first second : Wire.Value} (firstFits : first.Fits)
    (secondFits : second.Fits) :
    entryKey? (.delimited (entryContent (.entryKey key) (.entryValue type) first second)) =
      some first := by
  rw [entryKey?, valuesNumbered, recordsNumbered, split_entryContent firstFits secondFits]
  rfl

/-- The key that a text is converted to, and the text under which a decoder shows it. -/
structure KeyOf (pool : Pool) (key : Scalar) (wire : Wire.Value) (shown : String) : Prop where
  value : ∃ value, Shown pool (.scalar key) value wire ∧ keyText value = shown

/-- Keys and the texts under which they are shown lead to each other. -/
theorem biUnique_keyOf (legal : key.isMapKey = true) : Relator.BiUnique (KeyOf pool key) := by
  constructor
  · rintro first second text ⟨value, shown, same⟩ ⟨other, otherShown, otherSame⟩
    have one := shown.key legal ""
    have two := otherShown.key legal ""
    rw [same] at one
    rw [otherSame, one] at two
    exact Except.ok.inj two
  · rintro wire first second ⟨value, shown, same⟩ ⟨other, otherShown, otherSame⟩
    have one := shown.read refuse "" ""
    rw [otherShown.read refuse "" ""] at one
    rw [← same, ← otherSame, Except.ok.inj (Option.some.inj one)]

/-- Two texts are converted to the same key exactly if they are the same or denote the same
integer. -/
theorem convertKey_eq_iff (legal : key.isMapKey = true) {one other : String}
    {first second : Wire.Value} (isFirst : convertKey pool (.entryKey key) one = .ok first)
    (isSecond : convertKey pool (.entryKey key) other = .ok second) :
    first = second ↔
      one = other ∨ isIntegerType key = true ∧ ∃ n, Denotes one n ∧ Denotes other n := by
  -- The same text is converted to the same key, whatever the type.
  have sameText (same : one = other) : first = second := by
    rw [same, isSecond] at isFirst
    exact (Except.ok.inj isFirst).symm
  by_cases integer : isIntegerType key = true
  · have convert (text : String) : convertKey pool (.entryKey key) text =
        convertScalar "key" key (.string text) := by
      rw [convertKey]
      exact congrArg (convertSimple pool "key" (.scalar key)) (keyValue_integer integer text)
    rw [convert] at isFirst isSecond
    rcases denotes_of_convertScalar integer isFirst with ⟨n, holds, isWire, denotes⟩
    rcases denotes_of_convertScalar integer isSecond with ⟨m, otherHolds, isOther, otherDenotes⟩
    constructor
    · intro same
      have equal : n = m := wireOfInteger_injective holds otherHolds
        (isWire.symm.trans (same.trans isOther))
      exact Or.inr ⟨integer, n, denotes, equal ▸ otherDenotes⟩
    · rintro (same | ⟨_, k, one, other⟩)
      · exact sameText same
      · rw [isWire, isOther, denotes.unique one, otherDenotes.unique other]
  · constructor
    · intro same
      rcases exists_of_convertKey legal isFirst with ⟨value, shown, ⟨_, text⟩ | ⟨isInteger, _⟩⟩
      · rcases exists_of_convertKey legal isSecond with
          ⟨otherValue, otherShown, ⟨_, otherText⟩ | ⟨isInteger, _⟩⟩
        · left
          exact (biUnique_keyOf legal).2 ⟨value, shown, text⟩
            ⟨otherValue, same ▸ otherShown, otherText⟩
        · exact absurd isInteger integer
      · exact absurd isInteger integer
    · rintro (same | ⟨isInteger, _⟩)
      · exact sameText same
      · exact absurd isInteger integer

/-- What holds of every two elements holds of every two that correspond to them. -/
theorem pairwise_iff_of_forall₂ {α β : Type} {relation : α → β → Prop} {P : α → α → Prop}
    {Q : β → β → Prop} {first : List α} {second : List β}
    (each : List.Forall₂ relation first second)
    (alike : ∀ a x b y, relation a x → relation b y → (P a b ↔ Q x y)) :
    first.Pairwise P ↔ second.Pairwise Q := by
  have behind {a : α} {x : β} (here : relation a x) {rest : List α} {others : List β}
      (each : List.Forall₂ relation rest others) : (∀ b ∈ rest, P a b) ↔ ∀ y ∈ others, Q x y := by
    induction each with
    | nil => exact iff_of_true (List.forall_mem_nil _) (List.forall_mem_nil _)
    | cons next _ inductionHypothesis =>
      rw [List.forall_mem_cons, List.forall_mem_cons, inductionHypothesis,
        alike _ _ _ _ here next]
  induction each with
  | nil => exact iff_of_true .nil .nil
  | cons here each inductionHypothesis =>
    rw [List.pairwise_cons, List.pairwise_cons]
    exact and_congr (behind here each) inductionHypothesis

/-- The keys of an object with different texts are different exactly if no integer is spelled
twice. -/
theorem nodup_iff_keysApart (legal : key.isMapKey = true) {entries : Members}
    {keys : List Wire.Value} (distinct : (entries.map (·.1)).Nodup)
    (each : List.Forall₂ (fun entry wire => convertKey pool (.entryKey key) entry.1 = .ok wire)
      entries keys) :
    keys.Nodup ↔ KeysApart key entries := by
  have texts : entries.Pairwise fun first second => first.1 ≠ second.1 :=
    List.pairwise_map.mp distinct
  have pairs : keys.Nodup ↔ entries.Pairwise fun first second =>
      ¬ (first.1 = second.1 ∨
        isIntegerType key = true ∧ ∃ n, Denotes first.1 n ∧ Denotes second.1 n) :=
    (pairwise_iff_of_forall₂ each fun _ _ _ _ isFirst isSecond =>
      (not_congr (convertKey_eq_iff legal isFirst isSecond)).symm).symm
  rw [pairs]
  constructor
  · intro apart
    refine ⟨distinct, fun integer => apart.imp ?_⟩
    intro first second different n one other
    exact different (Or.inr ⟨integer, n, one, other⟩)
  · rintro ⟨_, integers⟩
    by_cases integer : isIntegerType key = true
    · refine (texts.and (integers integer)).imp ?_
      rintro first second ⟨different, apart⟩ (same | ⟨_, n, one, other⟩)
      · exact different same
      · exact apart n one other
    · refine texts.imp ?_
      rintro first second different (same | ⟨isInteger, _⟩)
      · exact different same
      · exact integer isInteger

/-- Lists that correspond one to one repeat themselves in the same places. -/
theorem length_dedup_eq {α β : Type} [DecidableEq α] [DecidableEq β] {relation : α → β → Prop}
    (unique : Relator.BiUnique relation) {first : List α} {second : List β}
    (each : List.Forall₂ relation first second) : first.dedup.length = second.dedup.length := by
  induction each with
  | nil => rfl
  | @cons a b rest others related each inductionHypothesis =>
    have known : a ∈ rest ↔ b ∈ others := List.rel_mem unique related each
    by_cases again : a ∈ rest
    · rw [List.dedup_cons_of_mem again, List.dedup_cons_of_mem (known.mp again),
        inductionHypothesis]
    · rw [List.dedup_cons_of_notMem again, List.dedup_cons_of_notMem (mt known.mpr again),
        List.length_cons, List.length_cons, inductionHypothesis]

/-- The decoded entries have every key once. -/
theorem length_entriesOf (members : Members) :
    (entriesOf (members.map fun member => .entry member.1 member.2)).length =
      (members.map (·.1)).dedup.length := by
  have keys (text : String) :
      text ∈ (entriesOf (members.map fun member => .entry member.1 member.2)).map (·.1) ↔
        text ∈ members.map (·.1) := by
    induction members using List.reverseRecOn with
    | nil => exact Iff.rfl
    | append_singleton before member inductionHypothesis =>
      rw [List.map_append, List.map_singleton, entriesOf, List.foldl_concat, ← entriesOf, addEntry,
        Members.mem_keys_insert, inductionHypothesis, List.map_append, List.map_singleton,
        List.mem_append, List.mem_singleton, or_comm]
  -- Neither list of keys repeats itself, so one is a rearrangement of the other.
  rw [← List.length_map (·.1)]
  apply List.Perm.length_eq
  apply (List.perm_ext_iff_of_nodup (nodup_entriesOf _) (List.nodup_dedup _)).mpr
  intro text
  rw [keys, List.mem_dedup]

end Keys

/-! ## Entries of a field -/

section Entries

variable {pool : Pool} {decoder entryDecoder : Decoder} {message entry : Message} {field : Field}
  {id : MessageId} {key : Scalar} {type : ValueType} {entries : Members} {contents : List Bytes}

/-- The keys on the wire are those of the object, one for each entry. -/
theorem forall₂_keys (each : List.Forall₂ (EntryConverted pool key type) entries contents)
    (short : ∀ content ∈ contents, content.length < 2 ^ 32) :
    List.Forall₂ (fun entry wire => convertKey pool (.entryKey key) entry.1 = .ok wire) entries
      ((contents.map .delimited).filterMap entryKey?) := by
  induction each with
  | nil => exact .nil
  | cons converted _ inductionHypothesis =>
    rcases converted with ⟨first, second, keyConverted, _, same⟩
    have fits := fits_of_entryContent (same ▸ short _ List.mem_cons_self)
    have restShort := fun content there => short content (List.mem_cons_of_mem _ there)
    rw [List.map_cons, List.filterMap_cons, same, entryKey?_entryContent fits.1 fits.2]
    exact .cons keyConverted (inductionHypothesis restShort)

/-- The decoded entries are shown under the texts of the keys on the wire. -/
theorem forall₂_keyOf {limit : Nat} (limited : Limited pool limit entryDecoder)
    (found : pool.message? id = some entry)
    (fields : entry.fields = [.entryKey key, .entryValue type]) (legal : key.isMapKey = true)
    (known : pool.Nameable type)
    (each : List.Forall₂ (EntryConverted pool key type) entries contents)
    (short : ∀ content ∈ contents, content.length < 2 ^ 32) {members : Members}
    (decoded : List.Forall₂ (fun content member =>
      decodeEntryAt pool entryDecoder id content = .ok member) contents members) :
    List.Forall₂ (KeyOf pool key) ((contents.map .delimited).filterMap entryKey?)
      (members.map (·.1)) := by
  induction each generalizing members with
  | nil =>
    cases decoded
    exact .nil
  | cons converted _ inductionHypothesis =>
    cases decoded with
    | cons here others =>
      rcases converted with ⟨first, second, keyConverted, valueConverted, same⟩
      have fits := fits_of_entryContent (same ▸ short _ List.mem_cons_self)
      have restShort := fun content there => short content (List.mem_cons_of_mem _ there)
      rcases exists_of_convertKey legal keyConverted with ⟨value, shown, _⟩
      rcases (limited.convertEntryValue known valueConverted fits.2).bounded entry.fullName
        "value" with ⟨run, isRun, _⟩
      simp only [decodeEntryAt, found, same,
        decodeEntry_entryContent fields fits.1 fits.2 shown isRun] at here
      rcases Outcome.map_eq_ok_iff.mp here with ⟨_, _, isMember⟩
      rw [List.map_cons, List.filterMap_cons, same, entryKey?_entryContent fits.1 fits.2,
        List.map_cons]
      exact .cons ⟨value, shown, congrArg Prod.fst isMember⟩ (inductionHypothesis restShort others)

/-- A map field shows its entries, whether or not it is shown without any. -/
theorem entriesShown_eq (shape : field.shape = .map id) {options : Options}
    {contributions : List Contribution} {shownKey : String} {members : Members}
    (value : fieldValue pool options decoder field contributions =
      .ok (members.lookup shownKey)) :
    entriesShown shownKey members = entriesOf contributions := by
  rw [fieldValue, shape] at value
  dsimp only at value
  unfold entriesShown
  split at value
  · rename_i none
    rw [← Except.ok.inj value, none]
    cases options.emitDefaults <;> rfl
  · rw [← Except.ok.inj value]

/-- A map field shows as many entries as there are different keys on the wire. -/
theorem length_entriesShown {limit : Nat} (limited : Limited pool limit entryDecoder)
    (shape : field.shape = .map id) (found : pool.message? id = some entry)
    (fields : entry.fields = [.entryKey key, .entryValue type]) (legal : key.isMapKey = true)
    (known : pool.Nameable type)
    (each : List.Forall₂ (EntryConverted pool key type) entries contents)
    (short : ∀ content ∈ contents, content.length < 2 ^ 32)
    (accepted : ∀ wire ∈ contents.map .delimited, ∀ refusal,
      contribution? pool decoder entryDecoder message field wire ≠ some (.error refusal))
    {options : Options} {members : Members} (value : fieldValue pool options decoder field
      (contributionsOf pool decoder entryDecoder message field (contents.map .delimited)) =
        .ok (members.lookup (options.key field))) :
    (entriesShown (options.key field) members).length =
      ((contents.map .delimited).filterMap entryKey?).dedup.length := by
  have decoded : ∀ content ∈ contents, ∃ member,
      decodeEntryAt pool entryDecoder id content = .ok member := by
    intro content there
    have notRefused := accepted _ (List.mem_map_of_mem there)
    rw [contribution?.eq_def, shape] at notRefused
    cases run : decodeEntryAt pool entryDecoder id content with
    | ok member => exact ⟨member, rfl⟩
    | error refusal =>
      simp only [run] at notRefused
      exact absurd rfl (notRefused _)
  rcases exists_forall₂ decoded with ⟨shown, eachDecoded⟩
  rw [contributionsOf_eq (forall₂_entries shape eachDecoded)] at value
  rw [entriesShown_eq shape value, length_entriesOf, length_dedup_eq (biUnique_keyOf legal)
    (forall₂_keyOf limited found fields legal known each short eachDecoded)]

/-- The entries of an object for a map field are the values of the records of this field. -/
theorem exists_entryContents (wellFormed : pool.WellFormed) (there : message ∈ pool.messages)
    {members : Members} {payload : Bytes}
    (encoded : encodeMembers pool message members = .ok payload)
    (short : payload.length < 2 ^ 32) {name : String} (member : (name, .object entries) ∈ members)
    (named : message.fieldByName? name = some field) (shape : field.shape = .map id) :
    ∃ key type entry contents, pool.message? id = some entry ∧
      entry.fields = [.entryKey key, .entryValue type] ∧ key.isMapKey = true ∧
      pool.Nameable type ∧ List.Forall₂ (EntryConverted pool key type) entries contents ∧
      (∀ content ∈ contents, content.length < 2 ^ 32) ∧
      valuesNumbered field.number payload = contents.map .delimited := by
  have indexed := (wellFormed.messages message there).indexed
  have isField := mem_of_fieldByName? named
  rcases exists_writtenFields indexed encoded with ⟨wires, rfl, converted⟩
  have fits := fits_of_length_writtenFields short
  have own := converted field _ (mem_givenFields.mpr ⟨rfl, name, member, named⟩)
  unfold FieldConverted at own
  rw [shape] at own
  rcases own with ⟨contents, isConverted, isWires⟩
  cases wellFormed.fieldKind there isField with
  | simple other => cases shape.symm.trans other
  | message other => cases shape.symm.trans other
  | repeated other => cases shape.symm.trans other
  | @map _ entry key type other isEntry fields legal known =>
    cases shape.symm.trans other
    simp only [convertMap, isEntry, fields] at isConverted
    refine ⟨key, type, entry, contents, isEntry, fields, legal, known,
      forall₂_of_convertEntries isConverted, ?_, ?_⟩
    · intro content inside
      exact fits field isField (.delimited content) (isWires ▸ List.mem_map_of_mem inside)
    · rw [valuesNumbered_writtenFields indexed fits isField, isWires]

/-- A map is a member of no oneof. -/
theorem oneof_of_map (wellFormed : message.WellFormed pool) (member : field ∈ message.fields)
    (shape : field.shape = .map id) : field.oneof = none := by
  by_contra inOneof
  rcases wellFormed.oneofsSingle field member (Option.isSome_iff_ne_none.mpr inOneof) with
    ⟨_, _, single⟩
  cases shape.symm.trans single

end Entries
end Payload

open Schema Payload

/-- Whatever was registered, every entry of an object for a map field is written as an entry of its
own.  The keys of these entries are distinct exactly if no two texts of the object denote the same
integer of an integer type, and a decoder shows as many entries as there are distinct keys. -/
theorem encode_mapEntries (attempts : List (String × String)) {name : String} {message : Message}
    (found : (Pool.registerAll attempts).findMessage? name = some message)
    {members : Json.Members} {payload : Bytes}
    (encoded : encode (.registerAll attempts) name (.object members) = .ok payload)
    (short : payload.length < 2 ^ 32) {key : String} {entries : Json.Members}
    (member : (key, .object entries) ∈ members) (distinct : (entries.map (·.1)).Nodup)
    {field : Field} (named : message.fieldByName? key = some field) {id : MessageId}
    (shape : field.shape = .map id) :
    ∃ keyType valueType entry, (Pool.registerAll attempts).message? id = some entry ∧
      entry.fields = [.entryKey keyType, .entryValue valueType] ∧
      (keysWritten field payload).length = entries.length ∧
      ((keysWritten field payload).Nodup ↔ KeysApart keyType entries) ∧
      ∀ options document, KeyIsOwn options message field →
        decode (.registerAll attempts) options name payload = .ok document →
        ∃ shown, document = .object shown ∧
          (entriesShown (options.key field) shown).length =
            (keysWritten field payload).dedup.length ∧
          ((entriesShown (options.key field) shown).length = entries.length ↔
            KeysApart keyType entries) := by
  have wellFormed := Pool.wellFormed_registerAll attempts
  rcases wellFormed.exists_of_findMessage? found with ⟨place, isMessage, _⟩
  have there := List.mem_of_getElem? isMessage
  have facts := wellFormed.messages message there
  have isField := mem_of_fieldByName? named
  rw [encode_object found] at encoded
  rcases exists_entryContents wellFormed there encoded short member named shape with
    ⟨keyType, valueType, entry, contents, isEntry, fields, legal, known, each, contentsShort,
      values⟩
  have eachKey := forall₂_keys each contentsShort
  rw [← values, ← keysWritten] at eachKey
  have length := eachKey.length_eq.symm
  have apart := nodup_iff_keysApart legal distinct eachKey
  refine ⟨keyType, valueType, entry, isEntry, fields, length, apart, ?_⟩
  intro options document own decoded
  rw [decode_of_findMessage? found] at decoded
  rcases exists_of_decodeLevel_own facts.indexed isField (oneof_of_map facts isField shape) own
    decoded with ⟨shown, same, value, accepted⟩
  rw [values] at value accepted
  have count := length_entriesShown (limited_decodeWithin wellFormed (nestingLimit - 2)) shape
    isEntry fields legal known each contentsShort accepted value
  rw [← values, ← keysWritten] at count
  refine ⟨shown, same, count, ?_⟩
  -- An entry is lost exactly if a later one is written with the same key.
  rw [count, ← length, ← apart]
  constructor
  · intro equal
    exact List.dedup_eq_self.mp ((List.dedup_sublist _).eq_of_length equal)
  · intro nodup
    rw [nodup.dedup]

/-- A schema with a map of integers. -/
def tableAttempts : List (String × String) :=
  [("table.proto", "message Table\x7bmap<int32,string> rows=1;\x7d")]

/-- Two keys that denote different integers are both shown. -/
theorem encode_mapEntries_distinct :
    ∃ shown, decode (.registerAll tableAttempts) .plain "Table"
        [10, 5, 8, 1, 18, 1, 97, 10, 5, 8, 2, 18, 1, 98] = .ok (.object shown) ∧
      (entriesShown "rows" shown).length = 2 := by
  have isField : ((Pool.registerAll tableAttempts).findMessage? "Table").bind (fun message =>
      (message.fieldByName? "rows").map fun field => (field.name, field.number, field.shape)) =
        some ("rows", 1, .map ⟨1⟩) := by
    rw [tableAttempts, Pool.registerAll_ofList]
    decide +kernel
  have encoded : encode (.registerAll tableAttempts) "Table" (.object [("rows",
      .object [("1", .string "a"), ("2", .string "b")])]) =
        .ok [10, 5, 8, 1, 18, 1, 97, 10, 5, 8, 2, 18, 1, 98] := by
    rw [tableAttempts, Pool.registerAll_ofList]
    decide +kernel
  have decodes : (decode (.registerAll tableAttempts) .plain "Table"
      [10, 5, 8, 1, 18, 1, 97, 10, 5, 8, 2, 18, 1, 98]).toOption.isSome = true := by
    rw [tableAttempts, Pool.registerAll_ofList]
    decide +kernel
  rcases Option.bind_eq_some_iff.mp isField with ⟨message, found, second⟩
  rcases Option.map_eq_some_iff.mp second with ⟨field, named, same⟩
  have number : field.number = 1 := congrArg (·.2.1) same
  have shape : field.shape = .map ⟨1⟩ := congrArg (·.2.2) same
  rcases encode_mapEntries tableAttempts found encoded (by decide) List.mem_cons_self (by decide)
    named shape with ⟨keyType, valueType, entry, _, _, length, apart, back⟩
  have nodup : (keysWritten field [10, 5, 8, 1, 18, 1, 97, 10, 5, 8, 2, 18, 1, 98]).Nodup := by
    rw [keysWritten, number]
    decide +kernel
  rcases Option.isSome_iff_exists.mp decodes with ⟨document, isDocument⟩
  have decoded := Outcome.toOption_eq_some_iff.mp isDocument
  rcases back .plain document (.plain message field) decoded with ⟨shown, rfl, _, whole⟩
  have isName : field.name = "rows" := congrArg Prod.fst same
  exact ⟨shown, decoded, isName ▸ whole.mpr (apart.mp nodup)⟩

/-- Two keys that denote the same integer are both written, but only the last is shown. -/
theorem encode_mapEntries_same :
    encode (.registerAll tableAttempts) "Table" (.object [("rows",
        .object [("1", .string "a"), ("01", .string "b")])]) =
      .ok [10, 5, 8, 1, 18, 1, 97, 10, 5, 8, 1, 18, 1, 98] ∧
    (valuesNumbered 1 [10, 5, 8, 1, 18, 1, 97, 10, 5, 8, 1, 18, 1, 98]).filterMap entryKey? =
      [.varint 1, .varint 1] ∧
    (decode (.registerAll tableAttempts) .plain "Table"
        [10, 5, 8, 1, 18, 1, 97, 10, 5, 8, 1, 18, 1, 98]).toOption.map (·.text) =
      some "\x7b\"rows\":\x7b\"1\":\"b\"\x7d\x7d" := by
  rw [tableAttempts, Pool.registerAll_ofList]
  exact ⟨by decide +kernel, by decide +kernel, by decide +kernel⟩

end SchemaRecords
