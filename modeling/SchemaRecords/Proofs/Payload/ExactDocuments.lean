import SchemaRecords.Proofs.Json.WrittenDocuments
import SchemaRecords.Proofs.Payload.CarriedValues

/-!
# Decoded documents are exact

Where no floating-point number can be reached, nothing of a decoded document is lost in its text:
its integers are those of 64-bit words, and no object shows two members under one key.
-/

namespace SchemaRecords
namespace Schema

/-- No floating-point number can be reached from a message. -/
def Pool.FloatFree (pool : Pool) (root : Message) : Prop :=
  ∀ message, pool.Reaches root message → ∀ field ∈ message.fields,
    field.type ≠ .scalar .float ∧ field.type ≠ .scalar .double

/-- Nor can one be reached from a value of a type. -/
structure Pool.FloatFreeType (pool : Pool) (type : ValueType) : Prop where
  notFloat : type ≠ .scalar .float
  notDouble : type ≠ .scalar .double
  next : ∀ id message, type = .message id → pool.message? id = some message →
    pool.FloatFree message

theorem Pool.FloatFree.type {pool : Pool} {message : Message} (free : pool.FloatFree message)
    {field : Field} (member : field ∈ message.fields) : pool.FloatFreeType field.type where
  notFloat := (free message .refl field member).1
  notDouble := (free message .refl field member).2
  next := fun _ _ isMessage found other reached =>
    free other ((Pool.Reaches.step .refl member isMessage found).trans reached)

end Schema

namespace Payload

open SchemaRecords.Json SchemaRecords.Schema

/-- A decoder of which all documents are exact, where no floating-point number can be reached. -/
def ShowsExactly (pool : Pool) (decoder : Decoder) : Prop :=
  ∀ message, pool.FloatFree message → ∀ payload document,
    decoder message payload = .ok document → document.Exact

section Values

variable {pool : Pool} {decoder entryDecoder : Decoder}

theorem exact_renderLong {n : Int} (least : -2 ^ 63 ≤ n) (greatest : n < 2 ^ 64) :
    (renderLong n).Exact := by
  unfold renderLong
  split
  · exact .integer least greatest
  · exact .string _

theorem exact_showInteger {type : Scalar} {n : Int} (holds : HoldsInteger type n) :
    (showInteger type n).Exact := by
  have bounds : -2 ^ 63 ≤ n ∧ n < 2 ^ 64 := by
    cases type
    case float | double | bool | string | bytes => exact absurd holds id
    all_goals
      simp only [HoldsInteger] at holds
      omega
  cases type
  case int64 | uint64 | sint64 | fixed64 | sfixed64 => exact exact_renderLong bounds.1 bounds.2
  all_goals exact .integer bounds.1 bounds.2

theorem exact_renderEnumeration (id : EnumerationId) {n : Int} (least : -2 ^ 31 ≤ n)
    (greatest : n < 2 ^ 31) : (renderEnumeration pool id n).Exact := by
  unfold renderEnumeration
  split
  · exact .string _
  · exact .integer (by omega) (by omega)

theorem exact_of_renderPackable? {type : ValueType} (free : pool.FloatFreeType type)
    {wire : Wire.Value} {value : Json.Value}
    (rendered : renderPackable? pool type wire = some value) : value.Exact := by
  cases type with
  | message id => cases wire <;> cases rendered
  | enumeration id =>
    cases wire with
    | varint word =>
      have bounds := signed_bounds 32 (by decide) word.toNat
      exact Option.some.inj rendered ▸ exact_renderEnumeration id bounds.1 bounds.2
    | _ => cases rendered
  | scalar scalar =>
    by_cases integer : isIntegerType scalar = true
    · rcases exists_of_renderNumeric? integer rendered with ⟨n, holds, same⟩
      exact same ▸ exact_showInteger holds
    · cases scalar
      case float => exact absurd rfl free.notFloat
      case double => exact absurd rfl free.notDouble
      case bool =>
        cases wire with
        | varint word => exact Option.some.inj rendered ▸ .bool _
        | _ => cases rendered
      case string | bytes => cases wire <;> cases rendered
      all_goals exact absurd rfl integer

theorem exact_renderDefault (wellFormed : pool.WellFormed) {type : ValueType}
    (free : pool.FloatFreeType type) : (renderDefault pool type).Exact := by
  cases type with
  | message id => exact .null
  | enumeration id =>
    cases found : pool.enumeration? id with
    | none =>
      rw [renderDefault, found]
      exact exact_renderEnumeration id (by decide) (by decide)
    | some enumeration =>
      have numbers := (wellFormed.enumerations enumeration (List.mem_of_getElem? found)).numbers
      have bounds := defaultNumber_bounds numbers
      rw [renderDefault, found]
      exact exact_renderEnumeration id bounds.1 bounds.2
  | scalar scalar =>
    cases scalar
    case float => exact absurd rfl free.notFloat
    case double => exact absurd rfl free.notDouble
    case bool => exact .bool false
    case string | bytes => exact .string ""
    all_goals exact .integer (by decide) (by decide)

theorem ShowsExactly.follow (nested : ShowsExactly pool decoder) {id : MessageId}
    (free : pool.FloatFreeType (.message id)) {payload : Bytes} {document : Json.Value}
    (decoded : decoder.follow pool id payload = .ok document) : document.Exact := by
  unfold Decoder.follow at decoded
  split at decoded
  · rename_i next found
    exact nested next (free.next id next rfl found) payload document decoded
  · cases decoded

theorem ShowsExactly.readValue? (nested : ShowsExactly pool decoder) {type : ValueType}
    (free : pool.FloatFreeType type) {message field : String} {wire : Wire.Value}
    {value : Json.Value}
    (read : readValue? pool decoder message field type wire = some (.ok value)) : value.Exact := by
  unfold Payload.readValue? at read
  split at read
  · exact nested.follow free (eq_ok_of_inField (Option.some.inj read))
  · split at read
    · cases read
      exact .string _
    · cases read
  · cases read
    exact .string _
  · rcases Option.map_eq_some_iff.mp read with ⟨shown, rendered, same⟩
    cases same
    exact exact_of_renderPackable? free rendered

theorem ShowsExactly.decodeMissing (wellFormed : pool.WellFormed)
    (nested : ShowsExactly pool decoder) {type : ValueType} (free : pool.FloatFreeType type)
    {value : Json.Value} (decoded : decodeMissing pool decoder type = .ok value) :
    value.Exact := by
  cases type with
  | message id => exact nested.follow free decoded
  | _ => exact Except.ok.inj decoded ▸ exact_renderDefault wellFormed free

/-- The value of a decoded entry is exact. -/
theorem ShowsExactly.decodeEntry (wellFormed : pool.WellFormed)
    (nested : ShowsExactly pool decoder) {entry : Message} (free : pool.FloatFree entry)
    {payload : Bytes} {result : String × Json.Value}
    (decoded : decodeEntry pool decoder entry payload = .ok result) : result.2.Exact := by
  unfold Payload.decodeEntry at decoded
  split at decoded
  · rename_i key value fields
    have valueFree : pool.FloatFreeType value.type := free.type (by
      rw [fields]
      exact List.mem_cons_of_mem _ List.mem_cons_self)
    rcases Outcome.bind_eq_ok_iff.mp decoded with ⟨parts, read, rest⟩
    have exact : ∀ shown ∈ entryValuesOf parts, shown.Exact := by
      intro shown member
      rcases List.mem_filterMap.mp member with ⟨part, there, isValue⟩
      rcases exists_of_readRecords (readPayload_eq_ok_iff.mp read).1 part there with
        ⟨record, given⟩
      unfold readEntryPart at given
      split at given
      · cases given
      · split at given
        · rcases Option.map_eq_some_iff.mp given with ⟨run, _, mapped⟩
          rcases Outcome.map_eq_ok_iff.mp mapped with ⟨_, _, same⟩
          subst same
          cases isValue
        · split at given
          · rcases Option.map_eq_some_iff.mp given with ⟨run, isRun, mapped⟩
            rcases Outcome.map_eq_ok_iff.mp mapped with ⟨held, isHeld, same⟩
            subst same
            cases isValue
            exact nested.readValue? valueFree (isHeld ▸ isRun)
          · cases given
    cases last : (entryValuesOf parts).getLast? with
    | none =>
      rw [last] at rest
      rcases Outcome.bind_eq_ok_iff.mp rest with ⟨found, isFound, same⟩
      cases same
      exact nested.decodeMissing wellFormed valueFree isFound
    | some final =>
      rw [last] at rest
      rcases Outcome.bind_eq_ok_iff.mp rest with ⟨found, isFound, same⟩
      cases same
      cases isFound
      exact exact final (List.mem_of_getLast? last)
  · cases decoded

/-! ## Fields and messages -/

/-- A contribution that shows nothing but exact values. -/
inductive Contribution.Exact : Contribution → Prop
  | value {shown : Json.Value} (exact : shown.Exact) : Contribution.Exact (.value shown)
  | content (bytes : Bytes) : Contribution.Exact (.content bytes)
  | elements {values : List Json.Value} (each : ∀ shown ∈ values, shown.Exact) :
      Contribution.Exact (.elements values)
  | entry (key : String) {shown : Json.Value} (exact : shown.Exact) :
      Contribution.Exact (.entry key shown)

theorem exact_of_readPacked {type : ValueType} (free : pool.FloatFreeType type) {name : String}
    {content : Bytes} {values : List Json.Value}
    (read : readPacked pool name type content = .ok values) : ∀ value ∈ values, value.Exact := by
  unfold readPacked at read
  split at read
  · cases read
    intro value member
    rcases List.mem_filterMap.mp member with ⟨wire, _, rendered⟩
    exact exact_of_renderPackable? free rendered
  · cases read

/-- A contribution that is made of one value is exact, if it keeps the value so. -/
theorem ShowsExactly.exact_of_readValue? (nested : ShowsExactly pool decoder)
    {messageName fieldName : String} {type : ValueType} (free : pool.FloatFreeType type)
    {wire : Wire.Value} {f : Json.Value → Contribution} {contribution : Contribution}
    (kept : ∀ value, value.Exact → (f value).Exact)
    (given : (Payload.readValue? pool decoder messageName fieldName type wire).map (·.map f) =
      some (.ok contribution)) : contribution.Exact := by
  rcases Option.map_eq_some_iff.mp given with ⟨run, isRun, same⟩
  rcases Outcome.map_eq_ok_iff.mp same with ⟨value, isValue, equal⟩
  subst isValue equal
  exact kept value (nested.readValue? free isRun)

/-- What a record gives a field is exact. -/
theorem ShowsExactly.contribution? (wellFormed : pool.WellFormed)
    (nested : ShowsExactly pool decoder) (nestedEntries : ShowsExactly pool entryDecoder)
    {message : Message} {field : Field} (free : pool.FloatFreeType field.type)
    {wire : Wire.Value} {contribution : Contribution}
    (given : contribution? pool decoder entryDecoder message field wire =
      some (.ok contribution)) : contribution.Exact := by
  have element (value : Json.Value) (exact : value.Exact) : (Contribution.elements [value]).Exact :=
    .elements fun shown member => List.mem_singleton.mp member ▸ exact
  rw [contribution?.eq_def] at given
  cases shape : field.shape with
  | map id =>
    rw [shape] at given
    cases wire with
    | delimited content =>
      rcases Outcome.map_eq_ok_iff.mp (eq_ok_of_inField (Option.some.inj given)) with
        ⟨member, decoded, same⟩
      subst same
      unfold decodeEntryAt at decoded
      split at decoded
      · rename_i entry found
        have isMessage : field.type = .message id := by
          rw [Field.type, shape]
          rfl
        exact .entry _ (nestedEntries.decodeEntry wellFormed (free.next id entry isMessage found)
          decoded)
      · cases decoded
    | _ => cases given
  | «repeated» type packed =>
    rw [shape] at given
    rw [Field.type, shape, Shape.type] at free
    cases wire with
    | delimited content =>
      dsimp only at given
      split at given
      · rcases Outcome.map_eq_ok_iff.mp (Option.some.inj given) with ⟨values, read, same⟩
        subst same
        exact .elements (exact_of_readPacked free read)
      · exact nested.exact_of_readValue? free element given
    | _ => exact nested.exact_of_readValue? free element given
  | singular type explicit =>
    rw [shape] at given
    rw [Field.type, shape, Shape.type] at free
    have value (shown : Json.Value) (exact : shown.Exact) : (Contribution.value shown).Exact :=
      .value exact
    cases type with
    | message id =>
      cases wire with
      | delimited content =>
        cases given
        exact .content content
      | _ => exact nested.exact_of_readValue? free value given
    | _ => exact nested.exact_of_readValue? free value given

section Shown

variable {contributions : List Contribution}
  (each : ∀ contribution ∈ contributions, contribution.Exact)
include each

theorem exact_of_mem_valuesOf {value : Json.Value} (member : value ∈ valuesOf contributions) :
    value.Exact := by
  rcases List.mem_filterMap.mp member with ⟨contribution, there, same⟩
  cases each contribution there with
  | value exact => exact Option.some.inj same ▸ exact
  | _ => cases same

theorem exact_of_mem_elementsOf {item : Json.Value} (member : item ∈ elementsOf contributions) :
    item.Exact := by
  rcases List.mem_flatMap.mp member with ⟨contribution, there, isElement⟩
  cases each contribution there with
  | elements exact => exact exact item isElement
  | _ => cases isElement

theorem exact_entriesOf : (Json.Value.object (entriesOf contributions)).Exact := by
  rcases entriesOf_spec contributions with ⟨distinct, sources⟩
  refine .object distinct fun member there => ?_
  cases each _ (sources member there) with
  | entry _ exact => exact exact

end Shown

/-- What contributions show for a field is exact if they are. -/
theorem ShowsExactly.fieldValue (wellFormed : pool.WellFormed) (nested : ShowsExactly pool decoder)
    {options : Options} {field : Field} (free : pool.FloatFreeType field.type)
    {contributions : List Contribution} (each : ∀ contribution ∈ contributions, contribution.Exact)
    {value : Json.Value}
    (isShown : fieldValue pool options decoder field contributions = .ok (some value)) :
    value.Exact := by
  unfold Payload.fieldValue at isShown
  split at isShown
  · rename_i id explicit shape
    have nextFree : pool.FloatFreeType (.message id) := by
      rw [Field.type, shape] at free
      exact free
    split at isShown
    · cases isShown
    · rcases Outcome.map_eq_ok_iff.mp isShown with ⟨document, decoded, same⟩
      exact Option.some.inj same ▸ nested.follow nextFree (eq_ok_of_inField decoded)
  · rename_i type explicit notMessage shape
    have typeFree : pool.FloatFreeType type := by
      rw [Field.type, shape] at free
      exact free
    split at isShown
    · rename_i final last
      have exact := exact_of_mem_valuesOf each (List.mem_of_getLast? last)
      split at isShown
      · cases isShown
      · exact Option.some.inj (Except.ok.inj isShown) ▸ exact
    · split at isShown
      · exact Option.some.inj (Except.ok.inj isShown) ▸ exact_renderDefault wellFormed typeFree
      · cases isShown
  · have elements : (Json.Value.array (elementsOf contributions)).Exact :=
      .array fun _ member => exact_of_mem_elementsOf each member
    split at isShown
    · have empty : (Json.Value.array []).Exact := .array (List.forall_mem_nil _)
      split at isShown
      · exact Option.some.inj (Except.ok.inj isShown) ▸ empty
      · cases isShown
    · exact Option.some.inj (Except.ok.inj isShown) ▸ elements
  · have entries : (Json.Value.object (entriesOf contributions)).Exact :=
      exact_entriesOf each
    split at isShown
    · have empty : (Json.Value.object []).Exact := .object List.nodup_nil (List.forall_mem_nil _)
      split at isShown
      · exact Option.some.inj (Except.ok.inj isShown) ▸ empty
      · cases isShown
    · exact Option.some.inj (Except.ok.inj isShown) ▸ entries

/-- Members are assembled under distinct keys. -/
theorem exact_of_assemble {options : Options} {occurrences : List Occurrence} {fields : List Field}
    (values : ∀ field ∈ fields, ∀ value, Payload.fieldValue pool options decoder field
      (contributionsTo field occurrences) = .ok (some value) → value.Exact)
    {members result : Json.Members} (exact : (Json.Value.object members).Exact)
    (assembled : assemble pool options decoder occurrences members fields = .ok result) :
    (Json.Value.object result).Exact := by
  induction fields generalizing members with
  | nil => exact Except.ok.inj assembled ▸ exact
  | cons field rest inductionHypothesis =>
    have restValues := fun other there => values other (List.mem_cons_of_mem _ there)
    simp only [assemble] at assembled
    split at assembled
    · cases assembled
    · exact inductionHypothesis restValues exact assembled
    · rename_i value isShown
      refine inductionHypothesis restValues ?_ assembled
      cases exact with
      | object distinct each =>
        refine .object (Members.nodup_insert distinct) fun member there => ?_
        rcases Members.mem_insert there with same | old
        · exact same ▸ values field List.mem_cons_self value isShown
        · exact each member old

theorem ShowsExactly.decodeLevel (wellFormed : pool.WellFormed)
    (nested : ShowsExactly pool decoder) (nestedEntries : ShowsExactly pool entryDecoder)
    {options : Options} : ShowsExactly pool (decodeLevel pool options decoder entryDecoder) := by
  intro message free payload document decoded
  rcases decodeLevel_eq_ok_iff.mp decoded with ⟨occurrences, read, members, assembled, same⟩
  subst same
  have each : ∀ occurrence ∈ occurrences, occurrence.contribution.Exact := by
    intro occurrence there
    rcases exists_of_readRecords (readPayload_eq_ok_iff.mp read).1 occurrence there with
      ⟨record, isRead⟩
    rcases exists_of_occurrence? isRead with ⟨member, wire, given⟩
    exact nested.contribution? wellFormed nestedEntries (free.type member) given
  have empty : (Json.Value.object []).Exact := .object List.nodup_nil (List.forall_mem_nil _)
  refine exact_of_assemble (fun field member value isShown => ?_) empty assembled
  refine nested.fieldValue wellFormed (free.type member) (fun contribution there => ?_) isShown
  rcases mem_contributionsTo there with ⟨occurrence, kept, _, isContribution⟩
  exact isContribution ▸ each occurrence
    (List.mem_reverse.mp ((List.takeWhile_sublist _).mem kept))

/-- By induction on the levels.  Messages lose one of them, entries two. -/
theorem showsExactly_decodeWithin (wellFormed : pool.WellFormed) (options : Options)
    (levels : Nat) : ShowsExactly pool (decodeWithin pool options levels) := by
  have refused : ShowsExactly pool refuse := fun _ _ _ _ impossible => nomatch impossible
  induction levels using decodeWithin.induct with
  | case1 => exact refused
  | case2 => exact ShowsExactly.decodeLevel wellFormed refused refused
  | case3 levels below entriesBelow =>
    exact ShowsExactly.decodeLevel wellFormed below entriesBelow

end Values

/-- The text of an exact document is encoded as the document itself, unless it nests too deep to be
read. -/
theorem encodeText_text {pool : Pool} {name : String} {message : Message}
    (found : pool.findMessage? name = some message) {document : Json.Value}
    (exact : document.Exact) :
    encodeText pool name document.text =
      if document.depth ≤ Json.maxNesting then encode pool name document
      else .error .invalidJson := by
  simp only [encodeText, found, Json.Value.read?_text exact]
  by_cases fits : document.depth ≤ Json.maxNesting
  · simp only [if_pos fits]
  · simp only [if_neg fits]

end Payload
end SchemaRecords
