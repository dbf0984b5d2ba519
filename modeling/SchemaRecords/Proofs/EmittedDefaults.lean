import SchemaRecords.Proofs.Payload.DefaultValues
import SchemaRecords.Proofs.Payload.PairedDecoders
import SchemaRecords.Proofs.Schema.GivenCharacters

/-!
# Defaults that are shown

A document may show the defaults of fields that are not set.  It then shows more than the document of
the same payload that leaves them out, and nothing else changes: what the other shows is all there,
in the same order and at every level, and the same payloads are refused for the same reasons.

Nor does the encoder make anything of what was added, because it leaves out what the decoder would
have.  For this the first value of an enumeration has to be its zero, where a field leaves it out,
and the name of this value has to lead back to it.  And the keys have to differ: where a field takes
the JSON name of another, the default of the one stands in the place of the other.
-/

namespace SchemaRecords

namespace Json

mutual

/-- A value that is kept in another, which may show more.  The items of an array are kept one by one,
and an object may gain members. -/
inductive Value.KeptIn : Value → Value → Prop
  | same (value : Value) : Value.KeptIn value value
  | array {items others : List Value} (each : List.Forall₂ Value.KeptIn items others) :
      Value.KeptIn (.array items) (.array others)
  | object {members others : Members} (kept : Members.KeptIn members others) :
      Value.KeptIn (.object members) (.object others)

/-- Members that are all among those of another object, in the same order and with their values
kept. -/
inductive Members.KeptIn : Members → Members → Prop
  | nil : Members.KeptIn [] []
  | kept {key : String} {value other : Value} (here : Value.KeptIn value other)
      {members others : Members} (later : Members.KeptIn members others) :
      Members.KeptIn ((key, value) :: members) ((key, other) :: others)
  | added (member : String × Value) {members others : Members}
      (later : Members.KeptIn members others) : Members.KeptIn members (member :: others)

end

end Json

namespace Schema

/-- Every enumeration that can be reached has a name for each value, and where a field may leave it
out its first number is zero. -/
structure Pool.ZeroDefaults (pool : Pool) (root : Message) : Prop where
  namesDistinct : ∀ message, pool.Reaches root message → ∀ field ∈ message.fields,
    ∀ id enumeration, field.type = .enumeration id → pool.enumeration? id = some enumeration →
      (enumeration.values.map (·.name)).Nodup
  zeroFirst : ∀ message, pool.Reaches root message → message.isMapEntry = false →
    ∀ field ∈ message.fields, ∀ id explicit enumeration,
      field.shape = .singular (.enumeration id) explicit → field.hasPresence = false →
      pool.enumeration? id = some enumeration → enumeration.defaultNumber = 0

theorem Pool.zeroDefaults_of_forall {pool : Pool}
    (enumerations : ∀ enumeration ∈ pool.enumerations,
      (enumeration.values.map (·.name)).Nodup ∧ enumeration.defaultNumber = 0) (root : Message) :
    pool.ZeroDefaults root where
  namesDistinct _ _ _ _ _ _ _ found := (enumerations _ (List.mem_of_getElem? found)).1
  zeroFirst _ _ _ _ _ _ _ _ _ _ found := (enumerations _ (List.mem_of_getElem? found)).2

end Schema

namespace Payload

open SchemaRecords.Schema

section Documents

variable {pool : Pool} {relation : ValueRelation pool} {options others : Options}
  {root message : Message} {field : Field}

/-! ## Defaults are not written -/

/-- Whatever is shown for a field that is not set, no record is written for it. -/
theorem IsFilling.fieldWritten (wellFormed : pool.WellFormed) (zero : pool.ZeroDefaults root)
    (reached : pool.Reaches root message) (notEntry : message.isMapEntry = false)
    (member : field ∈ message.fields) {value : Json.Value} (filling : IsFilling pool field value) :
    FieldWritten pool field value [] := by
  cases filling with
  | single shape notMessage known noPresence =>
    rename_i type explicit
    rcases writable_renderDefault known notMessage wellFormed with ⟨wire, written⟩
    have isZero : isZero wire = true := by
      apply isZero_of_renderDefault wellFormed known notMessage _ written
      rintro id enumeration rfl found
      have nonempty := (wellFormed.enumerations enumeration (List.mem_of_getElem? found)).nonempty
      have distinct := zero.namesDistinct message reached field member id enumeration
        (Field.type_of_shape shape) found
      exact (Enumeration.showsZeroFirst_iff nonempty distinct).mpr
        (zero.zeroFirst message reached notEntry field member id explicit enumeration shape noPresence
          found)
    refine ⟨written.notNull, ?_⟩
    rw [valueRecords_single shape written, noPresence, isZero]
    rfl
  | elements shape =>
    refine ⟨rfl, ?_⟩
    rw [valueRecords_repeated shape .nil, blocks_eq_nil_iff.mpr rfl]
  | entries shape found fields => exact ⟨rfl, valueRecords_map shape found fields .nil⟩

/-! ## Documents are kept -/

theorem FieldRelated.keptIn
    (kept : ∀ type one other, relation.holds type one other → one.KeptIn other)
    {one other : Json.Value} (related : FieldRelated relation field one other) :
    one.KeptIn other := by
  cases related with
  | single shape related => exact kept _ _ _ related
  | elements shape each => exact .array (each.imp (kept _))
  | entries shape found fields each =>
    refine .object ?_
    induction each with
    | nil => exact .nil
    | cons here _ inductionHypothesis =>
      rcases here with ⟨same, _, related⟩
      rename_i entry other _ _ _
      rcases entry with ⟨key, value⟩
      cases same
      exact .kept (kept _ _ _ related) inductionHypothesis

/-- By induction on the fields: each is shown by both documents, by none, or by the fuller one. -/
theorem keptIn_membersUnder
    (kept : ∀ type one other, relation.holds type one other → one.KeptIn other)
    {key : Field → String} {shown otherShown : Field → Option Json.Value} {fields : List Field}
    (each : ∀ field ∈ fields,
      ShownRelated relation options others field (shown field) (otherShown field)) :
    Json.Members.KeptIn (membersUnder key shown fields) (membersUnder key otherShown fields) := by
  induction fields with
  | nil => exact .nil
  | cons field rest inductionHypothesis =>
    rcases List.forall_mem_cons.mp each with ⟨here, later⟩
    have others := inductionHypothesis later
    unfold membersUnder at others ⊢
    rw [List.filterMap_cons, List.filterMap_cons]
    generalize shown field = value at *
    generalize otherShown field = otherValue at *
    cases here with
    | absent => exact others
    | shown related => exact .kept (related.keptIn kept) others
    | filled _ _ _ => exact .added _ others

theorem DocumentsRelated.keptIn
    (kept : ∀ type one other, relation.holds type one other → one.KeptIn other)
    (sameKeys : options.key = others.key) (distinct : (message.fields.map options.key).Nodup)
    {shown otherShown : Field → Option Json.Value} {document otherDocument : Json.Value}
    (related : DocumentsRelated relation options others message shown otherShown document
      otherDocument) : document.KeptIn otherDocument := by
  rw [related.isOne distinct, related.isOther (sameKeys ▸ distinct), ← sameKeys]
  exact .object (keptIn_membersUnder kept related.each)

end Documents

/-- The relation of values that are written alike, one of them kept in the other. -/
def filledAlike (pool : Pool) : ValueRelation pool where
  holds type one other := WrittenAlike pool type one other ∧ one.KeptIn other
  refl _ writable := ⟨.refl writable, .same _⟩

/-- The relation that says nothing of values, so that only refusals count. -/
def refusedAlike (pool : Pool) : ValueRelation pool where
  holds _ _ _ := True
  refl _ _ := trivial

/-- Where keys can be read back, the fuller document is encoded like the other, and keeps it. -/
theorem decodeWithin_filled {pool : Pool} (wellFormed : pool.WellFormed) {root : Message}
    (zero : pool.ZeroDefaults root) {jsonNames : Bool}
    (readable : ∀ emitDefaults, Options.Readable ⟨emitDefaults, jsonNames⟩ pool root)
    {id : MessageId} (there : pool.message? id = some root) (notEntry : root.isMapEntry = false)
    (levels : Nat) (payload : Bytes) :
    Outcome.Related
      (fun sparse full => EncodedAlike pool root sparse full ∧ sparse.KeptIn full)
      (decodeWithin pool ⟨false, jsonNames⟩ levels root payload)
      (decodeWithin pool ⟨true, jsonNames⟩ levels root payload) := by
  have filled {id : MessageId} {message : Message} (found : pool.message? id = some message)
      (notEntry : message.isMapEntry = false) (reached : pool.Reaches root message)
      {shown otherShown : Field → Option Json.Value} {sparse full : Json.Value}
      (related : DocumentsRelated (filledAlike pool) ⟨false, jsonNames⟩ ⟨true, jsonNames⟩ message
        shown otherShown sparse full) :
      EncodedAlike pool message sparse full ∧ sparse.KeptIn full := by
    have indexed := (wellFormed.messages message (List.mem_of_getElem? found)).indexed
    have one := (readable false).of_reaches reached
    have alike (type : ValueType) (value other : Json.Value)
        (here : (filledAlike pool).holds type value other) : WrittenAlike pool type value other :=
      here.1
    have kept (type : ValueType) (value other : Json.Value)
        (here : (filledAlike pool).holds type value other) : value.KeptIn other :=
      here.2
    have sameKeys : (Options.mk false jsonNames).key = (Options.mk true jsonNames).key := rfl
    constructor
    · exact related.encodedAlike indexed one ((readable true).of_reaches reached) alike
        fun _ _ field member value filling =>
          filling.fieldWritten wellFormed zero reached notEntry member
    · exact related.keptIn kept sameKeys (nodup_keys indexed one)
  have related : RelatedDocuments (filledAlike pool) ⟨false, jsonNames⟩ ⟨true, jsonNames⟩
      (decodeWithin pool ⟨false, jsonNames⟩ levels) (decodeWithin pool ⟨true, jsonNames⟩ levels)
      root :=
    decodeWithin_related wellFormed (filledAlike pool) (fun _ => rfl)
      (fun id message found notEntry reached _ _ _ _ here =>
        (filled found notEntry reached here).imp (EncodedAlike.written found) fun kept => kept)
      levels
  apply (related id root there notEntry .refl payload).imp
  rintro sparse full ⟨_, _, here⟩
  exact filled there notEntry .refl here

/-- Whatever keys are used, the same payloads are refused, for the same reasons. -/
theorem decodeWithin_refusedAlike {pool : Pool} (wellFormed : pool.WellFormed)
    (jsonNames : Bool) {id : MessageId} {root : Message} (there : pool.message? id = some root)
    (notEntry : root.isMapEntry = false) (levels : Nat) (payload : Bytes) :
    Outcome.Related (fun _ _ => True)
      (decodeWithin pool ⟨false, jsonNames⟩ levels root payload)
      (decodeWithin pool ⟨true, jsonNames⟩ levels root payload) :=
  (decodeWithin_related wellFormed (refusedAlike pool) (fun _ => rfl)
    (fun _ _ _ _ _ _ _ _ _ _ => trivial) levels id root there notEntry .refl payload).imp
      fun _ _ _ => trivial

end Payload

open Schema Payload

/-- Whatever was registered, the same payloads are refused for the same reasons whether or not
defaults are shown.  The document with them keeps that without, at every level, and is encoded to the
same payload, if the names of enumerations are distinct, their first values are zero where they are
left out, and no field takes the JSON name of another where these names are used. -/
theorem decode_emitDefaults (attempts : List (String × String)) {name : String} {message : Message}
    (found : (Pool.registerAll attempts).findMessage? name = some message)
    (zero : (Pool.registerAll attempts).ZeroDefaults message) (jsonNames : Bool) (payload : Bytes) :
    Outcome.Related
      (fun sparse full =>
        (jsonNames = true → ∀ other, (Pool.registerAll attempts).Reaches message other →
          other.KeysApart) →
        sparse.KeptIn full ∧ ∃ written, encode (.registerAll attempts) name sparse = .ok written ∧
          encode (.registerAll attempts) name full = .ok written)
      (decode (.registerAll attempts) ⟨false, jsonNames⟩ name payload)
      (decode (.registerAll attempts) ⟨true, jsonNames⟩ name payload) := by
  have wellFormed := Pool.wellFormed_registerAll attempts
  rcases wellFormed.exists_of_findMessage? found with ⟨id, there, notEntry⟩
  simp only [decode, found]
  by_cases apart : jsonNames = true → ∀ other, (Pool.registerAll attempts).Reaches message other →
      other.KeysApart
  · have readable (emitDefaults : Bool) :
        Options.Readable ⟨emitDefaults, jsonNames⟩ (.registerAll attempts) message := by
      cases jsonNames with
      | false => exact Options.readable_of_names wellFormed there emitDefaults
      | true => exact Options.readable_of_keysApart wellFormed there (apart rfl) emitDefaults
    apply (decodeWithin_filled wellFormed zero readable there notEntry nestingLimit payload).imp
    rintro sparse full ⟨⟨members, others, written, rfl, rfl, encoded, otherEncoded⟩, kept⟩ _
    exact ⟨kept, written, (encode_object found members).trans encoded,
      (encode_object found others).trans otherEncoded⟩
  · exact (decodeWithin_refusedAlike wellFormed jsonNames there notEntry nestingLimit payload).imp
      fun _ _ _ isApart => absurd isApart apart

/-- A schema with defaults of many kinds, and messages in lists, maps and messages. -/
def groveAttempts : List (String × String) :=
  [("grove.proto", "syntax=\"proto3\";enum Level\x7bNONE=0;LOW=1;\x7d"
    ++ "message Leaf\x7bint32 size=1;Level level=2;\x7d"
    ++ "message Grove\x7bstring full_name=1;repeated Leaf leaves=2;map<int32,Leaf> spots=3;"
    ++ "double weight=4;Grove under=5;\x7d")]

/-- A leaf, a spot without a leaf and an empty grove. -/
def grovePayload : Bytes := [18, 2, 8, 3, 26, 2, 8, 7, 42, 0]

theorem decode_emitDefaults_grove :
    ∃ message sparse full written,
      (Pool.registerAll groveAttempts).findMessage? "Grove" = some message ∧
      (Pool.registerAll groveAttempts).ZeroDefaults message ∧
      (∀ other, (Pool.registerAll groveAttempts).Reaches message other → other.KeysApart) ∧
      decode (.registerAll groveAttempts) ⟨false, true⟩ "Grove" grovePayload = .ok sparse ∧
      sparse.text = "\x7b\"leaves\":[\x7b\"size\":3\x7d],\"spots\":\x7b\"7\":\x7b\x7d\x7d,\"under\":\x7b\x7d\x7d" ∧
      decode (.registerAll groveAttempts) ⟨true, true⟩ "Grove" grovePayload = .ok full ∧
      full.text = "\x7b\"fullName\":\"\",\"leaves\":[\x7b\"size\":3,\"level\":\"NONE\"\x7d],"
        ++ "\"spots\":\x7b\"7\":\x7b\"size\":0,\"level\":\"NONE\"\x7d\x7d,\"weight\":0.0,"
        ++ "\"under\":\x7b\"fullName\":\"\",\"leaves\":[],\"spots\":\x7b\x7d,\"weight\":0.0\x7d\x7d" ∧
      sparse.KeptIn full ∧ encode (.registerAll groveAttempts) "Grove" sparse = .ok written ∧
      encode (.registerAll groveAttempts) "Grove" full = .ok written := by
  have facts : ((Pool.registerAll groveAttempts).findMessage? "Grove").isSome = true ∧
      (∀ enumeration ∈ (Pool.registerAll groveAttempts).enumerations,
        (enumeration.values.map (·.name)).Nodup ∧ enumeration.defaultNumber = 0) ∧
      (∀ message ∈ (Pool.registerAll groveAttempts).messages, message.KeysApart) ∧
      (decode (.registerAll groveAttempts) ⟨false, true⟩ "Grove" grovePayload).toOption.map (·.text) =
        some "\x7b\"leaves\":[\x7b\"size\":3\x7d],\"spots\":\x7b\"7\":\x7b\x7d\x7d,\"under\":\x7b\x7d\x7d" ∧
      (decode (.registerAll groveAttempts) ⟨true, true⟩ "Grove" grovePayload).toOption.map (·.text) =
        some ("\x7b\"fullName\":\"\",\"leaves\":[\x7b\"size\":3,\"level\":\"NONE\"\x7d],"
          ++ "\"spots\":\x7b\"7\":\x7b\"size\":0,\"level\":\"NONE\"\x7d\x7d,\"weight\":0.0,"
          ++ "\"under\":\x7b\"fullName\":\"\",\"leaves\":[],\"spots\":\x7b\x7d,\"weight\":0.0\x7d\x7d") := by
    rw [groveAttempts, ← String.ofList_append, ← String.ofList_append, ← String.ofList_append, Pool.registerAll_ofList]
    decide +kernel
  rcases facts with ⟨isFound, enumerations, messages, isSparse, isFull⟩
  rcases Option.isSome_iff_exists.mp isFound with ⟨message, found⟩
  rcases Option.map_eq_some_iff.mp isSparse with ⟨sparse, sparseDocument, sparseText⟩
  rcases Option.map_eq_some_iff.mp isFull with ⟨full, fullDocument, fullText⟩
  rcases (Pool.wellFormed_registerAll groveAttempts).exists_of_findMessage? found with ⟨id, there, _⟩
  have zero := Pool.zeroDefaults_of_forall enumerations message
  have apart : ∀ other, (Pool.registerAll groveAttempts).Reaches message other → other.KeysApart :=
    fun other reached => messages other (reached.mem_messages (List.mem_of_getElem? there))
  have sparseDecoded := Outcome.toOption_eq_some_iff.mp sparseDocument
  have fullDecoded := Outcome.toOption_eq_some_iff.mp fullDocument
  have related := decode_emitDefaults groveAttempts found zero true grovePayload
  rw [sparseDecoded, fullDecoded] at related
  cases related with
  | ok both =>
    rcases both fun _ => apart with ⟨kept, written, encoded, fullEncoded⟩
    exact ⟨message, sparse, full, written, found, zero, apart, sparseDecoded, sparseText, fullDecoded,
      fullText, kept, encoded, fullEncoded⟩

/-- A schema in which one field takes the JSON name of another, and may be left out. -/
def twinAttempts : List (String × String) :=
  [("twin.proto", "syntax=\"proto3\";message Twin\x7bint32 a_b=1;int32 aB=2;\x7d")]

/-- The default of the second field takes the place of the value of the first. -/
theorem decode_emitDefaults_twin :
    ∃ message sparse full,
      (Pool.registerAll twinAttempts).findMessage? "Twin" = some message ∧
      (Pool.registerAll twinAttempts).ZeroDefaults message ∧
      decode (.registerAll twinAttempts) ⟨false, true⟩ "Twin" [8, 5] = .ok sparse ∧
      sparse.text = "\x7b\"aB\":5\x7d" ∧
      decode (.registerAll twinAttempts) ⟨true, true⟩ "Twin" [8, 5] = .ok full ∧
      full.text = "\x7b\"aB\":0\x7d" ∧
      encode (.registerAll twinAttempts) "Twin" sparse = .ok [16, 5] ∧
      encode (.registerAll twinAttempts) "Twin" full = .ok [] := by
  have isFound : ((Pool.registerAll twinAttempts).findMessage? "Twin").isSome = true := by
    rw [twinAttempts, Pool.registerAll_ofList]
    decide +kernel
  have enumerations : ∀ enumeration ∈ (Pool.registerAll twinAttempts).enumerations,
      (enumeration.values.map (·.name)).Nodup ∧ enumeration.defaultNumber = 0 := by
    rw [twinAttempts, Pool.registerAll_ofList]
    decide +kernel
  have isSparse : (decode (.registerAll twinAttempts) ⟨false, true⟩ "Twin" [8, 5]).toOption.map
      (fun document =>
        (document.text, (encode (.registerAll twinAttempts) "Twin" document).toOption)) =
          some ("\x7b\"aB\":5\x7d", some [16, 5]) := by
    rw [twinAttempts, Pool.registerAll_ofList]
    decide +kernel
  have isFull : (decode (.registerAll twinAttempts) ⟨true, true⟩ "Twin" [8, 5]).toOption.map
      (fun document =>
        (document.text, (encode (.registerAll twinAttempts) "Twin" document).toOption)) =
          some ("\x7b\"aB\":0\x7d", some []) := by
    rw [twinAttempts, Pool.registerAll_ofList]
    decide +kernel
  rcases Option.isSome_iff_exists.mp isFound with ⟨message, found⟩
  rcases Option.map_eq_some_iff.mp isSparse with ⟨sparse, sparseDecoded, sparseFacts⟩
  rcases Option.map_eq_some_iff.mp isFull with ⟨full, fullDecoded, fullFacts⟩
  rcases Prod.mk.inj sparseFacts with ⟨sparseText, sparseEncoded⟩
  rcases Prod.mk.inj fullFacts with ⟨fullText, fullEncoded⟩
  exact ⟨message, sparse, full, found, Pool.zeroDefaults_of_forall enumerations message,
    Outcome.toOption_eq_some_iff.mp sparseDecoded, sparseText,
    Outcome.toOption_eq_some_iff.mp fullDecoded, fullText,
    Outcome.toOption_eq_some_iff.mp sparseEncoded, Outcome.toOption_eq_some_iff.mp fullEncoded⟩

end SchemaRecords
