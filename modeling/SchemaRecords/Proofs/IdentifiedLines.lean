import SchemaRecords.Proofs.Payload.OwnRecords
import SchemaRecords.Proofs.RecompiledStreams
import SchemaRecords.Proofs.Registry.CompilationProgress
import SchemaRecords.Proofs.Schema.FieldNames

/-!
# Which record a line is for

The line of a record begins with the offset and the key of the record, and the members of what its
value decodes to come behind them.  All of them are in one object.  Under the names of the schema
nothing can come between, since no field is called `@offset` or `@key`.  A JSON name can be
anything, and a field that the schema gives one of these two names takes the place of the record's
own offset or key.
-/

namespace SchemaRecords

namespace Stream

open SchemaRecords.Registry
open SchemaRecords.Schema

/-! ## What a record adds to a document -/

/-- The members that a record adds to the document of its value. -/
def Record.own (record : Record) : Json.Members :=
  [("@offset", record.offsetValue), ("@key", .string record.key)]

/-- The keys of these members. -/
def ownKeys : List String := ["@offset", "@key"]

theorem Record.keys_own (record : Record) : record.own.map (·.1) = ownKeys := rfl

/-- The members of a line: the record's own, unless the document has something else to say under
their keys, and then all other members of the document. -/
def Record.lineMembers (record : Record) (members : Json.Members) : Json.Members :=
  (record.own.map fun own => (own.1, (members.lookup own.1).getD own.2)) ++
    members.filter fun member => member.1 ∉ ownKeys

theorem Record.document_object (record : Record) {members : Json.Members}
    (distinct : (members.map (·.1)).Nodup) :
    record.document (.object members) = .object (record.lineMembers members) := by
  have ownDistinct : (record.own.map (·.1)).Nodup := (by decide : ownKeys.Nodup)
  exact congrArg Json.Value.object (Json.Members.insertAll_eq_append ownDistinct distinct)

/-- The line has exactly the record's own members and those of the document if and only if they
have no key in common. -/
theorem Record.lineMembers_eq_iff (record : Record) (members : Json.Members) :
    record.lineMembers members = record.own ++ members ↔ ∀ key ∈ ownKeys, key ∉ members.map (·.1) := by
  constructor
  · intro same key isOwn known
    have lengths := congrArg List.length same
    simp only [lineMembers, List.length_append, List.length_map, Nat.add_left_cancel_iff,
      List.length_filter_eq_length_iff, decide_eq_true_eq] at lengths
    rcases List.mem_map.mp known with ⟨member, listed, rfl⟩
    exact lengths member listed isOwn
  · intro apart
    have ownValues : ∀ own ∈ record.own,
        (own.1, (members.lookup own.1).getD own.2) = own := by
      intro own listed
      have absent : members.lookup own.1 = none := by
        rw [List.lookup_eq_none_iff]
        intro member there
        have isOwn : own.1 ∈ ownKeys := record.keys_own ▸ List.mem_map_of_mem listed
        exact bne_iff_ne.mpr fun same => apart own.1 isOwn (List.mem_map.mpr ⟨member, there, same.symm⟩)
      rw [absent, Option.getD_none]
    have others : ∀ member ∈ members, decide (member.1 ∉ ownKeys) = true := by
      intro member there
      exact decide_eq_true fun isOwn => apart _ isOwn (List.mem_map_of_mem there)
    rw [lineMembers, List.map_congr_left ownValues, List.map_id', List.filter_eq_self.mpr others]

end Stream

/-! ## Keys of a document -/

namespace Payload

open SchemaRecords.Schema

variable {pool : Pool} {options : Options}

/-- The keys of a document belong to its fields, and each stands there once. -/
theorem keys_of_assemble {decoder : Decoder} {occurrences : List Occurrence} {fields : List Field}
    {members result : Json.Members} (distinct : (members.map (·.1)).Nodup)
    (done : assemble pool options decoder occurrences members fields = .ok result) :
    (result.map (·.1)).Nodup ∧ ∀ key ∈ result.map (·.1),
      key ∈ members.map (·.1) ∨ ∃ field ∈ fields, options.key field = key := by
  induction fields generalizing members with
  | nil =>
    cases done
    exact ⟨distinct, fun _ known => Or.inl known⟩
  | cons first rest inductionHypothesis =>
    simp only [assemble] at done
    split at done
    · cases done
    · rcases inductionHypothesis distinct done with ⟨apart, keys⟩
      refine ⟨apart, fun key known => ?_⟩
      rcases keys key known with before | ⟨field, listed, isKey⟩
      · exact Or.inl before
      · exact Or.inr ⟨field, List.mem_cons_of_mem _ listed, isKey⟩
    · rcases inductionHypothesis (Json.Members.nodup_insert distinct) done with ⟨apart, keys⟩
      refine ⟨apart, fun key known => ?_⟩
      rcases keys key known with earlier | ⟨field, listed, isKey⟩
      · rcases Json.Members.mem_keys_insert.mp earlier with isFirst | before
        · exact Or.inr ⟨first, List.mem_cons_self, isFirst.symm⟩
        · exact Or.inl before
      · exact Or.inr ⟨field, List.mem_cons_of_mem _ listed, isKey⟩

/-- What a payload decodes to is an object with keys of the message's fields. -/
theorem exists_object_of_decode {name : String} {message : Message}
    (found : pool.findMessage? name = some message) {payload : Bytes} {document : Json.Value}
    (decoded : decode pool options name payload = .ok document) :
    ∃ members, document = .object members ∧ (members.map (·.1)).Nodup ∧
      ∀ key ∈ members.map (·.1), ∃ field ∈ message.fields, options.key field = key := by
  rw [decode_of_findMessage? found] at decoded
  rcases decodeLevel_eq_ok_iff.mp decoded with ⟨occurrences, _, members, done, rfl⟩
  have nothing : (([] : Json.Members).map (·.1)).Nodup := List.nodup_nil
  rcases keys_of_assemble nothing done with ⟨distinct, keys⟩
  exact ⟨members, rfl, distinct, fun key known => (keys key known).resolve_left List.not_mem_nil⟩

end Payload

/-! ## Lines -/

namespace Stream

open SchemaRecords.Registry
open SchemaRecords.Schema

/-- What is true of a line, given the record it is for, the message that the value of the record
was decoded as, and the members that came of it.  The line has the record's own keys in front.
It has exactly the record's own members and those of the document, in this order, if and only if
they have no key in common.  That is so under the names of the schema, and under the JSON names
unless the schema calls a field of the message as the record calls its own members. -/
structure Record.Identified (options : Payload.Options) (record : Record) (message : Message)
    (members : Json.Members) (line : Json.Value) : Prop where
  shape : line = .object (record.lineMembers members)
  exact : line = .object (record.own ++ members) ↔ ∀ key ∈ ownKeys, key ∉ members.map (·.1)
  names : options.jsonNames = false → line = .object (record.own ++ members)
  jsonNames : (∀ field ∈ message.fields, field.jsonName ∉ ownKeys) →
    line = .object (record.own ++ members)
  given : ∀ field ∈ message.fields, field.jsonName ∈ ownKeys →
    field.jsonName ≠ lowerCamelCase field.name

theorem at_mem_of_mem_ownKeys {key : String} (isOwn : key ∈ ownKeys) : '@' ∈ key.toList := by
  rcases List.mem_cons.mp isOwn with rfl | rest
  · decide
  · cases List.mem_singleton.mp rest
    decide

theorem Record.identified {pool : Pool} (named : pool.FieldsNamed) {message : Message}
    (there : message ∈ pool.messages) (found : pool.findMessage? message.fullName = some message)
    {options : Payload.Options} {payload : Bytes} {decoded : Json.Value}
    (isDecoded : Payload.decode pool options message.fullName payload = .ok decoded)
    (record : Record) :
    ∃ members, decoded = .object members ∧
      record.Identified options message members (record.document decoded) := by
  rcases Payload.exists_object_of_decode found isDecoded with ⟨members, rfl, distinct, keys⟩
  have exact_iff : record.document (.object members) = .object (record.own ++ members) ↔
      ∀ key ∈ ownKeys, key ∉ members.map (·.1) := by
    rw [record.document_object distinct, Json.Value.object.injEq]
    exact record.lineMembers_eq_iff members
  refine ⟨members, rfl, record.document_object distinct, exact_iff, fun plain => ?_,
    fun jsonApart => ?_, fun field listed isOwn same => ?_⟩
  · refine exact_iff.mpr fun key isOwn known => ?_
    rcases keys key known with ⟨field, listed, isKey⟩
    rw [Payload.Options.key, plain, if_neg Bool.false_ne_true] at isKey
    exact at_notMem_of_isIdentifier (named message there field listed)
      (isKey ▸ at_mem_of_mem_ownKeys isOwn)
  · refine exact_iff.mpr fun key isOwn known => ?_
    rcases keys key known with ⟨field, listed, isKey⟩
    rw [Payload.Options.key] at isKey
    split at isKey
    · exact jsonApart field listed (isKey ▸ isOwn)
    · exact at_notMem_of_isIdentifier (named message there field listed)
        (isKey ▸ at_mem_of_mem_ownKeys isOwn)
  · exact at_notMem_lowerCamelCase (named message there field listed)
      (same ▸ at_mem_of_mem_ownKeys isOwn)

/-- A line that a record gives: its value is a frame, the schema of the frame can be compiled,
the index path selects a message, and the payload is decoded as this message. -/
def Record.GivesLine (source : Source) (options : Payload.Options) (record : Record)
    (line : Json.Value) : Prop :=
  ∃ frame requests pool message members,
    Frame.decode record.value = .ok frame ∧
      compile source frame.schemaId = some ⟨requests, .ok pool⟩ ∧
      pool.resolve rootUnit frame.index = .ok message ∧
      Payload.decode pool options message.fullName frame.payload = .ok (.object members) ∧
      record.Identified options message members line

theorem Record.givesLine_of_recompile {source : Source} {options : Payload.Options}
    {record : Record} {line : Json.Value}
    (read : record.recompile source options = some (.ok line)) :
    record.GivesLine source options line := by
  unfold Record.recompile at read
  split at read
  · cases read
  · rename_i frame framed
    rcases Option.map_eq_some_iff.mp read with ⟨⟨requests, result⟩, compiled, isLine⟩
    cases result with
    | error error => cases isLine
    | ok pool =>
      rcases exists_registerAll_of_compile compiled with ⟨attempts, rfl⟩
      simp only [decodeFrame] at isLine
      split at isLine
      · cases isLine
      · rename_i message resolved
        split at isLine
        · cases isLine
        · rename_i decoded isDecoded
          cases isLine
          have wellFormed := Pool.wellFormed_registerAll attempts
          rcases Pool.exists_of_resolve wellFormed resolved with ⟨id, found, notEntry⟩
          have named := (Pool.orderly_registerAll attempts).findMessage? wellFormed found notEntry
          rcases record.identified (Pool.fieldsNamed_registerAll attempts)
            (List.mem_of_getElem? found) named isDecoded with ⟨members, rfl, identified⟩
          exact ⟨frame, requests, _, message, members, framed, compiled, resolved, isDecoded,
            identified⟩

/-- Lines that some of the given records give, one for each of these and in their order. -/
def GiveLines (source : Source) (options : Payload.Options) (records : List Record)
    (lines : List Json.Value) : Prop :=
  ∃ written, written.Sublist records ∧
    List.Forall₂ (Record.GivesLine source options) written lines

variable {source : Source} {limit : Option Nat} {inserted : List UInt32} {cache : Cache}

/-- By induction on the records, each of which leaves the cache as good as it was. -/
theorem readRecords_lines (fresh : cache.Fresh source) {options : ReadOptions}
    {fault : Option FramingError} {records : List Record} {report : Report}
    (read : readRecords source options fault cache records = some report) :
    GiveLines source options.decoding records report.documents := by
  induction records generalizing cache report with
  | nil =>
    cases read
    exact ⟨[], .slnil, .nil⟩
  | cons record rest inductionHypothesis =>
    rcases Option.bind_eq_some_iff.mp read with ⟨attempt, attempted, read⟩
    have kept := Record.fresh_attempt fresh attempted
    split at read
    · rename_i document result
      rcases Option.bind_eq_some_iff.mp read with ⟨later, laterRead, isReport⟩
      cases isReport
      rcases inductionHypothesis kept laterRead with ⟨written, among, lines⟩
      have recompiled := Record.result_attempt fresh options.decoding record
      rw [attempted, Option.map_some, result] at recompiled
      exact ⟨record :: written, among.cons_cons record,
        .cons (Record.givesLine_of_recompile recompiled.symm) lines⟩
    · split at read
      · rcases Option.bind_eq_some_iff.mp read with ⟨later, laterRead, isReport⟩
        cases isReport
        rcases inductionHypothesis kept laterRead with ⟨written, among, lines⟩
        exact ⟨written, among.cons record, lines⟩
      · cases read
        exact ⟨[], List.nil_sublist _, .nil⟩

/-- Whatever a stream holds, and whatever the cache was asked for before, each line is for one of
the records and tells which, as far as no JSON name in its schema takes the place of the record's
own keys.  This includes every part of a stream: a reader that waits for ever for the schema of
some record has written the same lines before. -/
theorem readStream_identified (reached : Cache.Reached (· = source) limit inserted cache)
    (options : ReadOptions) (bytes : Bytes) :
    (∀ report, readStream source options cache bytes = some report →
        GiveLines source options.decoding (Record.readAll bytes).1 report.documents) ∧
      ∀ count report,
        readRecords source options none cache ((Record.readAll bytes).1.take count) = some report →
          GiveLines source options.decoding ((Record.readAll bytes).1.take count)
            report.documents :=
  ⟨fun _ read => readRecords_lines reached.fresh read,
    fun _ _ read => readRecords_lines reached.fresh read⟩

/-- A stream of one record is read as this record is, if its schema can be compiled. -/
theorem readStream_of_compile {options : ReadOptions} {record : Record} {frame : Frame}
    {requests : List Request} {pool : Pool} {line : Json.Value}
    (single : Record.readAll record.encode = ([record], none))
    (framed : Frame.decode record.value = .ok frame)
    (compiled : compile source frame.schemaId = some ⟨requests, .ok pool⟩)
    (decoded : record.decodeFrame options.decoding frame pool = .ok line) :
    ∃ report, readStream source options (.empty limit) record.encode = some report ∧
      report.documents = [line] := by
  have missed : (Cache.empty limit).find? frame.schemaId = none := rfl
  refine ⟨⟨[line], 0, requests ++ [], (Cache.empty limit).insert frame.schemaId pool, none⟩, ?_, rfl⟩
  simp only [readStream, single, readRecords, Record.attempt, framed,
    Cache.get_of_compile missed compiled, Option.map_some, decoded]
  rfl

theorem readStream_identified_page :
    ∃ report line, readStream journal.source ⟨⟨false, true⟩, false⟩ (.empty none) page.encode =
        some report ∧ report.documents = [line] ∧
      line.text = "\x7b\"@offset\":0,\"@key\":\"a\",\"day\":5\x7d" ∧
      GiveLines journal.source ⟨false, true⟩ (Record.readAll page.encode).1 [line] := by
  have pages : ((compileWithin journal.source 2 2).bind (·.result.toOption)).map
      (fun pool => (page.decodeFrame ⟨false, true⟩ ⟨2, [0], [8, 5]⟩ pool).map (·.text)) =
      some (.ok "\x7b\"@offset\":0,\"@key\":\"a\",\"day\":5\x7d") := by
    decide +kernel
  have single : Record.readAll page.encode = ([page], none) := by decide +kernel
  have framed : Frame.decode page.value = .ok ⟨2, [0], [8, 5]⟩ := by decide +kernel
  rcases Option.map_eq_some_iff.mp pages with ⟨pool, isPool, pageFact⟩
  rcases exists_compile_of_compileWithin isPool with ⟨requests, compiled⟩
  rcases Outcome.map_eq_ok_iff.mp pageFact with ⟨line, decoded, text⟩
  have once : ∃ report, readStream journal.source ⟨⟨false, true⟩, false⟩ (.empty none) page.encode =
      some report ∧ report.documents = [line] :=
    readStream_of_compile single framed compiled decoded
  rcases once with ⟨report, read, documents⟩
  have unasked : Cache.Reached (· = journal.source) none [] (.empty none) := .start
  have lines := (readStream_identified unasked ⟨⟨false, true⟩, false⟩ page.encode).1 report read
  exact ⟨report, line, read, documents, text, documents ▸ lines⟩

/-- A schema with a field that goes by the key of a record's offset. -/
def shadow : Catalog :=
  [(.byId 1, ⟨"message Shadow\x7boptional int32 at=1[json_name=\"@offset\"];\x7d", some protobuf, []⟩)]

/-- A record of this schema. -/
def shadowed : Record := ⟨"7", "k", [0, 0, 0, 0, 1, 0, 8, 5]⟩

/-- The line of the record, given the pool of its schema, and the line that would have the record's
own members in front of those of the document. -/
def shadowedTexts (pool : Pool) : Option (String × String) := do
  let message ← (pool.resolve rootUnit [0]).toOption
  match ← (Payload.decode pool ⟨false, true⟩ message.fullName [8, 5]).toOption with
  | .object members =>
    return ((shadowed.document (.object members)).text,
      (Json.Value.object (shadowed.own ++ members)).text)
  | _ => none

/-- The line tells the value of the field and not the offset of the record. -/
theorem readStream_identified_shadowed :
    ∃ report line requests pool message members,
      readStream shadow.source ⟨⟨false, true⟩, false⟩ (.empty none) shadowed.encode = some report ∧
      report.documents = [line] ∧ line.text = "\x7b\"@offset\":5,\"@key\":\"k\"\x7d" ∧
      line ≠ .object (shadowed.own ++ members) ∧
      compile shadow.source 1 = some ⟨requests, .ok pool⟩ ∧
      pool.resolve rootUnit [0] = .ok message ∧
      Payload.decode pool ⟨false, true⟩ message.fullName [8, 5] = .ok (.object members) ∧
      (Json.Value.object (shadowed.own ++ members)).text =
        "\x7b\"@offset\":7,\"@key\":\"k\",\"@offset\":5\x7d" := by
  have texts : ((compileWithin shadow.source 2 1).bind (·.result.toOption)).map shadowedTexts =
      some (some ("\x7b\"@offset\":5,\"@key\":\"k\"\x7d",
        "\x7b\"@offset\":7,\"@key\":\"k\",\"@offset\":5\x7d")) := by
    decide +kernel
  have single : Record.readAll shadowed.encode = ([shadowed], none) := by decide +kernel
  have framed : Frame.decode shadowed.value = .ok ⟨1, [0], [8, 5]⟩ := by decide +kernel
  rcases Option.map_eq_some_iff.mp texts with ⟨pool, isPool, both⟩
  rcases exists_compile_of_compileWithin isPool with ⟨requests, compiled⟩
  rcases Option.bind_eq_some_iff.mp both with ⟨message, isMessage, both⟩
  rcases Option.bind_eq_some_iff.mp both with ⟨decoded, isDecoded, both⟩
  have resolved := Outcome.toOption_eq_some_iff.mp isMessage
  have decodes := Outcome.toOption_eq_some_iff.mp isDecoded
  cases decoded with
  | object members =>
    have lineTexts := Prod.mk.inj (Option.some.inj both)
    have line : shadowed.decodeFrame ⟨false, true⟩ ⟨1, [0], [8, 5]⟩ pool =
        .ok (shadowed.document (.object members)) := by
      simp only [Record.decodeFrame, resolved, decodes]
    have once : ∃ report, readStream shadow.source ⟨⟨false, true⟩, false⟩ (.empty none)
        shadowed.encode = some report ∧ report.documents = [shadowed.document (.object members)] :=
      readStream_of_compile single framed compiled line
    rcases once with ⟨report, read, documents⟩
    have different : shadowed.document (.object members) ≠ .object (shadowed.own ++ members) := by
      intro same
      have sameTexts := lineTexts.1.symm.trans (same ▸ lineTexts.2)
      exact absurd sameTexts (by decide)
    exact ⟨report, _, requests, pool, message, members, read, documents, lineTexts.1, different,
      compiled, resolved, decodes, lineTexts.2⟩
  | _ => cases both

end Stream
end SchemaRecords
