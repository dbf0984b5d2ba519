import Mathlib.Data.List.Perm.Subperm
import SchemaRecords.Command.Run
import SchemaRecords.Proofs.Bytes.WrittenBase64
import SchemaRecords.Proofs.Outcome
import SchemaRecords.Proofs.Schema.IndexPositions
import SchemaRecords.Proofs.Stream.WrittenFrames

/-!
# Commands on framed payloads

A frame carries the index path of its message, which is counted from the unit that declares the
message.  A reader that is told nothing counts from the unit of the last schema file.  So what the
one command frames, the other command reads, as long as these two units are the same.
-/

namespace SchemaRecords

open SchemaRecords.Command
open SchemaRecords.Schema

/-! ## The commands -/

/-- Encode a document and write the bare payload. -/
def EncodeCommand.bare (schemas : List SchemaFile) (messageType document : String) :
    EncodeCommand :=
  ⟨schemas, messageType, none, [], document⟩

/-- Encode a document and put the payload into a frame, with the index path of the message. -/
def EncodeCommand.framed (schemas : List SchemaFile) (messageType document : String)
    (schemaId : UInt32) : EncodeCommand :=
  ⟨schemas, messageType, some schemaId, [], document⟩

/-- Decode a bare payload as a message of some type. -/
def DecodeCommand.bare (schemas : List SchemaFile) (messageType : String)
    (output : Payload.Options) (payload : String) : DecodeCommand :=
  ⟨schemas, some messageType, none, [], false, false, output, payload⟩

/-- Decode a framed payload as what the frame says. -/
def DecodeCommand.framed (schemas : List SchemaFile) (output : Payload.Options)
    (payload : String) : DecodeCommand :=
  ⟨schemas, none, none, [], true, false, output, payload⟩

/-- The type as which a command decodes, and the bytes that it decodes. -/
def DecodeCommand.subject (pool : Pool) (command : DecodeCommand) :
    Except Failure (String × Bytes) := do
  let (index, payload) ← command.unwrap (← command.bytes)
  return (← command.typeOfMessage pool index, payload)

theorem DecodeCommand.text_eq (surroundings : Surroundings) {command : DecodeCommand}
    {pool : Pool} (loaded : registerSchemas surroundings.files command.schemas = .ok pool) :
    command.text surroundings = command.subject pool >>= fun subject =>
      ((Payload.decode pool command.output subject.1 subject.2).mapError
        (.undecodable subject.1)).map Json.Value.text := by
  have mapped {run : Except Failure Json.Value} :
      (run >>= fun document => pure document.text) = run.map Json.Value.text := by
    cases run <;> rfl
  rw [DecodeCommand.text, loaded]
  simp only [DecodeCommand.document, DecodeCommand.subject, bind_assoc, pure_bind, ← mapped]
  rfl

/-- The payload that a command encodes. -/
def EncodeCommand.payload (pool : Pool) (input : Bytes) (command : EncodeCommand) :
    Except Failure Bytes := do
  let document ← command.documentText input
  (Payload.encodeText pool command.messageType document).mapError
    (.unencodable command.messageType)

theorem EncodeCommand.text_eq (surroundings : Surroundings) {command : EncodeCommand}
    {pool : Pool} (loaded : registerSchemas surroundings.files command.schemas = .ok pool) :
    command.text surroundings = command.payload pool surroundings.input >>= fun payload =>
      (command.wrap pool payload).map (Bytes.Base64.text .standard) := by
  have mapped {run : Except Failure Bytes} :
      (run >>= fun bytes => pure (Bytes.Base64.text .standard bytes)) =
        run.map (Bytes.Base64.text .standard) := by
    cases run <;> rfl
  rw [EncodeCommand.text, loaded]
  simp only [EncodeCommand.payload, EncodeCommand.bytes, bind_assoc, ← mapped]
  rfl

/-! ## Schema files -/

/-- Schema files that are registered leave a pool that attempts to register texts leave. -/
theorem Command.exists_attempts {files : Files} {schemas : List SchemaFile} {pool : Pool}
    (loaded : registerSchemas files schemas = .ok pool) :
    ∃ attempts, Pool.registerAll attempts = pool := by
  have registered : SchemaFile.registerAll files schemas = .ok pool := by
    unfold registerSchemas at loaded
    cases outcome : SchemaFile.registerAll files schemas with
    | ok other =>
      rw [outcome] at loaded
      exact congrArg _ (Except.ok.inj loaded)
    | error refusal =>
      rw [outcome] at loaded
      cases loaded
  unfold SchemaFile.registerAll at registered
  clear loaded
  induction schemas using List.reverseRecOn generalizing pool with
  | nil => exact ⟨[], Except.ok.inj registered⟩
  | append_singleton schemas file inductionHypothesis =>
    rw [List.foldlM_append] at registered
    rcases Outcome.bind_eq_ok_iff.mp registered with ⟨before, earlier, last⟩
    rcases inductionHypothesis earlier with ⟨attempts, same⟩
    simp only [List.foldlM_cons, List.foldlM_nil, bind_pure] at last
    unfold SchemaFile.register at last
    split at last
    · cases last
    · split at last
      · cases last
      · rename_i text _
        split at last
        · cases last
        · rename_i grown added
          cases last
          refine ⟨attempts ++ [(file.name, text)], ?_⟩
          rw [Pool.registerAll_concat, same, Pool.register, added]

/-! ## Index paths in frames -/

/-- Distinct places of messages are no more than there are messages. -/
theorem Schema.Pool.length_le_of_nodup {pool : Pool} {ids : List MessageId} (distinct : ids.Nodup)
    (taken : ∀ id ∈ ids, ∃ message, pool.message? id = some message) :
    ids.length ≤ pool.messages.length := by
  have injective : Function.Injective MessageId.index := by
    rintro ⟨first⟩ ⟨second⟩ same
    exact congrArg _ same
  have within : ids.map (·.index) ⊆ List.range pool.messages.length := by
    intro place member
    rcases List.mem_map.mp member with ⟨id, listed, same⟩
    rcases taken id listed with ⟨message, found⟩
    exact List.mem_range.mpr (same ▸ (List.getElem?_eq_some_iff.mp found).1)
  have shorter := (List.Nodup.subperm (distinct.map injective) within).length_le
  rwa [List.length_map, List.length_range] at shorter

theorem Schema.Pool.LeadsTo.lt_length {pool : Pool} {unitName : String}
    (wellFormed : pool.WellFormed) {positions : List Nat} {message : Message}
    (reached : pool.LeadsTo unitName positions message) :
    ∀ position ∈ positions, position < pool.messages.length := by
  induction reached with
  | @root unit index id message known listed found =>
    rcases Option.bind_eq_some_iff.mp known with ⟨place, _, there⟩
    have roots := (wellFormed.units place unit there).messages
    have distinct : unit.messages.Nodup := by
      refine List.nodup_iff_count_le_one.mpr fun root => ?_
      by_cases member : root ∈ unit.messages
      · rcases roots root member with ⟨top, taken, isUnit, noParent, _⟩
        rcases (wellFormed.messages top (List.mem_of_getElem? taken)).root noParent with
          ⟨_, itsUnit, itsThere, once⟩
        rw [isUnit, there] at itsThere
        cases itsThere
        rw [wellFormed.places root top taken] at once
        exact once.le
      · exact (List.count_eq_zero.mpr member).le.trans (Nat.zero_le 1)
    have bound : unit.messages.length ≤ pool.messages.length :=
      Pool.length_le_of_nodup distinct fun root member =>
        (roots root member).imp fun _ facts => facts.1
    intro position member
    cases List.mem_singleton.mp member
    exact (List.getElem?_eq_some_iff.mp listed).1.trans_le bound
  | @inside positions outer message index id reached listed found inductionHypothesis =>
    rcases reached.found with ⟨place, there⟩
    have facts := wellFormed.messages outer (List.mem_of_getElem? there)
    have bound := Pool.length_le_of_nodup facts.nestedDistinct fun nested member =>
      (facts.nested nested member).imp fun _ facts => facts.1
    intro position member
    rcases List.mem_append.mp member with earlier | last
    · exact inductionHypothesis position earlier
    · cases List.mem_singleton.mp last
      exact (List.getElem?_eq_some_iff.mp listed).1.trans_le bound

/-- A path to a message can be read from a frame if it is short enough. -/
theorem Schema.Pool.LeadsTo.readable {pool : Pool} {unitName : String}
    (wellFormed : pool.WellFormed) {positions : List Nat} {message : Message}
    (reached : pool.LeadsTo unitName positions message) (small : pool.messages.length < 2 ^ 63)
    (short : (indexPath positions).length ≤ Stream.maxIndexCount) :
    Stream.Frame.Readable (indexPath positions) where
  nonempty := reached.ne_nil
  short := short
  long := by
    intro index member
    rcases List.mem_map.mp member with ⟨position, listed, same⟩
    have below := reached.lt_length wellFormed position listed
    have isNatural : index = (position : Int) := same.symm
    unfold Stream.Frame.IsLong
    omega

/-! ## Bytes on the command line -/

theorem DecodeCommand.bytes_text {command : DecodeCommand} (notHex : command.isHex = false)
    {bytes : Bytes} (given : command.payload = Bytes.Base64.text .standard bytes) :
    command.bytes = .ok bytes := by
  rw [DecodeCommand.bytes, given, Bytes.Base64.trim_text, String.ofList_toList, notHex,
    if_neg Bool.false_ne_true, Bytes.Base64.decode_text]
  rfl

theorem DecodeCommand.subject_bare (pool : Pool) (schemas : List SchemaFile) (name : String)
    (output : Payload.Options) (payload : Bytes) :
    (bare schemas name output (Bytes.Base64.text .standard payload)).subject pool =
      .ok (name, payload) := by
  rw [subject, bytes_text rfl rfl]
  rfl

/-- The index path of a frame counts from the unit of the last schema file. -/
theorem DecodeCommand.subject_framed {pool : Pool} {unit : SchemaUnit}
    (isLast : pool.units.getLast? = some unit) (schemas : List SchemaFile)
    (output : Payload.Options) (schemaId : UInt32) {path : List Int}
    (readable : Stream.Frame.Readable path) {message : Message}
    (resolved : pool.resolve unit.name path = .ok message) (payload : Bytes) :
    (framed schemas output (Bytes.Base64.text .standard
        (Stream.Frame.encode ⟨schemaId, path, payload⟩))).subject pool =
      .ok (message.fullName, payload) := by
  have read : Stream.Frame.decode (Stream.Frame.encode ⟨schemaId, path, payload⟩) =
      .ok ⟨schemaId, path, payload⟩ := Stream.Frame.decode_encode readable
  have noRoot : (none <|> some unit.name) = some unit.name := rfl
  rw [subject, bytes_text rfl rfl]
  simp only [framed, Bind.bind, Except.bind, unwrap, if_true, read, chooseIndex, typeOfMessage,
    rootUnit, isLast, Option.map_some, noRoot, resolved]
  rfl

/-- A command that frames a payload uses the index path of the message. -/
theorem EncodeCommand.text_framed (surroundings : Surroundings) {schemas : List SchemaFile}
    {pool : Pool} (loaded : registerSchemas surroundings.files schemas = .ok pool)
    {name document : String} {path : List Int} (isPath : pool.messageIndex? name = some path)
    {payload : Bytes}
    (encoded : (bare schemas name document).payload pool surroundings.input = .ok payload)
    (schemaId : UInt32) :
    (framed schemas name document schemaId).text surroundings =
      .ok (Bytes.Base64.text .standard (Stream.Frame.encode ⟨schemaId, path, payload⟩)) := by
  have encodedToo : (framed schemas name document schemaId).payload pool surroundings.input =
      .ok payload := encoded
  have index : (framed schemas name document schemaId).frameIndex pool = .ok path := by
    unfold Pool.messageIndex? at isPath
    simp only [frameIndex, framed, ne_eq, not_true_eq_false, if_false, isPath]
  rw [text_eq surroundings loaded, encodedToo]
  simp only [Bind.bind, Except.bind, wrap]
  rw [index]
  rfl

/-! ## The frame that is written is the one that is read -/

/-- Let a message be declared by the last of some schema files, at an index path that a frame may
carry.  If a document can be encoded as this message, it can be framed.  Whoever decodes the
frame with the same schema files, and is told nothing else, decodes the bare payload as a message
of the same type, to the same end. -/
theorem decode_framed (surroundings : Surroundings) (schemas : List SchemaFile) {pool : Pool}
    (loaded : registerSchemas surroundings.files schemas = .ok pool)
    (small : pool.messages.length < 2 ^ 63) {name : String} {message : Message}
    (found : pool.findMessage? name = some message)
    (isLast : pool.unitAt? message.unit = pool.units.getLast?)
    (short : ∀ path, pool.messageIndex? name = some path → path.length ≤ Stream.maxIndexCount)
    {document unframed : String}
    (accepted : (EncodeCommand.bare schemas name document).text surroundings = .ok unframed)
    (schemaId : UInt32) :
    message.fullName = Pool.withoutLeadingDot name ∧
      ∃ framed, (EncodeCommand.framed schemas name document schemaId).text surroundings =
          .ok framed ∧
        ∃ payload, unframed = Bytes.Base64.text .standard payload ∧ ∀ output,
          (DecodeCommand.framed schemas output framed).subject pool =
            .ok (message.fullName, payload) ∧
          (DecodeCommand.framed schemas output framed).text surroundings =
            (DecodeCommand.bare schemas message.fullName output unframed).text surroundings := by
  rcases Command.exists_attempts loaded with ⟨attempts, same⟩
  have wellFormed : pool.WellFormed := same ▸ Pool.wellFormed_registerAll attempts
  have orderly : pool.Orderly := same ▸ Pool.orderly_registerAll attempts
  rcases wellFormed.exists_of_findMessage? found with ⟨id, there, notEntry⟩
  rcases orderly.exists_leadsTo wellFormed id.index there notEntry with
    ⟨unit, positions, unitThere, known, reached⟩
  have isPath : pool.messageIndex? name = some (indexPath positions) := by
    rw [Pool.messageIndex?, found, Option.bind_some, reached.indexPath? wellFormed]
  have resolved := reached.resolve []
  rw [List.append_nil] at resolved
  rw [EncodeCommand.text_eq surroundings loaded] at accepted
  rcases Outcome.bind_eq_ok_iff.mp accepted with ⟨payload, encoded, isText⟩
  cases Except.ok.inj isText
  refine ⟨wellFormed.fullName_of_findMessage? found, _,
    EncodeCommand.text_framed surroundings loaded isPath encoded schemaId, payload, rfl,
    fun output => ?_⟩
  -- The path is looked up in the last unit, which is the one of the message.
  have subject := DecodeCommand.subject_framed (isLast.symm.trans unitThere) schemas output schemaId
    (reached.readable wellFormed small (short _ isPath)) resolved payload
  refine ⟨subject, ?_⟩
  rw [DecodeCommand.text_eq surroundings loaded, DecodeCommand.text_eq surroundings loaded,
    subject, DecodeCommand.subject_bare]
  rfl

/-- Two schema files, each with one message. -/
def sensorFiles : Files := fun path =>
  if path = "level.proto" then
    .ok (Text.Utf8.encode "message Level\x7boptional int32 height=1;\x7d")
  else if path = "switch.proto" then
    .ok (Text.Utf8.encode "message Switch\x7boptional bool closed=1;\x7d")
  else .error "no such file"

/-- How the schema files of the sensors are named. -/
def sensorSchemas : List SchemaFile := [⟨"level", "level.proto"⟩, ⟨"switch", "switch.proto"⟩]

/-- The message of the last schema file is framed and read back. -/
theorem decode_framed_last :
    ∃ framed, (EncodeCommand.framed sensorSchemas "Switch" "\x7b\"closed\":true\x7d" 7).text
        ⟨sensorFiles, [], .unreachable⟩ = .ok framed ∧
      (DecodeCommand.framed sensorSchemas .plain framed).text ⟨sensorFiles, [], .unreachable⟩ =
        (DecodeCommand.bare sensorSchemas "Switch" .plain "CAE=").text
          ⟨sensorFiles, [], .unreachable⟩ := by
  have facts : ((registerSchemas sensorFiles sensorSchemas).toOption.bind fun pool =>
      (pool.findMessage? "Switch").bind fun message =>
        if pool.messages.length < 2 ^ 63 ∧ pool.unitAt? message.unit = pool.units.getLast? ∧
          pool.messageIndex? "Switch" = some [0] then some message.fullName else none) =
      some "Switch" := by
    decide +kernel
  have encoded : ((EncodeCommand.bare sensorSchemas "Switch" "\x7b\"closed\":true\x7d").text
      ⟨sensorFiles, [], .unreachable⟩).toOption = some "CAE=" := by
    decide +kernel
  rcases Option.bind_eq_some_iff.mp facts with ⟨pool, loaded, facts⟩
  rcases Option.bind_eq_some_iff.mp facts with ⟨message, found, facts⟩
  split at facts
  · rename_i conditions
    rcases conditions with ⟨small, isLast, isPath⟩
    have isName := Option.some.inj facts
    rcases decode_framed ⟨sensorFiles, [], .unreachable⟩ sensorSchemas
        (Outcome.toOption_eq_some_iff.mp loaded) small found isLast
        (fun path same => Option.some.inj (isPath.symm.trans same) ▸ by decide)
        (Outcome.toOption_eq_some_iff.mp encoded) 7 with
      ⟨_, framed, isFramed, payload, _, reads⟩
    exact ⟨framed, isFramed, isName ▸ (reads .plain).2⟩
  · cases facts

/-- The message of the first schema file is taken for that of the last one. -/
theorem decode_framed_earlier :
    ((EncodeCommand.framed sensorSchemas "Level" "\x7b\"height\":1\x7d" 7).text
        ⟨sensorFiles, [], .unreachable⟩).toOption = some "AAAAAAcACAE=" ∧
      ((DecodeCommand.framed sensorSchemas .plain "AAAAAAcACAE=").text
        ⟨sensorFiles, [], .unreachable⟩).toOption = some "\x7b\"closed\":true\x7d" ∧
      ((EncodeCommand.bare sensorSchemas "Level" "\x7b\"height\":1\x7d").text
        ⟨sensorFiles, [], .unreachable⟩).toOption = some "CAE=" ∧
      ((DecodeCommand.bare sensorSchemas "Level" .plain "CAE=").text
        ⟨sensorFiles, [], .unreachable⟩).toOption = some "\x7b\"height\":1\x7d" := by
  decide +kernel

end SchemaRecords
