import SchemaRecords.Proofs.Payload.ConcernedRecords
import SchemaRecords.Proofs.Schema.GivenCharacters
import SchemaRecords.Proofs.Wire.ConsumedBytes
import SchemaRecords.Proofs.Wire.SpelledValues

/-!
# Elements in chunks

The elements of a repeated field of numbers, booleans or numbers of an enumeration can be spread over
a payload in many ways: each in a record of its own, or any of them together in a block, which may
be empty.  Records of other fields may stand in between.  Whether the schema says that the field is
packed makes no difference to a reader.

All these ways lead to the same document: that of one block with all the elements, if they have less
than 2^32 bytes together.  More than that does not go into a block, because a reader keeps only 32
bits of its length; but even then any two ways of cutting the elements lead to the same document.
Elements are given as they are written, so a number may take more bytes than it needs.
-/

namespace SchemaRecords

namespace Wire.Value

theorem layout_of_read {layout : Layout} {value : Value} {bytes rest : Bytes}
    (isRead : read layout bytes = .ok (value, rest)) : value.layout = layout := by
  cases layout <;> simp only [read] at isRead <;> split at isRead <;> cases isRead <;> rfl

/-- Bytes that are a value each, one behind the other, are read as these values. -/
theorem readAll_flatten {layout : Layout} {elements : List Bytes} {values : List Value}
    (each : List.Forall₂ (fun element value => read layout element = .ok (value, []))
      elements values) : readAll layout elements.flatten = .ok values := by
  induction each with
  | nil => rw [List.flatten_nil, readAll.eq_def]
  | @cons element value later _ isRead _ inductionHypothesis =>
    have whole : read layout (element ++ later.flatten) = .ok (value, later.flatten) :=
      (readsFront layout).append isRead later.flatten
    have shorter := length_of_read whole
    rw [List.flatten_cons, readAll.eq_def]
    split
    · rename_i empty
      rw [empty] at shorter
      cases shorter
    · rename_i first others isCons
      rw [isCons] at whole
      split
      · rename_i fault refused
        cases refused.symm.trans whole
      · rename_i other rest isOther
        cases whole.symm.trans isOther
        rw [inductionHypothesis]

end Wire.Value

/-- A content of less than 2^32 bytes behind any spelling of its tag and its length is a record. -/
theorem Wire.Record.read_delimited {number : Nat} {mark digits content : Bytes}
    (isTag : Tag.Spelled ⟨number, .value .delimited⟩ mark)
    (numeral : Varint.IsNumeral .long digits) (length : Varint.total digits = content.length)
    (short : content.length < 2 ^ 32) :
    read (mark ++ digits ++ content) = .ok (⟨number, some (.delimited content)⟩, []) := by
  have front : Tag.read (mark ++ (digits ++ content)) =
      .ok (⟨number, .value .delimited⟩, digits ++ content) :=
    Tag.read_eq_ok_iff.mpr ⟨mark, rfl, isTag⟩
  have back := readDelimited_append numeral length short []
  rw [List.append_nil] at back
  simp only [read, List.append_assoc, front, readValue, Value.read, back]

namespace Payload

open SchemaRecords.Schema

/-! ## Cutting elements into chunks -/

/-- Bytes that are an element of some layout. -/
def IsElement (layout : Wire.Layout) (element : Bytes) : Prop :=
  ∃ value, Wire.Value.read layout element = .ok (value, [])

/-- Some elements in one record with the number of their field: one element by itself, or any
number of them in a block. -/
inductive Chunk (number : Nat) (layout : Wire.Layout) : List Bytes → Bytes → Prop
  | single {element bytes : Bytes} {value : Wire.Value}
      (isElement : Wire.Value.read layout element = .ok (value, []))
      (isRecord : Wire.Record.read bytes = .ok (⟨number, some value⟩, [])) :
      Chunk number layout [element] bytes
  | block {elements : List Bytes} {bytes : Bytes}
      (areElements : ∀ element ∈ elements, IsElement layout element)
      (isRecord : Wire.Record.read bytes =
        .ok (⟨number, some (.delimited elements.flatten)⟩, [])) :
      Chunk number layout elements bytes

/-- A payload of elements that are cut into chunks, with records of other numbers between them. -/
inductive Cut (number : Nat) (layout : Wire.Layout) : List Bytes → List Bytes → Bytes → Prop
  | nil : Cut number layout [] [] []
  | chunk {elements later others : List Bytes} {bytes payload : Bytes}
      (isChunk : Chunk number layout elements bytes) (rest : Cut number layout later others payload) :
      Cut number layout (elements ++ later) others (bytes ++ payload)
  | other {elements others : List Bytes} {bytes payload : Bytes} {record : Wire.Record}
      (isRecord : Wire.Record.read bytes = .ok (record, [])) (different : record.number ≠ number)
      (rest : Cut number layout elements others payload) :
      Cut number layout elements (bytes :: others) (bytes ++ payload)

section Cuts

variable {number : Nat} {layout : Wire.Layout} {elements others : List Bytes} {payload : Bytes}

theorem Chunk.exists_record {bytes : Bytes} (isChunk : Chunk number layout elements bytes) :
    ∃ value, Wire.Record.read bytes = .ok (⟨number, some value⟩, []) := by
  cases isChunk with
  | single _ isRecord => exact ⟨_, isRecord⟩
  | block _ isRecord => exact ⟨_, isRecord⟩

theorem Cut.append (one : Cut number layout elements others payload)
    {moreElements moreOthers : List Bytes} {morePayload : Bytes}
    (more : Cut number layout moreElements moreOthers morePayload) :
    Cut number layout (elements ++ moreElements) (others ++ moreOthers) (payload ++ morePayload) := by
  induction one with
  | nil => exact more
  | chunk isChunk _ inductionHypothesis =>
    rw [List.append_assoc, List.append_assoc]
    exact .chunk isChunk inductionHypothesis
  | other isRecord different _ inductionHypothesis =>
    rw [List.append_assoc]
    exact .other isRecord different inductionHypothesis

theorem Cut.areElements (cut : Cut number layout elements others payload) :
    ∀ element ∈ elements, IsElement layout element := by
  induction cut with
  | nil => exact List.forall_mem_nil _
  | chunk isChunk _ inductionHypothesis =>
    refine List.forall_mem_append.mpr ⟨?_, inductionHypothesis⟩
    cases isChunk with
    | single isElement => exact List.forall_mem_singleton.mpr ⟨_, isElement⟩
    | block areElements => exact areElements
  | other _ _ _ inductionHypothesis => exact inductionHypothesis

/-- The other records by themselves are cut too, into no chunk, and so is any part of them. -/
theorem Cut.others_subset (cut : Cut number layout elements others payload) {part : List Bytes}
    (subset : part ⊆ others) : Cut number layout [] part part.flatten := by
  have each : ∀ bytes ∈ others, ∃ record, Wire.Record.read bytes = .ok (record, []) ∧
      record.number ≠ number := by
    clear subset
    induction cut with
    | nil => exact List.forall_mem_nil _
    | chunk _ _ inductionHypothesis => exact inductionHypothesis
    | other isRecord different _ inductionHypothesis =>
      exact List.forall_mem_cons.mpr ⟨⟨_, isRecord, different⟩, inductionHypothesis⟩
  induction part with
  | nil => exact .nil
  | cons bytes rest inductionHypothesis =>
    rcases List.cons_subset.mp subset with ⟨here, later⟩
    rcases each bytes here with ⟨record, isRecord, different⟩
    exact .other isRecord different (inductionHypothesis later)

/-- One block with all the elements, anywhere between the other records, is another cut. -/
theorem Cut.block_between {front behind : List Bytes}
    (cut : Cut number layout elements (front ++ behind) payload) {block : Bytes}
    (isBlock : Wire.Record.read block = .ok (⟨number, some (.delimited elements.flatten)⟩, [])) :
    Cut number layout elements (front ++ behind) (front.flatten ++ block ++ behind.flatten) := by
  have before := cut.others_subset (List.subset_append_left front behind)
  have after := cut.others_subset (List.subset_append_right front behind)
  have whole := (before.append (.chunk (.block cut.areElements isBlock) .nil)).append after
  simpa only [List.nil_append, List.append_nil] using whole

/-- A payload that is cut is made of whole records. -/
theorem Cut.complete (cut : Cut number layout elements others payload) :
    (Wire.Record.split payload).2 = none := by
  induction cut with
  | nil => rw [Wire.Record.split_nil]
  | chunk isChunk _ inductionHypothesis =>
    rcases isChunk.exists_record with ⟨value, isRecord⟩
    rw [Wire.Record.split_record isRecord]
    exact inductionHypothesis
  | other isRecord _ _ inductionHypothesis =>
    rw [Wire.Record.split_record isRecord]
    exact inductionHypothesis

/-- Without the records of the field a payload is what its other records make up. -/
theorem Cut.records_others (cut : Cut number layout elements others payload) :
    (Wire.Record.split payload).1.filter (fun record => decide (record.number ≠ number)) =
      (Wire.Record.split others.flatten).1 := by
  induction cut with
  | nil => rw [List.flatten_nil, Wire.Record.split_nil, List.filter_nil]
  | chunk isChunk _ inductionHypothesis =>
    rcases isChunk.exists_record with ⟨value, isRecord⟩
    rw [Wire.Record.split_record isRecord, List.filter_cons_of_neg (by simp)]
    exact inductionHypothesis
  | other isRecord different _ inductionHypothesis =>
    rw [List.flatten_cons, Wire.Record.split_record isRecord, Wire.Record.split_record isRecord,
      List.filter_cons_of_pos (by simpa using different), inductionHypothesis]

end Cuts

/-! ## Elements that are read -/

/-- An element as it is written, and as it is shown. -/
def ShowsElement (pool : Pool) (type : ValueType) (element : Bytes) (value : Json.Value) : Prop :=
  ∃ wire, Wire.Value.read type.layout element = .ok (wire, []) ∧
    renderPackable? pool type wire = some value

section Elements

variable {pool : Pool} {type : ValueType} {elements : List Bytes} {values : List Json.Value}

/-- Every element is shown as something. -/
theorem exists_showsElement (pool : Pool) (packable : type.isPackable = true) {element : Bytes}
    (isElement : IsElement type.layout element) : ∃ value, ShowsElement pool type element value := by
  rcases isElement with ⟨wire, isRead⟩
  have understood : (readValue? pool refuse "" "" type wire).isSome = true := by
    rw [isSome_readValue?, Wire.Value.layout_of_read isRead]
    exact decide_eq_true rfl
  rw [readValue?_of_isPackable packable, Option.isSome_map] at understood
  rcases Option.isSome_iff_exists.mp understood with ⟨value, isShown⟩
  exact ⟨value, wire, isRead, isShown⟩

theorem Cut.exists_showsElements (pool : Pool) (packable : type.isPackable = true) {number : Nat}
    {others : List Bytes} {payload : Bytes}
    (cut : Cut number type.layout elements others payload) :
    ∃ values, List.Forall₂ (ShowsElement pool type) elements values :=
  exists_forall₂ fun element there =>
    exists_showsElement pool packable (cut.areElements element there)

/-- A block is read as the values that its elements show. -/
theorem readPacked_flatten (shown : List.Forall₂ (ShowsElement pool type) elements values)
    (name : String) : readPacked pool name type elements.flatten = .ok values := by
  have wires : ∃ wires, List.Forall₂ (fun element wire =>
        Wire.Value.read type.layout element = .ok (wire, [])) elements wires ∧
      wires.filterMap (renderPackable? pool type) = values := by
    induction shown with
    | nil => exact ⟨[], .nil, rfl⟩
    | cons here _ inductionHypothesis =>
      rcases here with ⟨wire, isRead, isShown⟩
      rcases inductionHypothesis with ⟨wires, areRead, areShown⟩
      refine ⟨wire :: wires, .cons isRead areRead, ?_⟩
      rw [List.filterMap_cons, isShown, areShown]
  rcases wires with ⟨wires, areRead, areShown⟩
  simp only [readPacked, Wire.Value.readAll_flatten areRead, areShown]

end Elements

section Fields

variable {pool : Pool} {options : Options} {message : Message} {field : Field} {type : ValueType}
  {packed : Bool} {elements others : List Bytes} {values : List Json.Value} {payload : Bytes}
  (decoder entryDecoder : Decoder)

/-- What a field shows does not depend on how the elements of another are cut. -/
theorem Cut.contributionsTo (indexed : message.Indexed) (member : field ∈ message.fields)
    (alone : field.oneof = none) (cut : Cut field.number type.layout elements others payload)
    {other : Field} (otherMember : other ∈ message.fields) (different : other ≠ field) :
    contributionsTo other
        (understood (occurrence? pool decoder entryDecoder message) (Wire.Record.split payload).1) =
      contributionsTo other (understood (occurrence? pool decoder entryDecoder message)
        (Wire.Record.split others.flatten).1) := by
  have apart {sibling : Field} (there : sibling ∈ message.fields) (unlike : sibling ≠ field) :
      decide (sibling.number ≠ field.number) = true :=
    decide_eq_true fun same => unlike (indexed.eq_of_number there member same)
  rw [← cut.records_others]
  refine (contributionsTo_understood_filter indexed (p := fun number =>
    decide (number ≠ field.number)) (apart otherMember different) ?_ _).symm
  intro sibling there inOneof sameOneof
  apply apart there
  rintro rfl
  rw [← sameOneof, alone] at inOneof
  cases inOneof

variable (shape : field.shape = .repeated type packed) (packable : type.isPackable = true)
include shape packable

/-- A chunk gives a field the values that its elements show. -/
theorem Chunk.contribution? (message : Message) {bytes : Bytes}
    (isChunk : Chunk field.number type.layout elements bytes)
    (shown : List.Forall₂ (ShowsElement pool type) elements values) :
    ∃ wire, Wire.Record.read bytes = .ok (⟨field.number, some wire⟩, []) ∧
      contribution? pool decoder entryDecoder message field wire =
        some (.ok (.elements values)) := by
  cases isChunk with
  | single isElement isRecord =>
    refine ⟨_, isRecord, ?_⟩
    cases shown with
    | cons here later =>
      cases later
      rcases here with ⟨wire, isRead, isShown⟩
      cases isElement.symm.trans isRead
      rw [contribution?_element shape (Wire.Value.layout_of_read isRead),
        readValue?_of_isPackable packable, isShown]
      rfl
  | block _ isRecord =>
    refine ⟨_, isRecord, ?_⟩
    rw [contribution?.eq_def, shape]
    dsimp only
    rw [if_pos packable, readPacked_flatten shown]
    rfl

/-- The records of the field give it the values of all elements, in the order in which these are
written. -/
theorem Cut.elementsOf (message : Message)
    (cut : Cut field.number type.layout elements others payload)
    (shown : List.Forall₂ (ShowsElement pool type) elements values) :
    elementsOf (contributionsOf pool decoder entryDecoder message field
      (valuesNumbered field.number payload)) = values := by
  unfold valuesNumbered recordsNumbered
  induction cut generalizing values with
  | nil =>
    cases shown
    rw [Wire.Record.split_nil]
    rfl
  | @chunk first later _ bytes payload isChunk _ inductionHypothesis =>
    have isHere := (List.forall₂_take_append values first later shown.flip).flip
    have isBehind := (List.forall₂_drop_append values first later shown.flip).flip
    rcases isChunk.contribution? decoder entryDecoder shape packable message isHere with
      ⟨wire, isRecord, given⟩
    have both := congrArg (values.take first.length ++ ·) (inductionHypothesis isBehind)
    rw [List.take_append_drop] at both
    rw [Wire.Record.split_record isRecord, List.filter_cons_of_pos (by simp), List.filterMap_cons,
      contributionsOf, List.filterMap_cons, given]
    exact both
  | other isRecord different _ inductionHypothesis =>
    rw [Wire.Record.split_record isRecord, List.filter_cons_of_neg (by simpa using different)]
    exact inductionHypothesis shown

/-- No record of the field is refused, so it is for the others to be accepted. -/
theorem Cut.allAccepted_iff (pool : Pool) (indexed : message.Indexed) (member : field ∈ message.fields)
    (cut : Cut field.number type.layout elements others payload) :
    AllAccepted (occurrence? pool decoder entryDecoder message) (Wire.Record.split payload).1 ↔
      AllAccepted (occurrence? pool decoder entryDecoder message)
        (Wire.Record.split others.flatten).1 := by
  rcases cut.exists_showsElements pool packable with ⟨values, shown⟩
  induction cut generalizing values with
  | nil => rfl
  | @chunk first later _ bytes payload isChunk _ inductionHypothesis =>
    have isHere := (List.forall₂_take_append values first later shown.flip).flip
    have isBehind := (List.forall₂_drop_append values first later shown.flip).flip
    rcases isChunk.contribution? decoder entryDecoder shape packable message isHere with
      ⟨wire, isRecord, given⟩
    have accepted (refusal : DecodeError) :
        occurrence? pool decoder entryDecoder message ⟨field.number, some wire⟩ ≠
          some (.error refusal) := by
      rw [occurrence?_own indexed member rfl, Option.bind_some, given]
      exact fun impossible => nomatch impossible
    rw [Wire.Record.split_record isRecord]
    exact allAccepted_cons.trans ((and_iff_right accepted).trans (inductionHypothesis _ isBehind))
  | other isRecord different _ inductionHypothesis =>
    rw [List.flatten_cons, Wire.Record.split_record isRecord, Wire.Record.split_record isRecord]
    exact allAccepted_cons.trans
      ((and_congr_right fun _ => inductionHypothesis _ shown).trans allAccepted_cons.symm)

/-- The field itself shows its elements. -/
theorem Cut.fieldValue (indexed : message.Indexed) (member : field ∈ message.fields)
    (alone : field.oneof = none) (cut : Cut field.number type.layout elements others payload)
    (shown : List.Forall₂ (ShowsElement pool type) elements values) :
    fieldValue pool options decoder field (Payload.contributionsTo field
        (understood (occurrence? pool decoder entryDecoder message)
          (Wire.Record.split payload).1)) = .ok (shownElements options values) := by
  rw [contributionsTo_of_alone alone, contributions_of_understood indexed member,
    fieldValue_shownElements shape]
  exact congrArg (Except.ok ∘ shownElements options)
    (cut.elementsOf decoder entryDecoder shape packable message shown)

/-- Two payloads of the same elements and the same other records have the same document, however
the elements are cut. -/
theorem Cut.toOption_decodeLevel (indexed : message.Indexed) (member : field ∈ message.fields)
    (alone : field.oneof = none) (cut : Cut field.number type.layout elements others payload)
    {otherPayload : Bytes} (otherCut : Cut field.number type.layout elements others otherPayload) :
    (decodeLevel pool options decoder entryDecoder message payload).toOption =
      (decodeLevel pool options decoder entryDecoder message otherPayload).toOption := by
  rcases cut.exists_showsElements pool packable with ⟨values, shown⟩
  have alike := (cut.allAccepted_iff decoder entryDecoder shape packable pool indexed member).trans
    (otherCut.allAccepted_iff decoder entryDecoder shape packable pool indexed member).symm
  apply toOption_decodeLevel_congr (cut.complete.trans otherCut.complete.symm) alike
  intro _ other otherMember
  by_cases same : other = field
  · subst same
    rw [cut.fieldValue decoder entryDecoder shape packable indexed member alone shown,
      otherCut.fieldValue decoder entryDecoder shape packable indexed member alone shown]
  · rw [cut.contributionsTo decoder entryDecoder indexed member alone otherMember same,
      otherCut.contributionsTo decoder entryDecoder indexed member alone otherMember same]

end Fields
end Payload

open Schema Payload

/-- A schema with a repeated field that is not declared to be packed. -/
def walkAttempts : List (String × String) :=
  [("walk.proto", "message Walk\x7boptional string name=1;repeated sint32 steps=2;\x7d")]

/-- An element in its own record, an empty block, a name, and a block of two elements, the second of
which takes a byte more than it needs. -/
def walkPayload : Bytes := [16, 2, 18, 0, 10, 1, 97, 18, 3, 4, 134, 0]

theorem walk_cut :
    Payload.Cut 2 .varint [[2], [4], [134, 0]] [[10, 1, 97]] walkPayload :=
  .chunk (.single (by rfl : Wire.Value.read .varint [2] = .ok (.varint 2, []))
      (by rfl : Wire.Record.read [16, 2] = _))
    (.chunk (.block (List.forall_mem_nil _) (by rfl : Wire.Record.read [18, 0] = _))
      (.other (by rfl : Wire.Record.read [10, 1, 97] = .ok (⟨1, some (.delimited [97])⟩, []))
        (by decide)
        (.chunk (.block
            (List.forall_mem_cons.mpr ⟨⟨.varint 4, by rfl⟩,
              List.forall_mem_singleton.mpr ⟨.varint 6, by rfl⟩⟩)
            (by rfl : Wire.Record.read [18, 3, 4, 134, 0] = _)) .nil)))

end SchemaRecords
