import Mathlib.Data.List.Sort
import SchemaRecords.Proofs.Payload.GrownEncoding
import SchemaRecords.Proofs.Schema.FieldLookups
import SchemaRecords.Proofs.Wire.WrittenRecords

/-!
# Payloads field by field

The payload of an object consists of the values that are written for each field, in the order
of field numbers.  The order in which the object lists its members leaves no trace in it, nor
does a member that nothing is written for.  So a payload is known as soon as the values are
known for every field of the message, and two objects that give each field the same values
have the same payload.
-/

namespace SchemaRecords.Payload

open SchemaRecords.Schema

/-! ## Values in the order of field numbers -/

/-- The records of the values that are written for a field. -/
def recordsOf (wires : Field → List Wire.Value) (field : Field) : List (Nat × Wire.Value) :=
  (wires field).map fun wire => (field.number, wire)

/-- The bytes of the values that are written for a field. -/
def writtenValues (field : Field) (wires : List Wire.Value) : Bytes :=
  Wire.Record.encodeAll (wires.map fun wire => (field.number, wire))

/-- Fields in the order of their numbers. -/
def byNumber (fields : List Field) : List Field :=
  fields.insertionSort fun first second => first.number ≤ second.number

/-- The records of a message in which some values are written for each field. -/
def recordsByNumber (message : Message) (wires : Field → List Wire.Value) :
    List (Nat × Wire.Value) :=
  (byNumber message.fields).flatMap (recordsOf wires)

/-- The payload of a message in which some values are written for each field. -/
def writtenFields (message : Message) (wires : Field → List Wire.Value) : Bytes :=
  Wire.Record.encodeAll (recordsByNumber message wires)

instance : Std.Total fun first second : Field => first.number ≤ second.number :=
  ⟨fun first second => Nat.le_total first.number second.number⟩

instance : IsTrans Field fun first second => first.number ≤ second.number :=
  ⟨fun _ _ _ => Nat.le_trans⟩

theorem mem_byNumber {fields : List Field} {field : Field} :
    field ∈ byNumber fields ↔ field ∈ fields :=
  List.mem_insertionSort _

theorem sortByNumber_eq (settings : List Setting) :
    sortByNumber settings =
      settings.insertionSort fun first second => first.field.number ≤ second.field.number := by
  have insert (setting : Setting) (settings : List Setting) :
      insertByNumber setting settings = settings.orderedInsert
        (fun first second => first.field.number ≤ second.field.number) setting := by
    induction settings with
    | nil => rfl
    | cons first rest inductionHypothesis =>
      rw [insertByNumber, List.orderedInsert_cons, inductionHypothesis]
  induction settings with
  | nil => rfl
  | cons setting rest inductionHypothesis =>
    rw [sortByNumber, List.foldr_cons, insert, List.insertionSort_cons, ← inductionHypothesis]
    rfl

theorem map_sortByNumber (settings : List Setting) :
    (sortByNumber settings).map (·.field) = byNumber (settings.map (·.field)) := by
  rw [sortByNumber_eq, byNumber]
  exact List.map_insertionSort _ _ _ _ fun _ _ _ _ => Iff.rfl

/-- The fields of a message that are among others, in order, are those others in order. -/
theorem filter_byNumber {message : Message} (indexed : message.Indexed) {fields : List Field}
    (among : ∀ field ∈ fields, field ∈ message.fields) (distinct : fields.Nodup) :
    (byNumber message.fields).filter (· ∈ fields) = byNumber fields := by
  have sorted (list : List Field) :
      (byNumber list).Pairwise fun first second => first.number ≤ second.number :=
    List.pairwise_insertionSort _ list
  have permutation : ((byNumber message.fields).filter (· ∈ fields)).Perm (byNumber fields) := by
    have whole : ((byNumber message.fields).filter (· ∈ fields)).Perm
        (message.fields.filter (· ∈ fields)) := (List.perm_insertionSort _ _).filter _
    have part : (message.fields.filter (· ∈ fields)).Perm fields := by
      apply (List.perm_ext_iff_of_nodup
        (indexed.nodup.filter _) distinct).mpr
      intro field
      simp only [List.mem_filter, decide_eq_true_eq]
      exact ⟨fun member => member.2, fun member => ⟨among field member, member⟩⟩
    exact (whole.trans part).trans (List.perm_insertionSort _ _).symm
  apply List.Perm.eq_of_pairwise _ ((sorted message.fields).filter _) (sorted fields) permutation
  intro first second firstMember secondMember least greatest
  have firstField := mem_byNumber.mp (List.mem_of_mem_filter firstMember)
  have secondField := among second (mem_byNumber.mp secondMember)
  exact indexed.eq_of_number firstField secondField (Nat.le_antisymm least greatest)

/-- What gives nothing may be left out before something is done with every element. -/
theorem flatMap_filter {α β : Type} (f : α → List β) (p : α → Bool) (list : List α)
    (nothing : ∀ element ∈ list, p element = false → f element = []) :
    (list.filter p).flatMap f = list.flatMap f := by
  induction list with
  | nil => rfl
  | cons first rest inductionHypothesis =>
    have later := inductionHypothesis fun element member =>
      nothing element (List.mem_cons_of_mem _ member)
    by_cases kept : p first = true
    · rw [List.filter_cons_of_pos kept, List.flatMap_cons, List.flatMap_cons, later]
    · have empty := nothing first List.mem_cons_self (Bool.eq_false_iff.mpr kept)
      rw [List.filter_cons_of_neg kept, List.flatMap_cons, empty, List.nil_append, later]

/-! ## Joining settings -/

theorem joinRecords_eq_ok {settings : List Setting} {bytes : Bytes}
    (joined : joinRecords settings = .ok bytes) :
    ∀ setting ∈ settings, ∃ records, setting.records = .ok records := by
  induction settings generalizing bytes with
  | nil => exact List.forall_mem_nil _
  | cons first rest inductionHypothesis =>
    simp only [joinRecords] at joined
    split at joined
    · cases joined
    · rename_i records written
      split at joined
      · cases joined
      · rename_i others later
        intro setting member
        rcases List.mem_cons.mp member with same | member
        · exact same ▸ ⟨records, written⟩
        · exact inductionHypothesis later setting member

theorem joinRecords_records {wires : Field → List Wire.Value} {settings : List Setting}
    (written : ∀ setting ∈ settings,
      setting.records = .ok (writtenValues setting.field (wires setting.field))) :
    joinRecords settings =
      .ok (Wire.Record.encodeAll ((settings.map (·.field)).flatMap (recordsOf wires))) := by
  induction settings with
  | nil => rfl
  | cons first rest inductionHypothesis =>
    have later := inductionHypothesis fun setting member =>
      written setting (List.mem_cons_of_mem _ member)
    simp only [joinRecords, written first List.mem_cons_self, later, List.map_cons,
      List.flatMap_cons, Wire.Record.encodeAll_append]
    rfl

/-- Settings that write the values of their fields make up the payload, if nothing is
written for the other fields. -/
theorem joinRecords_eq_writtenFields {message : Message} (indexed : message.Indexed)
    {wires : Field → List Wire.Value} {settings : List Setting}
    (among : ∀ setting ∈ settings, setting.field ∈ message.fields)
    (distinct : (settings.map (·.field)).Nodup)
    (written : ∀ setting ∈ settings,
      setting.records = .ok (writtenValues setting.field (wires setting.field)))
    (absent : ∀ field ∈ message.fields, field ∉ settings.map (·.field) → wires field = []) :
    joinRecords (sortByNumber settings) = .ok (writtenFields message wires) := by
  have fieldsAmong : ∀ field ∈ settings.map (·.field), field ∈ message.fields := by
    intro field member
    rcases List.mem_map.mp member with ⟨setting, there, same⟩
    exact same ▸ among setting there
  have sortedWritten : ∀ setting ∈ sortByNumber settings,
      setting.records = .ok (writtenValues setting.field (wires setting.field)) :=
    fun setting member => written setting (mem_sortByNumber.mp member)
  rw [joinRecords_records sortedWritten, map_sortByNumber, writtenFields, recordsByNumber,
    ← filter_byNumber indexed fieldsAmong distinct, flatMap_filter]
  intro field member notSet
  have unset := of_decide_eq_false notSet
  rw [recordsOf, absent field (mem_byNumber.mp member) unset, List.map_nil]

/-- Values on the wire for all fields at once, none of them where no value is held. -/
theorem exists_wires_of_held {held : Field → Option Json.Value}
    {P : Field → Json.Value → List Wire.Value → Prop}
    (each : ∀ field value, held field = some value → ∃ wires, P field value wires) :
    ∃ wires : Field → List Wire.Value, (∀ field, held field = none → wires field = []) ∧
      ∀ field value, held field = some value → P field value (wires field) := by
  have choice (field : Field) : ∃ wires, (held field = none → wires = []) ∧
      ∀ value, held field = some value → P field value wires := by
    cases isHeld : held field with
    | none => exact ⟨[], fun _ => rfl, fun _ impossible => nomatch impossible⟩
    | some value =>
      rcases each field value isHeld with ⟨wires, holds⟩
      refine ⟨wires, fun impossible => (nomatch impossible), ?_⟩
      rintro other isOther
      cases isOther
      exact holds
  choose wires absent holds using choice
  exact ⟨wires, absent, holds⟩

/-! ## Oneofs -/

/-- Of every two members of a oneof that a condition picks, both are the same. -/
def Exclusive (message : Message) (picked : Field → Prop) : Prop :=
  ∀ first ∈ message.fields, ∀ second ∈ message.fields, first.oneof.isSome = true →
    first.oneof = second.oneof → picked first → picked second → first = second

theorem Exclusive.imp {message : Message} {picked others : Field → Prop}
    (exclusive : Exclusive message picked)
    (isPicked : ∀ field ∈ message.fields, others field → picked field) :
    Exclusive message others := by
  intro first firstMember second secondMember inOneof sameOneof firstOther secondOther
  exact exclusive first firstMember second secondMember inOneof sameOneof
    (isPicked first firstMember firstOther) (isPicked second secondMember secondOther)

theorem checkOneofs_eq_ok_iff (message : Message) (settings : List Setting)
    (oneofs : List Oneof) :
    checkOneofs message settings oneofs = .ok () ↔
      ∀ oneof ∈ oneofs, (setMembers message settings oneof).length ≤ 1 := by
  induction oneofs with
  | nil => exact ⟨fun _ _ member => (nomatch member), fun _ => rfl⟩
  | cons oneof rest inductionHypothesis =>
    rw [checkOneofs, List.forall_mem_cons]
    by_cases several : 1 < (setMembers message settings oneof).length
    · rw [if_pos several]
      constructor
      · intro impossible
        cases impossible
      · intro single
        exact absurd single.1 (Nat.not_le.mpr several)
    · rw [if_neg several, inductionHypothesis]
      constructor
      · intro later
        exact ⟨Nat.not_lt.mp several, later⟩
      · intro both
        exact both.2

theorem length_le_one_iff {α : Type} {list : List α} (distinct : list.Nodup) :
    list.length ≤ 1 ↔ ∀ first ∈ list, ∀ second ∈ list, first = second := by
  constructor
  · intro short first firstMember second secondMember
    match list with
    | [] => cases firstMember
    | [only] =>
      rw [List.mem_singleton.mp firstMember, List.mem_singleton.mp secondMember]
    | _ :: _ :: _ =>
      simp only [List.length_cons] at short
      omega
  · intro same
    match list with
    | [] => exact Nat.zero_le 1
    | [_] => exact Nat.le_refl 1
    | first :: second :: rest =>
      have equal := same first List.mem_cons_self second (List.mem_cons_of_mem _ List.mem_cons_self)
      have different := (List.nodup_cons.mp distinct).1
      exact absurd (equal ▸ List.mem_cons_self) different

theorem checkOneofs_iff_exclusive {message : Message} (indexed : message.Indexed)
    (settings : List Setting) :
    checkOneofs message settings message.oneofs = .ok () ↔
      Exclusive message fun field => field.number ∈ settings.map (·.field.number) := by
  have isSet (field : Field) :
      (settings.any fun setting => setting.field.number = field.number) = true ↔
        field.number ∈ settings.map (·.field.number) := by
    simp only [List.any_eq_true, decide_eq_true_eq, List.mem_map]
  have memSet {index : Nat} {oneof : Oneof} (listed : message.oneofs[index]? = some oneof)
      (field : Field) : field ∈ setMembers message settings oneof ↔
        (field ∈ message.fields ∧ field.oneof = some index) ∧
          field.number ∈ settings.map (·.field.number) := by
    rw [setMembers, List.mem_filter, isSet, indexed.mem_membersOf listed]
  rw [checkOneofs_eq_ok_iff]
  constructor
  · intro single first firstMember second secondMember inOneof sameOneof firstSet secondSet
    rcases Option.isSome_iff_exists.mp inOneof with ⟨index, isMember⟩
    have range := indexed.oneofsInRange first firstMember index isMember
    have listed := List.getElem?_eq_getElem range
    have oneofMember := List.mem_of_getElem? listed
    have distinct := (indexed.nodup_membersOf oneofMember).filter
      fun member => settings.any fun setting => setting.field.number = member.number
    apply (length_le_one_iff distinct).mp (single _ oneofMember)
    · exact (memSet listed first).mpr ⟨⟨firstMember, isMember⟩, firstSet⟩
    · exact (memSet listed second).mpr ⟨⟨secondMember, sameOneof ▸ isMember⟩, secondSet⟩
  · intro exclusive oneof oneofMember
    rcases List.mem_iff_getElem?.mp oneofMember with ⟨index, listed⟩
    apply (length_le_one_iff ((indexed.nodup_membersOf oneofMember).filter _)).mpr
    intro first firstMember second secondMember
    rcases (memSet listed first).mp firstMember with ⟨⟨firstField, firstOneof⟩, firstSet⟩
    rcases (memSet listed second).mp secondMember with ⟨⟨secondField, secondOneof⟩, secondSet⟩
    have inOneof : first.oneof.isSome = true := firstOneof ▸ rfl
    exact exclusive first firstField second secondField inOneof
      (firstOneof.trans secondOneof.symm) firstSet secondSet

/-! ## Members and settings -/

/-- The records that a value gives a field. -/
def valueRecords (pool : Pool) (field : Field) (value : Json.Value) : Encoded Bytes :=
  fieldRecords field (fun type => convert pool field.name type value)
    (fun type => convertElements pool field.name type value)
    (fun entry => convertMap pool field.name entry value)

/-- The members that show values of fields under some keys. -/
def membersUnder (key : Field → String) (shown : Field → Option Json.Value)
    (fields : List Field) : Json.Members :=
  fields.filterMap fun field => (shown field).map fun value => (key field, value)

/-- The members that show values of fields under the names of the schema. -/
def shownMembers (shown : Field → Option Json.Value) (fields : List Field) : Json.Members :=
  fields.filterMap fun field => (shown field).map fun value => (field.name, value)

/-- The settings for values of fields. -/
def shownSettings (pool : Pool) (shown : Field → Option Json.Value) (fields : List Field) :
    List Setting :=
  fields.filterMap fun field =>
    (shown field).map fun value => ⟨field, valueRecords pool field value⟩

/-- The fields that the members of an object set, with their values. -/
def givenFields (message : Message) (members : Json.Members) : List (Field × Json.Value) :=
  members.filterMap fun member =>
    if member.2.isNull then none
    else (message.fieldByName? member.1).map fun field => (field, member.2)

theorem mem_givenFields {message : Message} {members : Json.Members} {field : Field}
    {value : Json.Value} : (field, value) ∈ givenFields message members ↔ value.isNull = false ∧
      ∃ name, (name, value) ∈ members ∧ message.fieldByName? name = some field := by
  rw [givenFields, List.mem_filterMap]
  constructor
  · rintro ⟨member, there, same⟩
    split at same
    · cases same
    · rename_i notNull
      rcases Option.map_eq_some_iff.mp same with ⟨other, found, equal⟩
      cases equal
      exact ⟨Bool.eq_false_iff.mpr notNull, member.1, there, found⟩
  · rintro ⟨notNull, name, there, found⟩
    refine ⟨(name, value), there, ?_⟩
    rw [notNull, found]
    rfl

/-- There is one setting for each field that is set. -/
theorem settings_eq {pool : Pool} {message : Message} {earlier : List Nat}
    {members : Json.Members} {set : List Setting}
    (done : settings pool message earlier members = .ok set) :
    set = (givenFields message members).map fun given =>
      ⟨given.1, valueRecords pool given.1 given.2⟩ := by
  induction members generalizing earlier set with
  | nil =>
    cases done
    rfl
  | cons member rest inductionHypothesis =>
    rcases member with ⟨name, value⟩
    rw [givenFields, List.filterMap_cons]
    simp only [settings] at done
    split at done
    · cases done
    · rename_i field found
      split at done
      · rename_i isNull
        rw [if_pos isNull]
        exact inductionHypothesis done
      · rename_i notNull
        rw [if_neg notNull, found]
        split at done
        · cases done
        · split at done
          · cases done
          · rename_i others later
            cases done
            rw [inductionHypothesis later]
            rfl

/-- No two settings are for the same field. -/
theorem nodup_of_settings {pool : Pool} {message : Message} {earlier : List Nat}
    {members : Json.Members} {set : List Setting}
    (done : settings pool message earlier members = .ok set) :
    (set.map (·.field.number)).Nodup ∧ ∀ setting ∈ set, setting.field.number ∉ earlier := by
  induction members generalizing earlier set with
  | nil =>
    cases done
    exact ⟨List.nodup_nil, List.forall_mem_nil _⟩
  | cons member rest inductionHypothesis =>
    rcases member with ⟨name, value⟩
    simp only [settings] at done
    split at done
    · cases done
    · rename_i field found
      split at done
      · exact inductionHypothesis done
      · split at done
        · cases done
        · rename_i new
          split at done
          · cases done
          · rename_i others later
            cases done
            rcases inductionHypothesis later with ⟨distinct, fresh⟩
            refine ⟨List.nodup_cons.mpr ⟨fun again => ?_, distinct⟩,
              List.forall_mem_cons.mpr ⟨new, fun setting member before => ?_⟩⟩
            · rcases List.mem_map.mp again with ⟨setting, there, same⟩
              exact fresh setting there (same ▸ List.mem_cons_self)
            · exact fresh setting member (List.mem_cons_of_mem _ before)

/-- Settings come from members of the object. -/
theorem exists_member_of_settings {pool : Pool} {message : Message} {earlier : List Nat}
    {members : Json.Members} {set : List Setting}
    (done : settings pool message earlier members = .ok set) :
    ∀ setting ∈ set, ∃ name value, (name, value) ∈ members ∧
      message.fieldByName? name = some setting.field ∧ value.isNull = false ∧
      setting.records = valueRecords pool setting.field value := by
  intro setting member
  rw [settings_eq done] at member
  rcases List.mem_map.mp member with ⟨⟨field, value⟩, given, same⟩
  subst same
  rcases mem_givenFields.mp given with ⟨notNull, name, there, found⟩
  exact ⟨name, value, there, found, notNull, rfl⟩

/-- Members whose keys lead to their fields set these fields. -/
theorem settings_membersUnder {pool : Pool} {message : Message} (indexed : message.Indexed)
    {key : Field → String}
    (legible : ∀ field ∈ message.fields, message.fieldByName? (key field) = some field)
    {shown : Field → Option Json.Value} {fields : List Field}
    (among : ∀ field ∈ fields, field ∈ message.fields) (distinct : fields.Nodup)
    (notNull : ∀ field ∈ fields, ∀ value, shown field = some value → value.isNull = false)
    {earlier : List Nat} (new : ∀ field ∈ fields, field.number ∉ earlier) :
    settings pool message earlier (membersUnder key shown fields) =
      .ok (shownSettings pool shown fields) := by
  induction fields generalizing earlier with
  | nil => rfl
  | cons field rest inductionHypothesis =>
    have member := among field List.mem_cons_self
    have restAmong := fun other there => among other (List.mem_cons_of_mem _ there)
    have restNotNull := fun other there => notNull other (List.mem_cons_of_mem _ there)
    have restDistinct := (List.nodup_cons.mp distinct).2
    rw [membersUnder, shownSettings, List.filterMap_cons, List.filterMap_cons]
    cases isShown : shown field with
    | none =>
      exact inductionHypothesis restAmong restDistinct restNotNull
        fun other there => new other (List.mem_cons_of_mem _ there)
    | some value =>
      have restNew : ∀ other ∈ rest, other.number ∉ field.number :: earlier := by
        intro other there before
        rcases List.mem_cons.mp before with same | before
        · have equal := indexed.eq_of_number (restAmong other there) member same
          exact (List.nodup_cons.mp distinct).1 (equal ▸ there)
        · exact new other (List.mem_cons_of_mem _ there) before
      have later := inductionHypothesis restAmong restDistinct restNotNull restNew
      rw [membersUnder] at later
      simp only [Option.map_some, settings, legible field member,
        notNull field List.mem_cons_self value isShown, Bool.false_eq_true, if_false,
        if_neg (new field List.mem_cons_self), later]
      rfl

theorem mem_shownSettings {pool : Pool} {shown : Field → Option Json.Value}
    {fields : List Field} {setting : Setting} :
    setting ∈ shownSettings pool shown fields ↔ setting.field ∈ fields ∧
      ∃ value, shown setting.field = some value ∧
        setting.records = valueRecords pool setting.field value := by
  rw [shownSettings, List.mem_filterMap]
  constructor
  · rintro ⟨field, member, isShown⟩
    rcases Option.map_eq_some_iff.mp isShown with ⟨value, same, equal⟩
    subst equal
    exact ⟨member, value, same, rfl⟩
  · rintro ⟨member, value, same, records⟩
    refine ⟨setting.field, member, ?_⟩
    rw [same, Option.map_some, ← records]

theorem map_field_shownSettings (pool : Pool) (shown : Field → Option Json.Value)
    (fields : List Field) :
    (shownSettings pool shown fields).map (·.field) =
      fields.filter fun field => (shown field).isSome := by
  induction fields with
  | nil => rfl
  | cons field rest inductionHypothesis =>
    rw [shownSettings] at inductionHypothesis ⊢
    rw [List.filterMap_cons]
    cases isShown : shown field with
    | none => simp [isShown, inductionHypothesis]
    | some value => simp [isShown, inductionHypothesis]

/-! ## Objects -/

/-- The payload of an object with some members. -/
def encodeMembers (pool : Pool) (message : Message) (members : Json.Members) : Encoded Bytes := do
  let settings ← settings pool message [] members
  assemblePayload message settings

theorem encodeMembers_nil (pool : Pool) (message : Message) :
    encodeMembers pool message [] = .ok [] := by
  have none : ∀ oneof ∈ message.oneofs, (setMembers message [] oneof).length ≤ 1 := by
    intro oneof _
    simp [setMembers]
  have oneofs := (checkOneofs_eq_ok_iff message [] message.oneofs).mpr none
  simp only [encodeMembers, settings, assemblePayload, bind, Except.bind, oneofs]
  rfl

/-- An object with one member is encoded to the records of its field. -/
theorem encodeMembers_singleton {pool : Pool} {message : Message} (indexed : message.Indexed)
    {name : String} {field : Field} (found : message.fieldByName? name = some field)
    {value : Json.Value} (notNull : value.isNull = false) :
    encodeMembers pool message [(name, value)] = valueRecords pool field value := by
  have set : settings pool message [] [(name, value)] =
      .ok [⟨field, valueRecords pool field value⟩] := by
    simp only [settings, found, notNull, Bool.false_eq_true, if_false, List.not_mem_nil]
    rfl
  have oneofs : checkOneofs message [⟨field, valueRecords pool field value⟩] message.oneofs =
      .ok () := by
    apply (checkOneofs_iff_exclusive indexed _).mpr
    intro first firstMember second secondMember _ _ isFirst isSecond
    have number := (List.mem_singleton.mp isFirst).trans (List.mem_singleton.mp isSecond).symm
    exact indexed.eq_of_number firstMember secondMember number
  simp only [encodeMembers, set, assemblePayload, bind, Except.bind, oneofs, sortByNumber,
    List.foldr, insertByNumber, joinRecords]
  cases valueRecords pool field value with
  | error refusal => rfl
  | ok records => exact congrArg Except.ok (List.append_nil records)

theorem encode_object {pool : Pool} {name : String} {message : Message}
    (found : pool.findMessage? name = some message) (members : Json.Members) :
    encode pool name (.object members) = encodeMembers pool message members := by
  simp only [encode, found, encodeMembers]
  cases settings pool message [] members <;> rfl

theorem convert_object {pool : Pool} {id : MessageId} {message : Message}
    (found : pool.message? id = some message) (field : String) (members : Json.Members) :
    convert pool field (.message id) (.object members) =
      (encodeMembers pool message members).map .delimited := by
  simp only [convert, found, encodeMembers]
  cases settings pool message [] members <;> rfl

/-- An object that shows values of fields is encoded to what these values are written as. -/
theorem encodeMembers_membersUnder {pool : Pool} {message : Message} (indexed : message.Indexed)
    {key : Field → String}
    (legible : ∀ field ∈ message.fields, message.fieldByName? (key field) = some field)
    {shown : Field → Option Json.Value} {wires : Field → List Wire.Value}
    (written : ∀ field ∈ message.fields, ∀ value, shown field = some value →
      value.isNull = false ∧
        valueRecords pool field value = .ok (writtenValues field (wires field)))
    (absent : ∀ field ∈ message.fields, shown field = none → wires field = [])
    (exclusive : Exclusive message fun field => (shown field).isSome = true) :
    encodeMembers pool message (membersUnder key shown message.fields) =
      .ok (writtenFields message wires) := by
  have notNull : ∀ field ∈ message.fields, ∀ value, shown field = some value →
      value.isNull = false :=
    fun field member value isShown => (written field member value isShown).1
  have set : settings pool message [] (membersUnder key shown message.fields) =
      .ok (shownSettings pool shown message.fields) :=
    settings_membersUnder indexed legible (fun _ member => member) indexed.nodup notNull
      fun _ _ impossible => nomatch impossible
  have fields := map_field_shownSettings pool shown message.fields
  have mem (field : Field) : field ∈ (shownSettings pool shown message.fields).map (·.field) ↔
      field ∈ message.fields ∧ (shown field).isSome = true := by
    rw [fields, List.mem_filter]
  have oneofs : checkOneofs message (shownSettings pool shown message.fields) message.oneofs =
      .ok () := by
    apply (checkOneofs_iff_exclusive indexed _).mpr
    apply exclusive.imp
    intro field member isSet
    rcases List.mem_map.mp isSet with ⟨setting, there, same⟩
    have settingField := (mem setting.field).mp (List.mem_map_of_mem there)
    exact indexed.eq_of_number settingField.1 member same ▸ settingField.2
  have joined : joinRecords (sortByNumber (shownSettings pool shown message.fields)) =
      .ok (writtenFields message wires) := by
    apply joinRecords_eq_writtenFields indexed
    · intro setting member
      exact (mem_shownSettings.mp member).1
    · rw [fields]
      exact indexed.nodup.filter _
    · intro setting member
      rcases mem_shownSettings.mp member with ⟨there, value, isShown, records⟩
      exact records.trans (written setting.field there value isShown).2
    · intro field member notSet
      apply absent field member
      cases isShown : shown field with
      | none => rfl
      | some value => exact absurd ((mem field).mpr ⟨member, isShown ▸ rfl⟩) notSet
  simp only [encodeMembers, set, assemblePayload, bind, Except.bind, oneofs, joined]

theorem encodeMembers_shownMembers {pool : Pool} {message : Message} (indexed : message.Indexed)
    {shown : Field → Option Json.Value} {wires : Field → List Wire.Value}
    (written : ∀ field ∈ message.fields, ∀ value, shown field = some value →
      value.isNull = false ∧
        valueRecords pool field value = .ok (writtenValues field (wires field)))
    (absent : ∀ field ∈ message.fields, shown field = none → wires field = [])
    (exclusive : Exclusive message fun field => (shown field).isSome = true) :
    encodeMembers pool message (shownMembers shown message.fields) =
      .ok (writtenFields message wires) :=
  encodeMembers_membersUnder indexed (fun _ member => indexed.fieldByName?_of_mem member) written
    absent exclusive

/-- The values that settings come from, by field. -/
theorem exists_given_of_settings {pool : Pool} {message : Message} {members : Json.Members}
    {set : List Setting} (done : settings pool message [] members = .ok set) :
    ∃ given : Field → Option Json.Value,
      (∀ field, given field = none → field ∉ set.map (·.field)) ∧
      (∀ field value, given field = some value → ∃ setting ∈ set, setting.field = field ∧
        value.isNull = false ∧ setting.records = valueRecords pool field value ∧
        ∃ name, (name, value) ∈ members ∧ message.fieldByName? name = some field) ∧
      ∀ field value, (field, value) ∈ givenFields message members → given field = some value := by
  have distinct := (nodup_of_settings done).1
  have facts := exists_member_of_settings done
  have choice (field : Field) : ∃ value : Option Json.Value,
      (value = none → field ∉ set.map (·.field)) ∧
      ∀ held, value = some held → ∃ setting ∈ set, setting.field = field ∧
        held.isNull = false ∧ setting.records = valueRecords pool field held ∧
        ∃ name, (name, held) ∈ members ∧ message.fieldByName? name = some field := by
    by_cases isSet : field ∈ set.map (·.field)
    · rcases List.mem_map.mp isSet with ⟨setting, member, same⟩
      subst same
      rcases facts setting member with ⟨name, value, there, found, notNull, records⟩
      refine ⟨some value, fun impossible => (nomatch impossible), ?_⟩
      rintro held same
      cases same
      exact ⟨setting, member, rfl, notNull, records, name, there, found⟩
    · exact ⟨none, fun _ => isSet, fun _ impossible => nomatch impossible⟩
  choose given isNone isSome using choice
  refine ⟨given, isNone, isSome, fun field value member => ?_⟩
  have isSet : field ∈ set.map (·.field) := by
    rw [settings_eq done, List.map_map]
    exact List.mem_map.mpr ⟨(field, value), member, rfl⟩
  cases isGiven : given field with
  | none => exact absurd isSet (isNone field isGiven)
  | some other =>
    rcases isSome field other isGiven with ⟨_, _, _, notNull, _, named⟩
    rw [settings_eq done, List.map_map] at distinct
    have same : (field, other) = (field, value) := List.inj_on_of_nodup_map distinct
      (mem_givenFields.mpr ⟨notNull, named⟩) member rfl
    rw [(Prod.mk.inj same).2]

/-- An object with a payload gives values to fields, of every oneof to one at most, and the
payload is what these values are written as. -/
theorem exists_of_encodeMembers {pool : Pool} {message : Message} (indexed : message.Indexed)
    {members : Json.Members} {payload : Bytes}
    (encoded : encodeMembers pool message members = .ok payload) :
    ∃ given : Field → Option Json.Value,
      (∀ field value, given field = some value → field ∈ message.fields ∧ value.isNull = false ∧
        (∃ name, (name, value) ∈ members ∧ message.fieldByName? name = some field) ∧
        ∃ records, valueRecords pool field value = .ok records) ∧
      Exclusive message (fun field => (given field).isSome = true) ∧
      (∀ field value, (field, value) ∈ givenFields message members → given field = some value) ∧
      ∀ wires : Field → List Wire.Value,
        (∀ field value, given field = some value →
          valueRecords pool field value = .ok (writtenValues field (wires field))) →
        (∀ field, given field = none → wires field = []) →
        payload = writtenFields message wires := by
  rcases Outcome.bind_eq_ok_iff.mp encoded with ⟨set, done, assembled⟩
  rcases Outcome.bind_eq_ok_iff.mp assembled with ⟨_, oneofs, joined⟩
  have distinct := (nodup_of_settings done).1
  have facts := exists_member_of_settings done
  have among : ∀ setting ∈ set, setting.field ∈ message.fields := by
    intro setting member
    rcases facts setting member with ⟨name, value, _, found, _⟩
    exact mem_of_fieldByName? found
  have setOnce : ∀ first ∈ set, ∀ second ∈ set, first.field = second.field → first = second :=
    fun first firstMember second secondMember same =>
      List.inj_on_of_nodup_map distinct firstMember secondMember (congrArg Field.number same)
  rcases exists_given_of_settings done with ⟨given, isNone, isSome, every⟩
  refine ⟨given, ?_, ?_, every, ?_⟩
  · intro field value isGiven
    rcases isSome field value isGiven with ⟨setting, member, same, notNull, records, named⟩
    subst same
    rcases joinRecords_eq_ok joined setting (mem_sortByNumber.mpr member) with ⟨bytes, written⟩
    exact ⟨among setting member, notNull, named, bytes, records ▸ written⟩
  · apply ((checkOneofs_iff_exclusive indexed set).mp oneofs).imp
    intro field _ isGiven
    rcases Option.isSome_iff_exists.mp isGiven with ⟨value, held⟩
    rcases isSome field value held with ⟨setting, member, same, _⟩
    exact List.mem_map.mpr ⟨setting, member, congrArg Field.number same⟩
  · intro wires written absent
    have fieldsDistinct : (set.map (·.field)).Nodup := by
      apply List.Nodup.of_map Field.number
      rw [List.map_map]
      exact distinct
    have whole : joinRecords (sortByNumber set) = .ok (writtenFields message wires) := by
      apply joinRecords_eq_writtenFields indexed among fieldsDistinct
      · intro setting member
        cases isGiven : given setting.field with
        | none => exact absurd (List.mem_map_of_mem member) (isNone setting.field isGiven)
        | some value =>
          rcases isSome setting.field value isGiven with ⟨other, there, same, _, records, _⟩
          have equal := setOnce other there setting member same
          subst equal
          exact records.trans (written _ value isGiven)
      · intro field _ notSet
        apply absent field
        cases isGiven : given field with
        | none => rfl
        | some value =>
          rcases isSome field value isGiven with ⟨setting, member, same, _⟩
          exact absurd (List.mem_map.mpr ⟨setting, member, same⟩) notSet
    exact Except.ok.inj (joined.symm.trans whole)

end SchemaRecords.Payload
