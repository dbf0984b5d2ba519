import SchemaRecords.Proofs.Payload.WrittenFields

/-!
# Members in another order

The members of a message object may be listed in any order.  Its members are checked one after the
other, but none of the checks depends on which of them came first: every name must be known, no field
may be set twice and no two members of a oneof may be set.  The records are sorted, and the numbers
of the fields that are set are distinct, so there is only one way to sort them.

What is rearranged are the objects of messages.  The entries of a map object and the items of an
array stay where they are, but the message objects inside of them may be rearranged again.  Only the
result is the same: which refusal is reported does depend on the order of the members.
-/

namespace SchemaRecords.Payload

open SchemaRecords.Schema

/-! ## Rearranged documents -/

/-- One message object of a document of a message lists its members in another order. -/
inductive Rearranged (pool : Pool) : Message → Json.Value → Json.Value → Prop
  | here {message : Message} {members others : Json.Members} (permuted : members.Perm others) :
      Rearranged pool message (.object members) (.object others)
  | single {message next : Message} {field : Field} {id : MessageId} {explicit : Bool}
      {name : String} {inner other : Json.Value} (before after : Json.Members)
      (named : message.fieldByName? name = some field)
      (shape : field.shape = .singular (.message id) explicit)
      (found : pool.message? id = some next) (inside : Rearranged pool next inner other) :
      Rearranged pool message (.object (before ++ (name, inner) :: after))
        (.object (before ++ (name, other) :: after))
  | item {message next : Message} {field : Field} {id : MessageId} {packed : Bool}
      {name : String} {inner other : Json.Value} (before after : Json.Members)
      (front back : List Json.Value) (named : message.fieldByName? name = some field)
      (shape : field.shape = .repeated (.message id) packed)
      (found : pool.message? id = some next) (inside : Rearranged pool next inner other) :
      Rearranged pool message (.object (before ++ (name, .array (front ++ inner :: back)) :: after))
        (.object (before ++ (name, .array (front ++ other :: back)) :: after))
  | value {message entry next : Message} {field keyField valueField : Field} {id nextId : MessageId}
      {name key : String} {inner other : Json.Value} (before after front back : Json.Members)
      (named : message.fieldByName? name = some field) (shape : field.shape = .map id)
      (entryFound : pool.message? id = some entry) (fields : entry.fields = [keyField, valueField])
      (type : valueField.type = .message nextId) (found : pool.message? nextId = some next)
      (inside : Rearranged pool next inner other) :
      Rearranged pool message
        (.object (before ++ (name, .object (front ++ (key, inner) :: back)) :: after))
        (.object (before ++ (name, .object (front ++ (key, other) :: back)) :: after))

variable {pool : Pool} {message : Message} {field : Field}

theorem Rearranged.symm {document other : Json.Value}
    (rearranged : Rearranged pool message document other) :
    Rearranged pool message other document := by
  induction rearranged with
  | here permuted => exact .here permuted.symm
  | single before after named shape found _ inductionHypothesis =>
    exact .single before after named shape found inductionHypothesis
  | item before after front back named shape found _ inductionHypothesis =>
    exact .item before after front back named shape found inductionHypothesis
  | value before after front back named shape entryFound fields type found _ inductionHypothesis =>
    exact .value before after front back named shape entryFound fields type found
      inductionHypothesis

theorem Rearranged.objects {document other : Json.Value}
    (rearranged : Rearranged pool message document other) :
    ∃ members others, document = .object members ∧ other = .object others := by
  cases rearranged <;> exact ⟨_, _, rfl, rfl⟩

theorem Rearranged.notNull {document other : Json.Value}
    (rearranged : Rearranged pool message document other) : document.isNull = false := by
  rcases rearranged.objects with ⟨members, _, rfl, _⟩
  rfl

/-! ## Permuted members -/

/-- A member that sets a new field is in front of what the other members set. -/
theorem settings_cons {name : String} (named : message.fieldByName? name = some field)
    {value : Json.Value} (notNull : value.isNull = false) {earlier : List Nat}
    (new : field.number ∉ earlier) (rest : Json.Members) :
    settings pool message earlier ((name, value) :: rest) =
      (settings pool message (field.number :: earlier) rest).map
        (⟨field, valueRecords pool field value⟩ :: ·) := by
  simp only [settings, named, notNull, Bool.false_eq_true, if_false, if_neg new]
  cases settings pool message (field.number :: earlier) rest <;> rfl

/-- The members of an object are all accepted exactly if their names are known and the fields that
they set are distinct and new. -/
theorem settings_eq_ok_iff {earlier : List Nat} {members : Json.Members} :
    (∃ set, settings pool message earlier members = .ok set) ↔
      (∀ member ∈ members, (message.fieldByName? member.1).isSome = true) ∧
        ((givenFields message members).map (·.1.number)).Nodup ∧
          ∀ given ∈ givenFields message members, given.1.number ∉ earlier := by
  induction members generalizing earlier with
  | nil => simp [settings, givenFields]
  | cons member rest inductionHypothesis =>
    rcases member with ⟨name, value⟩
    rw [List.forall_mem_cons, givenFields, List.filterMap_cons, ← givenFields]
    cases found : message.fieldByName? name with
    | none => simp [settings, found]
    | some field =>
      cases isNull : value.isNull with
      | true =>
        simp only [settings, found, isNull, if_true, Option.isSome_some, true_and]
        exact inductionHypothesis
      | false =>
        simp only [Bool.false_eq_true, if_false, Option.map_some, Option.isSome_some, true_and,
          List.map_cons, List.nodup_cons, List.forall_mem_cons]
        by_cases again : field.number ∈ earlier
        · simp [settings, found, isNull, again]
        · have front : (∃ set, settings pool message earlier ((name, value) :: rest) = .ok set) ↔
              ∃ set, settings pool message (field.number :: earlier) rest = .ok set := by
            rw [settings_cons found isNull again]
            exact Outcome.exists_map_eq_ok_iff
          rw [front, inductionHypothesis]
          simp only [List.mem_cons, not_or, List.mem_map, not_exists, not_and]
          constructor
          · rintro ⟨known, distinct, new⟩
            exact ⟨known, ⟨fun given there => (new given there).1, distinct⟩, again,
              fun given there => (new given there).2⟩
          · rintro ⟨known, ⟨notHere, distinct⟩, _, new⟩
            exact ⟨known, distinct, fun given there => ⟨notHere given there, new given there⟩⟩

theorem settings_perm {members others : Json.Members} (permuted : members.Perm others)
    {set : List Setting} (done : settings pool message [] members = .ok set) :
    ∃ otherSet, settings pool message [] others = .ok otherSet ∧ set.Perm otherSet := by
  have given : (givenFields message members).Perm (givenFields message others) :=
    permuted.filterMap _
  rcases settings_eq_ok_iff.mp ⟨set, done⟩ with ⟨known, distinct, new⟩
  have accepted : ∃ otherSet, settings pool message [] others = .ok otherSet :=
    settings_eq_ok_iff.mpr ⟨fun member there => known member (permuted.mem_iff.mpr there),
      (given.map _).nodup_iff.mp distinct,
      fun field there => new field (given.mem_iff.mpr there)⟩
  rcases accepted with ⟨otherSet, otherDone⟩
  refine ⟨otherSet, otherDone, ?_⟩
  rw [settings_eq done, settings_eq otherDone]
  exact given.map _

/-- The check of the oneofs only looks at which fields are set. -/
theorem checkOneofs_congr {set others : List Setting}
    (same : ∀ number, number ∈ set.map (·.field.number) ↔ number ∈ others.map (·.field.number))
    (oneofs : List Oneof) : checkOneofs message set oneofs = checkOneofs message others oneofs := by
  have members (oneof : Oneof) : setMembers message set oneof = setMembers message others oneof := by
    apply List.filter_congr
    intro member _
    rw [Bool.eq_iff_iff]
    simpa only [List.any_eq_true, decide_eq_true_eq, List.mem_map] using same member.number
  induction oneofs with
  | nil => rfl
  | cons oneof rest inductionHypothesis =>
    simp only [checkOneofs, members, inductionHypothesis]

/-- Settings of distinct numbers can be sorted in one way only. -/
theorem sortByNumber_perm {set others : List Setting} (permuted : set.Perm others)
    (distinct : (set.map (·.field.number)).Nodup) : sortByNumber set = sortByNumber others := by
  have sorted (list : List Setting) : (sortByNumber list).Pairwise
      fun first second => first.field.number ≤ second.field.number := by
    rw [sortByNumber_eq]
    have : Std.Total fun first second : Setting => first.field.number ≤ second.field.number :=
      ⟨fun first second => Nat.le_total _ _⟩
    have : IsTrans Setting fun first second => first.field.number ≤ second.field.number :=
      ⟨fun _ _ _ => Nat.le_trans⟩
    exact List.pairwise_insertionSort _ list
  have whole (list : List Setting) : (sortByNumber list).Perm list := by
    rw [sortByNumber_eq]
    exact List.perm_insertionSort _ list
  refine List.Perm.eq_of_pairwise ?_ (sorted set) (sorted others)
    (((whole set).trans permuted).trans (whole others).symm)
  intro first second firstMember secondMember least greatest
  exact List.inj_on_of_nodup_map distinct (mem_sortByNumber.mp firstMember)
    (permuted.mem_iff.mpr (mem_sortByNumber.mp secondMember)) (Nat.le_antisymm least greatest)

/-- An object may list its members in any order. -/
theorem encodeMembers_perm {members others : Json.Members} (permuted : members.Perm others)
    {payload : Bytes} (encoded : encodeMembers pool message members = .ok payload) :
    encodeMembers pool message others = .ok payload := by
  rcases Outcome.bind_eq_ok_iff.mp encoded with ⟨set, done, assembled⟩
  rcases settings_perm permuted done with ⟨otherSet, otherDone, same⟩
  have numbers (number : Nat) := (same.map (·.field.number)).mem_iff (a := number)
  refine Outcome.bind_eq_ok_iff.mpr ⟨otherSet, otherDone, ?_⟩
  rw [assemblePayload, ← checkOneofs_congr numbers,
    ← sortByNumber_perm same (nodup_of_settings done).1]
  exact assembled

/-! ## A member with another value -/

/-- Settings of the same field, of which the second has the records of the first. -/
structure SettingFollows (setting other : Setting) : Prop where
  field : setting.field = other.field
  records : Outcome.Follows Eq setting.records other.records

theorem SettingFollows.refl (setting : Setting) : SettingFollows setting setting :=
  ⟨rfl, .refl _⟩

theorem settings_replace {name : String} (named : message.fieldByName? name = some field)
    {value other : Json.Value} (notNull : value.isNull = false) (otherNotNull : other.isNull = false)
    (follows : Outcome.Follows Eq (valueRecords pool field value) (valueRecords pool field other))
    (before after : Json.Members) (earlier : List Nat) :
    Outcome.Follows (List.Forall₂ SettingFollows)
      (settings pool message earlier (before ++ (name, value) :: after))
      (settings pool message earlier (before ++ (name, other) :: after)) := by
  induction before generalizing earlier with
  | nil =>
    simp only [List.nil_append, settings, named, notNull, otherNotNull, Bool.false_eq_true, if_false]
    split
    · exact .error _
    · cases settings pool message (field.number :: earlier) after with
      | error refusal => exact .error refusal
      | ok others =>
        exact .ok (.cons ⟨rfl, follows⟩ (List.forall₂_same.mpr fun setting _ => .refl setting))
  | cons member rest inductionHypothesis =>
    rcases member with ⟨first, firstValue⟩
    simp only [List.cons_append, settings]
    cases message.fieldByName? first with
    | none => exact .error _
    | some firstField =>
      simp only
      split
      · exact inductionHypothesis earlier
      · split
        · exact .error _
        · intro set run
          split at run
          · cases run
          · rename_i later done
            rcases inductionHypothesis _ later done with ⟨others, otherDone, each⟩
            cases run
            rw [otherDone]
            exact ⟨_, rfl, .cons (.refl _) each⟩

theorem sortByNumber_follows {set others : List Setting}
    (each : List.Forall₂ SettingFollows set others) :
    List.Forall₂ SettingFollows (sortByNumber set) (sortByNumber others) := by
  have insert {setting other : Setting} (first : SettingFollows setting other)
      {set others : List Setting} (each : List.Forall₂ SettingFollows set others) :
      List.Forall₂ SettingFollows (insertByNumber setting set) (insertByNumber other others) := by
    induction each with
    | nil => exact .cons first .nil
    | cons here later inductionHypothesis =>
      rw [insertByNumber, insertByNumber, first.field, here.field]
      split
      · exact .cons first (.cons here later)
      · exact .cons here inductionHypothesis
  induction each with
  | nil => exact .nil
  | cons first _ inductionHypothesis => exact insert first inductionHypothesis

theorem joinRecords_follows {set others : List Setting}
    (each : List.Forall₂ SettingFollows set others) :
    Outcome.Follows Eq (joinRecords set) (joinRecords others) := by
  induction each with
  | nil => exact .refl _
  | cons first _ inductionHypothesis =>
    intro payload run
    simp only [joinRecords] at run
    split at run
    · cases run
    · rename_i records written
      split at run
      · cases run
      · rename_i rest joined
        rcases first.records records written with ⟨_, otherWritten, rfl⟩
        rcases inductionHypothesis rest joined with ⟨_, otherJoined, rfl⟩
        cases run
        exact ⟨_, by simp only [joinRecords, otherWritten, otherJoined], rfl⟩

theorem assemblePayload_follows {set others : List Setting}
    (each : List.Forall₂ SettingFollows set others) :
    Outcome.Follows Eq (assemblePayload message set) (assemblePayload message others) := by
  have fields : set.map (·.field.number) = others.map (·.field.number) := by
    induction each with
    | nil => rfl
    | cons first _ inductionHypothesis =>
      rw [List.map_cons, List.map_cons, inductionHypothesis, first.field]
  have oneofs : checkOneofs message set message.oneofs =
      checkOneofs message others message.oneofs :=
    checkOneofs_congr (fun number => by rw [fields]) message.oneofs
  rw [assemblePayload, assemblePayload, oneofs]
  exact (Outcome.Follows.refl _).bind fun _ _ _ =>
    joinRecords_follows (sortByNumber_follows each)

/-- The value of a member may be replaced by one with the same records. -/
theorem encodeMembers_replace {name : String} (named : message.fieldByName? name = some field)
    {value other : Json.Value} (notNull : value.isNull = false) (otherNotNull : other.isNull = false)
    (follows : Outcome.Follows Eq (valueRecords pool field value) (valueRecords pool field other))
    (before after : Json.Members) :
    Outcome.Follows Eq (encodeMembers pool message (before ++ (name, value) :: after))
      (encodeMembers pool message (before ++ (name, other) :: after)) :=
  (settings_replace named notNull otherNotNull follows before after []).bind
    fun _ _ each => assemblePayload_follows each

/-! ## A message inside a value -/

theorem convertItems_replace {name : String} {type : ValueType} {inner other : Json.Value}
    (notNull : inner.isNull = false) (otherNotNull : other.isNull = false)
    (follows : Outcome.Follows Eq (convert pool name type inner) (convert pool name type other))
    (front back : List Json.Value) :
    Outcome.Follows Eq (convertItems pool name type (front ++ inner :: back))
      (convertItems pool name type (front ++ other :: back)) := by
  induction front with
  | nil =>
    intro values run
    simp only [List.nil_append, convertItems, notNull, Bool.false_eq_true, if_false] at run
    split at run
    · cases run
    · rename_i value converted
      rcases follows value converted with ⟨_, otherConverted, rfl⟩
      refine ⟨values, ?_, rfl⟩
      simp only [List.nil_append, convertItems, otherNotNull, Bool.false_eq_true, if_false,
        otherConverted]
      exact run
  | cons first rest inductionHypothesis =>
    intro values run
    simp only [List.cons_append, convertItems] at run ⊢
    split at run
    · cases run
    · split at run
      · cases run
      · rename_i later converted
        rcases inductionHypothesis later converted with ⟨_, otherConverted, rfl⟩
        rw [otherConverted]
        exact ⟨values, run, rfl⟩

theorem convertEntries_replace {keyField valueField : Field} {key : String}
    {inner other : Json.Value} (notNull : inner.isNull = false) (otherNotNull : other.isNull = false)
    (follows : Outcome.Follows Eq (convert pool valueField.name valueField.type inner)
      (convert pool valueField.name valueField.type other))
    (front back : Json.Members) :
    Outcome.Follows Eq (convertEntries pool keyField valueField (front ++ (key, inner) :: back))
      (convertEntries pool keyField valueField (front ++ (key, other) :: back)) := by
  induction front with
  | nil =>
    intro contents run
    simp only [List.nil_append, convertEntries, notNull, otherNotNull, Bool.false_eq_true,
      if_false] at run ⊢
    split at run
    · cases run
    · split at run
      · cases run
      · rename_i second converted
        rcases follows second converted with ⟨_, otherConverted, rfl⟩
        rw [otherConverted]
        exact ⟨contents, run, rfl⟩
  | cons first rest inductionHypothesis =>
    rcases first with ⟨firstKey, firstItem⟩
    intro contents run
    simp only [List.cons_append, convertEntries] at run ⊢
    split at run
    · cases run
    · split at run
      · cases run
      · split at run
        · cases run
        · rename_i later converted
          rcases inductionHypothesis later converted with ⟨_, otherConverted, rfl⟩
          rw [otherConverted]
          exact ⟨contents, run, rfl⟩

/-! ## Rearranged documents have the same payload -/

theorem Rearranged.follows {document other : Json.Value}
    (rearranged : Rearranged pool message document other) :
    ∀ members others, document = .object members → other = .object others →
      Outcome.Follows Eq (encodeMembers pool message members)
        (encodeMembers pool message others) := by
  -- The type of the inner value is a message, so it is converted as the inner object is encoded.
  have converted {next : Message} {id : MessageId} (found : pool.message? id = some next)
      {inner other : Json.Value} (inside : Rearranged pool next inner other)
      (same : ∀ members others, inner = .object members → other = .object others →
        Outcome.Follows Eq (encodeMembers pool next members) (encodeMembers pool next others))
      (name : String) : Outcome.Follows Eq (convert pool name (.message id) inner)
        (convert pool name (.message id) other) := by
    rcases inside.objects with ⟨members, others, rfl, rfl⟩
    rw [convert_object found, convert_object found]
    exact (same members others rfl rfl).map fun _ _ equal => congrArg _ equal
  induction rearranged with
  | here permuted =>
    rintro _ _ ⟨⟩ ⟨⟩ payload encoded
    exact ⟨payload, encodeMembers_perm permuted encoded, rfl⟩
  | single before after named shape found inside inductionHypothesis =>
    rintro _ _ ⟨⟩ ⟨⟩
    apply encodeMembers_replace named inside.notNull inside.symm.notNull
    simp only [valueRecords, fieldRecords, shape, singleRecord]
    exact (converted found inside inductionHypothesis _).map fun _ _ equal => equal ▸ rfl
  | item before after front back named shape found inside inductionHypothesis =>
    rintro _ _ ⟨⟩ ⟨⟩
    apply encodeMembers_replace named rfl rfl
    simp only [valueRecords, fieldRecords, shape, repeatedRecords, convertElements]
    exact (convertItems_replace inside.notNull inside.symm.notNull
      (converted found inside inductionHypothesis _) front back).map fun _ _ equal => equal ▸ rfl
  | value before after front back named shape entryFound fields type found inside
      inductionHypothesis =>
    rintro _ _ ⟨⟩ ⟨⟩
    apply encodeMembers_replace named rfl rfl
    simp only [valueRecords, fieldRecords, shape, entryRecords, convertMap, entryFound, fields]
    exact (convertEntries_replace inside.notNull inside.symm.notNull
      (type ▸ converted found inside inductionHypothesis _) front back).map
        fun _ _ equal => equal ▸ rfl

theorem follows_of_reflTransGen {name : String} (found : pool.findMessage? name = some message)
    {document other : Json.Value}
    (rearranged : Relation.ReflTransGen (Rearranged pool message) document other) :
    Outcome.Follows Eq (encode pool name document) (encode pool name other) := by
  induction rearranged with
  | refl => exact .refl _
  | tail _ last inductionHypothesis =>
    rcases last.objects with ⟨members, others, rfl, rfl⟩
    have step := last.follows members others rfl rfl
    rw [← encode_object found, ← encode_object found] at step
    exact inductionHypothesis.trans step

/-- Documents of a message that only differ in the order of members have the same payload, if they
have any. -/
theorem toOption_encode_eq_of_reflTransGen {name : String}
    (found : pool.findMessage? name = some message) {document other : Json.Value}
    (rearranged : Relation.ReflTransGen (Rearranged pool message) document other) :
    (encode pool name document).toOption = (encode pool name other).toOption := by
  have back : Relation.ReflTransGen (Rearranged pool message) other document :=
    Relation.ReflTransGen.mono (fun _ _ step => Rearranged.symm step) _ _ rearranged.swap
  exact (follows_of_reflTransGen found rearranged).toOption_eq (follows_of_reflTransGen found back)

end SchemaRecords.Payload
