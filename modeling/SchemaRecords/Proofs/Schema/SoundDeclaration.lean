import SchemaRecords.Schema.Declaration.Reader

/-!
# What every declaration that is read satisfies

Linking relies on some rules that it does not check itself, because the parser has
already refused every text that breaks them: the key of a map is of a type that may key
one, a member of a oneof belongs to a oneof of its message and holds a single value, and
the numbers of an enumeration fit into 32 bits.

A parser is judged by its results alone.  `Ensures` says that whatever a parser returns,
from whatever tokens, satisfies a property; the rules below follow the way in which
parsers are put together, so that a parser for a part never has to be opened twice.
-/

namespace SchemaRecords.Schema

/-! ## Sound declarations -/

/-- The rules for a field in a message with some number of oneofs. -/
structure FieldDecl.Sound (oneofs : Nat) (decl : FieldDecl) : Prop where
  mapKey : ∀ key value, decl.type = .map key value → key.isMapKey = true
  oneofInRange : ∀ oneof, decl.oneof = some oneof → oneof < oneofs
  oneofSingle : decl.oneof.isSome = true →
    decl.label = .unlabelled ∧ ∃ type, decl.type = .single type

/-- The rules for an enumeration. -/
def EnumDecl.Sound (decl : EnumDecl) : Prop :=
  ∀ value ∈ decl.values, Parser.isInt32 value.number = true

/-- The rules for a message and everything inside of it. -/
inductive MessageDecl.Sound : MessageDecl → Prop where
  | intro {decl : MessageDecl}
      (fields : ∀ field ∈ decl.fields, field.Sound decl.oneofs.length)
      (enums : ∀ enum ∈ decl.enums, enum.Sound)
      (messages : ∀ message ∈ decl.messages, MessageDecl.Sound message) :
      MessageDecl.Sound decl

namespace MessageDecl.Sound

variable {decl : MessageDecl}

theorem fields (sound : decl.Sound) : ∀ field ∈ decl.fields, field.Sound decl.oneofs.length := by
  cases sound
  assumption

theorem enums (sound : decl.Sound) : ∀ enum ∈ decl.enums, enum.Sound := by
  cases sound
  assumption

theorem messages (sound : decl.Sound) : ∀ message ∈ decl.messages, message.Sound := by
  cases sound
  assumption

theorem addField (sound : decl.Sound) {field : FieldDecl}
    (fieldSound : field.Sound decl.oneofs.length) :
    MessageDecl.Sound { decl with fields := decl.fields ++ [field] } := by
  refine .intro (fun other member => ?_) sound.enums sound.messages
  rcases List.mem_append.mp member with old | new
  · exact sound.fields other old
  · exact List.mem_singleton.mp new ▸ fieldSound

theorem addEnum (sound : decl.Sound) {enum : EnumDecl} (enumSound : enum.Sound) :
    MessageDecl.Sound { decl with enums := decl.enums ++ [enum] } := by
  refine .intro sound.fields (fun other member => ?_) sound.messages
  rcases List.mem_append.mp member with old | new
  · exact sound.enums other old
  · exact List.mem_singleton.mp new ▸ enumSound

theorem addMessage (sound : decl.Sound) {message : MessageDecl} (messageSound : message.Sound) :
    MessageDecl.Sound { decl with messages := decl.messages ++ [message] } := by
  refine .intro sound.fields sound.enums (fun other member => ?_)
  rcases List.mem_append.mp member with old | new
  · exact sound.messages other old
  · exact List.mem_singleton.mp new ▸ messageSound

/-- A further oneof leaves every field where it is. -/
theorem addOneof (sound : decl.Sound) (name : String) :
    MessageDecl.Sound { decl with oneofs := decl.oneofs ++ [name] } := by
  refine .intro (fun field member => ?_) sound.enums sound.messages
  have old := sound.fields field member
  refine ⟨old.mapKey, fun oneof present => ?_, old.oneofSingle⟩
  have inRange := old.oneofInRange oneof present
  simp only [List.length_append, List.length_singleton]
  omega

end MessageDecl.Sound

/-- The rules for a text. -/
structure FileDecl.Sound (file : FileDecl) : Prop where
  messages : ∀ message ∈ file.messages, message.Sound
  enums : ∀ enum ∈ file.enums, enum.Sound

/-! ## Judging parsers by their results -/

namespace Parser

/-- Whatever a parser returns satisfies a property. -/
def Ensures {α : Type} (parser : Parser α) (post : α → Prop) : Prop :=
  ∀ tokens value rest, parser tokens = .ok (value, rest) → post value

section Rules

variable {α β : Type} {post : α → Prop} {result : β → Prop}

theorem ensures_true (parser : Parser α) : Ensures parser fun _ => True :=
  fun _ _ _ _ => trivial

theorem ensures_pure {value : α} (holds : post value) : Ensures (pure value) post := by
  intro tokens returned rest read
  cases read
  exact holds

theorem Ensures.bind {first : Parser α} {next : α → Parser β} (firstEnsures : Ensures first post)
    (nextEnsures : ∀ value, post value → Ensures (next value) result) :
    Ensures (first >>= next) result := by
  intro tokens value rest read
  rcases bind_eq_ok_iff.mp read with ⟨middle, left, step, read⟩
  exact nextEnsures middle (firstEnsures tokens middle left step) left value rest read

/-- A part whose result does not matter. -/
theorem ensures_bind {first : Parser α} {next : α → Parser β}
    (nextEnsures : ∀ value, Ensures (next value) result) : Ensures (first >>= next) result :=
  (ensures_true first).bind fun value _ => nextEnsures value

theorem ensures_failAtEnd (expected : Expected) : Ensures (failAtEnd expected) post := by
  intro tokens value rest read
  cases read

theorem ensures_failAt (tokens : List Token) (cause : GrammarCause) :
    Ensures (failAt tokens cause) post := by
  intro tokens value rest read
  cases read

theorem ensures_failFirst (expected : Expected) : Ensures (failFirst expected) post := by
  intro tokens value rest read
  unfold failFirst at read
  split at read <;> cases read

theorem ensures_rounds {loop : Nat → Parser α} (each : ∀ count, Ensures (loop count) post) :
    Ensures (rounds loop) post :=
  fun tokens => each tokens.length tokens

/-- What every item of a block preserves holds behind the block. -/
theorem ensures_blockItems {expected : Expected} {item : α → Parser α}
    (step : ∀ state, post state → Ensures (item state) post) (count : Nat) :
    ∀ state, post state → Ensures (blockItems expected item count state) post := by
  induction count with
  | zero => exact fun _ _ => ensures_failAtEnd expected
  | succ count inductionHypothesis =>
    intro state holds tokens value rest read
    unfold blockItems at read
    split at read
    · exact ensures_failAtEnd expected _ _ _ read
    · cases read
      exact holds
    · exact inductionHypothesis state holds _ _ _ read
    · exact (step state holds).bind inductionHypothesis _ _ _ read

theorem ensures_block {expected : Expected} {item : α → Parser α} {state : α}
    (start : post state) (step : ∀ state, post state → Ensures (item state) post) :
    Ensures (block expected item state) post :=
  ensures_bind fun _ => ensures_rounds fun count => ensures_blockItems step count state start

end Rules

/-! ## Fields -/

/-- The keys of the map types that are read may key a map. -/
def LegalType (type : FieldType) : Prop :=
  ∀ key value, type = .map key value → key.isMapKey = true

theorem ensures_typeReference_single :
    Ensures (do return FieldType.single (← typeReference)) LegalType :=
  ensures_bind fun _ => ensures_pure fun _ _ impossible => nomatch impossible

theorem ensures_mapType : Ensures mapType LegalType := by
  apply ensures_bind
  intro _
  apply ensures_bind
  intro tokens
  split
  · exact ensures_failAtEnd _
  · apply ensures_bind
    intro name
    split
    · exact ensures_failAt _ _
    · rename_i key found
      apply ensures_bind
      intro _
      apply ensures_bind
      intro value
      apply ensures_bind
      intro _
      apply ensures_pure
      intro other otherValue same
      cases same
      exact (Option.filter_eq_some_iff.mp found).2

theorem ensures_fieldType (label : Label) : Ensures (fieldType label) LegalType := by
  intro tokens value rest read
  unfold fieldType at read
  split at read
  · exact ensures_failAtEnd _ _ _ _ read
  · split at read
    · exact ensures_mapType _ _ _ read
    · exact ensures_failAt _ _ _ _ _ read
  · exact ensures_failAt _ _ _ _ _ read
  · exact ensures_typeReference_single _ _ _ read

/-- A field carries the label and the oneof that it is read for. -/
theorem ensures_field (label : Label) (oneof : Option Nat) (place : Nat) :
    Ensures (field label oneof place) fun decl =>
      LegalType decl.type ∧ decl.label = label ∧ decl.oneof = oneof :=
  (ensures_fieldType label).bind fun _ legal =>
    ensures_bind fun _ => ensures_bind fun _ => ensures_bind fun _ => ensures_bind fun _ =>
      ensures_bind fun _ => ensures_pure ⟨legal, rfl, rfl⟩

/-- A field outside of any oneof. -/
theorem ensures_field_plain (label : Label) (place count : Nat) :
    Ensures (field label none place) (FieldDecl.Sound count) := by
  intro tokens decl rest read
  rcases ensures_field label none place tokens decl rest read with ⟨legal, _, noOneof⟩
  refine ⟨legal, fun oneof present => ?_, fun present => ?_⟩
  · rw [noOneof] at present
    cases present
  · rw [noOneof] at present
    cases present

/-! ## Enumerations -/

theorem ensures_enumNumber : Ensures enumNumber fun number => isInt32 number = true := by
  apply ensures_bind
  intro negative
  apply ensures_bind
  intro tokens
  apply ensures_bind
  intro magnitude
  by_cases small : isInt32 (if negative then -(magnitude : Int) else magnitude) = true
  · rw [if_pos small]
    exact ensures_pure small
  · rw [if_neg small]
    exact ensures_failAt _ _

theorem ensures_enumMember (decl : EnumDecl) (sound : decl.Sound) :
    Ensures (enumMember decl) EnumDecl.Sound := by
  intro tokens value rest read
  unfold enumMember at read
  split at read
  · rename_i word rest
    split at read
    · exact (ensures_bind fun _ => ensures_pure sound) _ _ _ read
    · split at read
      · exact (ensures_bind fun _ => ensures_pure sound) _ _ _ read
      · refine (ensures_bind fun _ => ensures_enumNumber.bind fun number small =>
          ensures_bind fun _ => ensures_bind fun _ => ensures_pure ?_) _ _ _ read
        intro other member
        rcases List.mem_append.mp member with old | new
        · exact sound other old
        · exact List.mem_singleton.mp new ▸ small
  · exact ensures_failFirst _ _ _ _ read

theorem ensures_enumeration : Ensures enumeration EnumDecl.Sound :=
  ensures_bind fun _ =>
    ensures_block (fun _ member => nomatch member) fun decl sound => ensures_enumMember decl sound

/-! ## Messages -/

/-- A sound message that has a oneof at some position. -/
def SoundWithOneof (index : Nat) (decl : MessageDecl) : Prop :=
  decl.Sound ∧ index < decl.oneofs.length

theorem ensures_oneofMember (index : Nat) (decl : MessageDecl) (holds : SoundWithOneof index decl) :
    Ensures (oneofMember index decl) (SoundWithOneof index) := by
  intro tokens value rest read
  unfold oneofMember at read
  split at read
  · split at read
    · exact (ensures_bind fun _ => ensures_pure holds) _ _ _ read
    · split at read
      · exact ensures_failAt _ _ _ _ _ read
      · refine ((ensures_field .unlabelled (some index) _).bind fun member facts => ?_) _ _ _ read
        rcases facts with ⟨legal, unlabelled, inOneof⟩
        split
        · exact ensures_failAt _ _
        · rename_i type single
          refine ensures_pure ⟨holds.1.addField ⟨legal, fun oneof present => ?_, fun _ => ?_⟩, holds.2⟩
          · rw [inOneof] at present
            cases present
            exact holds.2
          · exact ⟨unlabelled, type, single⟩
  · exact ensures_failFirst _ _ _ _ read

theorem ensures_oneof (decl : MessageDecl) (sound : decl.Sound) :
    Ensures (oneof decl) MessageDecl.Sound := by
  apply ensures_bind
  intro name
  have start : SoundWithOneof decl.oneofs.length { decl with oneofs := decl.oneofs ++ [name] } := by
    refine ⟨sound.addOneof name, ?_⟩
    simp only [List.length_append, List.length_singleton]
    omega
  have whole : Ensures (block .oneofMember (oneofMember decl.oneofs.length) _) _ :=
    ensures_block start (ensures_oneofMember decl.oneofs.length)
  exact fun tokens value rest read => (whole tokens value rest read).1

theorem ensures_messageMember {inner : Nat → Parser MessageDecl}
    (innerEnsures : ∀ place, Ensures (inner place) MessageDecl.Sound) (decl : MessageDecl)
    (sound : decl.Sound) : Ensures (messageMember inner decl) MessageDecl.Sound := by
  have kept {α : Type} (skipped : Parser α) :
      Ensures (skipped >>= fun _ => pure decl) MessageDecl.Sound :=
    ensures_bind fun _ => ensures_pure sound
  intro tokens value rest read
  unfold messageMember at read
  split at read
  · split at read
    · exact ((innerEnsures _).bind fun message messageSound =>
        ensures_pure (sound.addMessage messageSound)) _ _ _ read
    split at read
    · exact (ensures_enumeration.bind fun enum enumSound =>
        ensures_pure (sound.addEnum enumSound)) _ _ _ read
    split at read
    · exact ensures_oneof decl sound _ _ _ read
    split at read
    · exact kept _ _ _ _ read
    split at read
    · exact kept _ _ _ _ read
    split at read
    · exact (ensures_bind fun _ => kept _) _ _ _ read
    split at read
    · exact ((ensures_field_plain _ _ _).bind fun field fieldSound =>
        ensures_pure (sound.addField fieldSound)) _ _ _ read
    · exact ((ensures_field_plain _ _ _).bind fun field fieldSound =>
        ensures_pure (sound.addField fieldSound)) _ _ _ read
  · exact ensures_failFirst _ _ _ _ read

/-- By induction on how deep messages may lie inside of each other. -/
theorem ensures_message (nesting : Nat) :
    ∀ place, Ensures (message nesting place) MessageDecl.Sound := by
  induction nesting with
  | zero => exact fun _ => ensures_failAtEnd _
  | succ nesting inductionHypothesis =>
    intro place
    refine ensures_bind fun name => ensures_block ?_ (ensures_messageMember inductionHypothesis)
    exact .intro (fun _ member => nomatch member) (fun _ member => nomatch member)
      (fun _ member => nomatch member)

/-! ## Files -/

theorem ensures_topLevel (file : FileDecl) (sound : file.Sound) :
    Ensures (topLevel file) FileDecl.Sound := by
  intro tokens value rest read
  unfold topLevel at read
  split at read
  · cases read
    exact sound
  · split at read
    · exact (ensures_bind fun _ => ensures_pure ⟨sound.messages, sound.enums⟩) _ _ _ read
    split at read
    · unfold package at read
      split at read
      · exact ensures_failAt _ _ _ _ _ read
      · exact (ensures_bind fun _ => ensures_bind fun _ =>
          ensures_pure ⟨sound.messages, sound.enums⟩) _ _ _ read
    split at read
    · exact (ensures_bind fun _ => ensures_pure ⟨sound.messages, sound.enums⟩) _ _ _ read
    split at read
    · exact (ensures_bind fun _ => ensures_pure sound) _ _ _ read
    split at read
    · refine ((ensures_message _ _).bind fun message messageSound =>
        ensures_pure ⟨fun other member => ?_, sound.enums⟩) _ _ _ read
      rcases List.mem_append.mp member with old | new
      · exact sound.messages other old
      · exact List.mem_singleton.mp new ▸ messageSound
    split at read
    · refine (ensures_enumeration.bind fun enum enumSound =>
        ensures_pure ⟨sound.messages, fun other member => ?_⟩) _ _ _ read
      rcases List.mem_append.mp member with old | new
      · exact sound.enums other old
      · exact List.mem_singleton.mp new ▸ enumSound
    split at read
    · exact (ensures_bind fun _ => ensures_bind fun _ => ensures_pure sound) _ _ _ read
    · exact ensures_failAt _ _ _ _ _ read
  · exact ensures_failFirst _ _ _ _ read

theorem ensures_file (count : Nat) :
    ∀ decl : FileDecl, decl.Sound → Ensures (file count decl) FileDecl.Sound := by
  induction count with
  | zero => exact fun _ sound => ensures_pure sound
  | succ count inductionHypothesis =>
    intro decl sound tokens value rest read
    unfold file at read
    split at read
    · cases read
      exact sound
    · exact (ensures_topLevel decl sound).bind inductionHypothesis _ _ _ read

end Parser

/-- What a text declares obeys the rules. -/
theorem FileDecl.sound_of_parse {tokens : List Token} {file : FileDecl}
    (read : FileDecl.parse tokens = .ok file) : file.Sound := by
  unfold FileDecl.parse at read
  cases step : Parser.file tokens.length FileDecl.empty tokens with
  | error fault => rw [step] at read; cases read
  | ok pair =>
    rw [step] at read
    cases read
    have start : FileDecl.empty.Sound :=
      ⟨fun _ member => absurd member List.not_mem_nil, fun _ member => absurd member List.not_mem_nil⟩
    exact Parser.ensures_file _ _ start _ _ _ step

theorem SchemaText.sound_of_read {text : String} {schema : SchemaText}
    (read : SchemaText.read text = .ok schema) : schema.file.Sound := by
  unfold SchemaText.read at read
  split at read
  · cases read
  · split at read
    · cases read
    · cases read
      exact FileDecl.sound_of_parse ‹_›

end SchemaRecords.Schema
