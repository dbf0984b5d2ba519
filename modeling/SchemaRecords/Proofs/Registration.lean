import SchemaRecords.Proofs.Payload.GrownDecoding
import SchemaRecords.Proofs.Payload.GrownEncoding
import SchemaRecords.Proofs.Schema.LinkedUnits
import SchemaRecords.Schema.IndexPath

/-!
# Registration only adds

Whatever texts have been registered under whatever names, and however many of them were
refused, the pool is well formed.  So no reference in it leads nowhere, and a further
registration changes no answer that the pool gave before: look-ups, index paths, and the
reading and writing of payloads all stay within what was there.
-/

namespace SchemaRecords

open SchemaRecords.Schema
open SchemaRecords.Payload

variable {relocation : Relocation} {pool grown : Pool}

/-! ## References never lead nowhere -/

theorem Payload.decode_embeds (wellFormed : pool.WellFormed)
    (embeds : Pool.Embeds relocation pool grown) (options : Options) {name : String}
    {message : Message} (found : pool.findMessage? name = some message)
    (grownFound : grown.findMessage? name = some (message.relocate relocation))
    (payload : Bytes) :
    Outcome.Same DecodeError.Dangling (decode pool options name payload)
      (decode grown options name payload) := by
  rcases wellFormed.exists_of_findMessage? found with ⟨id, there, _⟩
  simp only [decode, found, grownFound]
  exact decodeWithin_agree wellFormed embeds options nestingLimit id message there payload

theorem Payload.encode_embeds (wellFormed : pool.WellFormed)
    (embeds : Pool.Embeds relocation pool grown) {name : String} {message : Message}
    (found : pool.findMessage? name = some message)
    (grownFound : grown.findMessage? name = some (message.relocate relocation))
    (document : Json.Value) :
    Outcome.Same EncodeError.Dangling (encode pool name document) (encode grown name document) := by
  rcases wellFormed.exists_of_findMessage? found with ⟨id, there, _⟩
  simp only [encode, found, grownFound]
  split
  · rename_i members
    have set := settings_same embeds wellFormed
      (wellFormed.messages message (List.mem_of_getElem? there)) [] members
    generalize settings pool message [] members = first at set ⊢
    generalize settings grown (message.relocate relocation) [] members = second at set ⊢
    cases set with
    | ok possible => exact assemblePayload_same message possible
    | error possible => exact .error possible
  · exact .error fun impossible => impossible

theorem Payload.decode_same (wellFormed : pool.WellFormed) (kept : grown.Extends pool)
    (options : Options) {name : String} {message : Message}
    (found : pool.findMessage? name = some message)
    (grownFound : grown.findMessage? name = some message) (payload : Bytes) :
    Outcome.Same DecodeError.Dangling (decode pool options name payload)
      (decode grown options name payload) :=
  decode_embeds wellFormed kept.embeds options found (message.relocate_identity.symm ▸ grownFound)
    payload

theorem Payload.encode_same (wellFormed : pool.WellFormed) (kept : grown.Extends pool)
    {name : String} {message : Message} (found : pool.findMessage? name = some message)
    (grownFound : grown.findMessage? name = some message) (document : Json.Value) :
    Outcome.Same EncodeError.Dangling (encode pool name document) (encode grown name document) :=
  encode_embeds wellFormed kept.embeds found (message.relocate_identity.symm ▸ grownFound) document

/-- Whatever was registered, the pool is well formed, and neither decoding nor encoding ever
finds a reference missing in it. -/
theorem registered_wellFormed (attempts : List (String × String)) :
    (Pool.registerAll attempts).WellFormed ∧
      (∀ options name payload refusal,
        decode (.registerAll attempts) options name payload = .error refusal →
          ¬ refusal.Dangling) ∧
      ∀ name document refusal,
        encode (.registerAll attempts) name document = .error refusal → ¬ refusal.Dangling := by
  have wellFormed := Pool.wellFormed_registerAll attempts
  have kept := Pool.Extends.refl (Pool.registerAll attempts)
  refine ⟨wellFormed, fun options name payload refusal refused => ?_,
    fun name document refusal refused => ?_⟩
  · cases found : (Pool.registerAll attempts).findMessage? name with
    | none =>
      rw [decode, found] at refused
      cases refused
      exact id
    | some message =>
      exact (decode_same wellFormed kept options found found payload).possible refusal refused
  · cases found : (Pool.registerAll attempts).findMessage? name with
    | none =>
      rw [encode, found] at refused
      cases refused
      exact id
    | some message =>
      exact (encode_same wellFormed kept found found document).possible refusal refused

/-! ## Look-ups -/

namespace Schema.Pool.Extends

variable (kept : grown.Extends pool)
include kept

theorem findMessage? {name : String} {message : Message}
    (found : pool.findMessage? name = some message) : grown.findMessage? name = some message :=
  message.relocate_identity ▸ kept.embeds.findMessage? found

theorem findEnumeration? {name : String} {enumeration : Enumeration}
    (found : pool.findEnumeration? name = some enumeration) :
    grown.findEnumeration? name = some enumeration :=
  kept.embeds.findEnumeration? found

theorem unit? {name : String} {unit : SchemaUnit} (found : pool.unit? name = some unit) :
    grown.unit? name = some unit :=
  unit.relocate_identity ▸ kept.embeds.unit? found

end Schema.Pool.Extends

/-- The messages of a registered unit are in the pool. -/
theorem Schema.Pool.WellFormed.roots_taken (wellFormed : pool.WellFormed) {name : String}
    {unit : SchemaUnit} (found : pool.unit? name = some unit) :
    ∀ id ∈ unit.messages, ∃ message, pool.message? id = some message := by
  rcases Option.bind_eq_some_iff.mp found with ⟨place, _, there⟩
  intro id member
  rcases (wellFormed.units place unit there).messages id member with ⟨message, found, _⟩
  exact ⟨message, found⟩

theorem Schema.Pool.messagesIn?_embeds (wellFormed : pool.WellFormed)
    (embeds : Embeds relocation pool grown) {name : String} {unit : SchemaUnit}
    (found : pool.unit? name = some unit) :
    grown.messagesIn? name =
      (pool.messagesIn? name).map fun messages => messages.map (·.relocate relocation) := by
  have roots : (unit.relocate relocation).messages = unit.messages.map relocation.message := rfl
  rw [messagesIn?, messagesIn?, found, embeds.unit? found, Option.map_some, Option.map_some,
    Option.map_some, roots, List.filterMap_map, List.map_filterMap]
  congr 1
  apply List.filterMap_congr
  intro id member
  rcases wellFormed.roots_taken found id member with ⟨message, there⟩
  rw [Function.comp_apply, there, embeds.message id message there, Option.map_some]

/-! ## Index paths -/

theorem Schema.elementAt?_mem {α : Type} {elements : List α} {index : Int} {element : α}
    (found : elementAt? elements index = some element) : element ∈ elements := by
  cases index with
  | ofNat index => exact List.mem_of_getElem? found
  | negSucc index => cases found

theorem Schema.elementAt?_map {α β : Type} (f : α → β) (elements : List α) (index : Int) :
    elementAt? (elements.map f) index = (elementAt? elements index).map f := by
  cases index with
  | ofNat index => exact List.getElem?_map
  | negSucc index => rfl

theorem Schema.Pool.messageAt?_embeds (embeds : Embeds relocation pool grown)
    {ids : List MessageId} (taken : ∀ id ∈ ids, ∃ message, pool.message? id = some message)
    (index : Int) :
    grown.messageAt? (ids.map relocation.message) index =
      (pool.messageAt? ids index).map (·.relocate relocation) := by
  rw [messageAt?, messageAt?, elementAt?_map]
  cases listed : elementAt? ids index with
  | none => rfl
  | some id =>
    rcases taken id (elementAt?_mem listed) with ⟨message, found⟩
    rw [Option.map_some, Option.bind_some, Option.bind_some, found,
      embeds.message id message found, Option.map_some]

/-- By induction on the path; every message on the way is one of the embedded pool. -/
theorem Schema.Pool.descend_embeds (wellFormed : pool.WellFormed)
    (embeds : Embeds relocation pool grown) {message : Message} (member : message ∈ pool.messages)
    (position : Nat) (path : List Int) :
    grown.descend (message.relocate relocation) position path =
      (pool.descend message position path).map (·.relocate relocation) := by
  induction path generalizing message position with
  | nil => rfl
  | cons index rest inductionHypothesis =>
    have taken : ∀ id ∈ message.nestedMessages, ∃ inner, pool.message? id = some inner := by
      intro id nested
      rcases (wellFormed.messages message member).nested id nested with ⟨inner, found, _⟩
      exact ⟨inner, found⟩
    rw [descend, descend, Message.nestedMessages_relocate, messageAt?_embeds embeds taken]
    cases reached : pool.messageAt? message.nestedMessages index with
    | none => rfl
    | some nested =>
      rcases Option.bind_eq_some_iff.mp reached with ⟨id, _, found⟩
      exact inductionHypothesis (List.mem_of_getElem? found) (position + 1)

theorem Schema.Pool.resolve_embeds (wellFormed : pool.WellFormed)
    (embeds : Embeds relocation pool grown) {name : String} {unit : SchemaUnit}
    (found : pool.unit? name = some unit) (path : List Int) :
    grown.resolve name path = (pool.resolve name path).map (·.relocate relocation) := by
  have roots : (unit.relocate relocation).messages = unit.messages.map relocation.message := rfl
  simp only [resolve, found, embeds.unit? found, roots,
    messageAt?_embeds embeds (wellFormed.roots_taken found)]
  cases reached : pool.messageAt? unit.messages (path.headD 0) with
  | none => rfl
  | some message =>
    rcases Option.bind_eq_some_iff.mp reached with ⟨id, _, there⟩
    exact descend_embeds wellFormed embeds (List.mem_of_getElem? there) 1 path.tail

theorem Schema.Pool.resolve_extends (wellFormed : pool.WellFormed) (kept : grown.Extends pool)
    {name : String} {unit : SchemaUnit} (found : pool.unit? name = some unit) (path : List Int) :
    grown.resolve name path = pool.resolve name path := by
  rw [resolve_embeds wellFormed kept.embeds found]
  cases pool.resolve name path with
  | ok message => exact congrArg Except.ok message.relocate_identity
  | error refusal => rfl

theorem Schema.Pool.siblings_extends (wellFormed : pool.WellFormed) (kept : grown.Extends pool)
    {message : Message} (member : message ∈ pool.messages) :
    grown.siblings message = pool.siblings message := by
  unfold siblings
  cases isParent : message.parent with
  | none =>
    rcases (wellFormed.messages message member).unit with ⟨unit, found⟩
    simp only [found, kept.unit _ unit found]
  | some parent =>
    rcases (wellFormed.messages message member).parent parent isParent with ⟨_, outer, found, _⟩
    simp only [found, kept.message parent outer found]

/-- By induction on the height; the parents of a message of the smaller pool are there. -/
theorem Schema.Pool.climb_extends (wellFormed : pool.WellFormed) (kept : grown.Extends pool)
    (height : Nat) {message : Message} (member : message ∈ pool.messages) (below : List Int) :
    grown.climb height message below = pool.climb height message below := by
  induction height generalizing message below with
  | zero => rfl
  | succ height inductionHypothesis =>
    simp only [climb, siblings_extends wellFormed kept member]
    cases isParent : message.parent with
    | none => rfl
    | some parent =>
      rcases (wellFormed.messages message member).parent parent isParent with ⟨_, outer, found, _⟩
      simp only [found, kept.message parent outer found, Option.bind_eq_bind, Option.bind_some,
        inductionHypothesis (List.mem_of_getElem? found)]

theorem Schema.Pool.messageIndex?_extends (wellFormed : pool.WellFormed)
    (kept : grown.Extends pool) {name : String} {message : Message}
    (found : pool.findMessage? name = some message) :
    grown.messageIndex? name = pool.messageIndex? name := by
  rcases wellFormed.exists_of_findMessage? found with ⟨id, there, _⟩
  rw [messageIndex?, messageIndex?, found, kept.findMessage? found, Option.bind_some,
    Option.bind_some, indexPath?, indexPath?,
    climb_extends wellFormed kept _ (List.mem_of_getElem? there)]

/-! ## All answers -/

/-- A pool gives every answer that another one gave. -/
structure KeepsAnswers (grown pool : Pool) : Prop where
  message : ∀ name message, pool.findMessage? name = some message →
    grown.findMessage? name = some message
  enumeration : ∀ name enumeration, pool.findEnumeration? name = some enumeration →
    grown.findEnumeration? name = some enumeration
  unit : ∀ name unit, pool.unit? name = some unit → grown.unit? name = some unit
  messagesIn : ∀ name messages, pool.messagesIn? name = some messages →
    grown.messagesIn? name = some messages
  resolve : ∀ name path, (pool.unit? name).isSome = true →
    grown.resolve name path = pool.resolve name path
  messageIndex : ∀ name, (pool.findMessage? name).isSome = true →
    grown.messageIndex? name = pool.messageIndex? name
  decode : ∀ options name payload, (pool.findMessage? name).isSome = true →
    decode grown options name payload = decode pool options name payload
  encode : ∀ name document, (pool.findMessage? name).isSome = true →
    encode grown name document = encode pool name document
  encodeText : ∀ name text, (pool.findMessage? name).isSome = true →
    encodeText grown name text = encodeText pool name text

theorem keepsAnswers_of_extends (wellFormed : pool.WellFormed) (kept : grown.Extends pool) :
    KeepsAnswers grown pool where
  message := fun _ _ found => kept.findMessage? found
  enumeration := fun _ _ found => kept.findEnumeration? found
  unit := fun _ _ found => kept.unit? found
  messagesIn := by
    intro name messages answered
    rcases Option.map_eq_some_iff.mp answered with ⟨unit, found, _⟩
    rw [Pool.messagesIn?_embeds wellFormed kept.embeds found, answered]
    simp only [Option.map_some, Message.relocate_identity, List.map_id']
  resolve := by
    intro name path known
    rcases Option.isSome_iff_exists.mp known with ⟨unit, found⟩
    exact Pool.resolve_extends wellFormed kept found path
  messageIndex := by
    intro name known
    rcases Option.isSome_iff_exists.mp known with ⟨message, found⟩
    exact Pool.messageIndex?_extends wellFormed kept found
  decode := by
    intro options name payload known
    rcases Option.isSome_iff_exists.mp known with ⟨message, found⟩
    exact (decode_same wellFormed kept options found (kept.findMessage? found) payload).same
  encode := by
    intro name document known
    rcases Option.isSome_iff_exists.mp known with ⟨message, found⟩
    exact (encode_same wellFormed kept found (kept.findMessage? found) document).same
  encodeText := by
    intro name text known
    rcases Option.isSome_iff_exists.mp known with ⟨message, found⟩
    simp only [Payload.encodeText, found, kept.findMessage? found]
    split
    · rfl
    · exact (encode_same wellFormed kept found (kept.findMessage? found) _).same

/-- A further attempt to register a text, whether it succeeds or not, changes no answer. -/
theorem register_keepsAnswers (attempts : List (String × String)) (unitName text : String) :
    KeepsAnswers ((Pool.registerAll attempts).register unitName text) (.registerAll attempts) :=
  have wellFormed := Pool.wellFormed_registerAll attempts
  keepsAnswers_of_extends wellFormed (wellFormed.register_extends unitName text)

end SchemaRecords
