import SchemaRecords.Proofs.Payload.RelatedDecoders

/-!
# Levels to spare

A decoder of some depth stops at messages that lie too deep for it, and does so by refusing the
whole payload.  Where it refuses nothing, it never came to such a depth, and then a decoder that may
go deeper does the same at each step.  So a payload that is decoded within some levels is decoded to
the same document within more.

Here only success is carried over from one run to another.  The refusals of the two may differ,
since a decoder that goes deeper may find another fault there.
-/

namespace SchemaRecords.Payload

open SchemaRecords.Schema
open Outcome (Follows)

/-! ## Records and fields -/

section Runs

variable {α β : Type} {relation : α → β → Prop}

theorem inField_map (field : String) (run : Decoded α) (f : α → β) :
    inField field (run.map f) = (inField field run).map f := by
  cases run <;> rfl

theorem inField_follows {one : Decoded α} {other : Decoded β} (follows : Follows relation one other)
    (field : String) : Follows relation (inField field one) (inField field other) := by
  intro value isValue
  rcases follows value (eq_ok_of_inField isValue) with ⟨found, isFound, here⟩
  exact ⟨found, by rw [isFound, inField], here⟩

variable {interpret : Wire.Record → Option (Decoded α)} {others : Wire.Record → Option (Decoded β)}

/-- Records are interpreted along with others if each of them is. -/
theorem readRecords_follows {records : List Wire.Record}
    (each : ∀ record ∈ records,
      Option.Rel (Follows relation) (interpret record) (others record)) :
    Follows (List.Forall₂ relation) (readRecords interpret records)
      (readRecords others records) := by
  induction records with
  | nil => exact .ok .nil
  | cons record rest inductionHypothesis =>
    have here := each record List.mem_cons_self
    have later := inductionHypothesis fun other there => each other (List.mem_cons_of_mem _ there)
    simp only [readRecords]
    cases one : interpret record <;> cases other : others record <;> rw [one, other] at here
    · exact later
    · cases here
    · cases here
    · rename_i run otherRun
      cases here with
      | some follows =>
        cases run with
        | error refusal => exact .error refusal
        | ok value =>
          rcases follows value rfl with ⟨found, isFound, related⟩
          subst isFound
          intro values isRead
          dsimp only at isRead ⊢
          split at isRead
          · cases isRead
          · rename_i restValues isRest
            cases isRead
            rcases later restValues isRest with ⟨otherValues, isOther, restRelated⟩
            rw [isOther]
            exact ⟨found :: otherValues, rfl, .cons related restRelated⟩

theorem readPayload_follows {payload : Bytes}
    (each : ∀ record ∈ (Wire.Record.split payload).1,
      Option.Rel (Follows relation) (interpret record) (others record))
    (name otherName : String) :
    Follows (List.Forall₂ relation) (readPayload name interpret payload)
      (readPayload otherName others payload) := by
  intro values isRead
  rcases readPayload_eq_ok_iff.mp isRead with ⟨records, complete⟩
  rcases readRecords_follows each values records with ⟨otherValues, isOther, related⟩
  exact ⟨otherValues, readPayload_eq_ok_iff.mpr ⟨isOther, complete⟩, related⟩

end Runs

/-! ## Decoders of which one goes as far as the other -/

/-- Whatever the first decoder shows, the second shows too. -/
def Decoder.Within (first second : Decoder) : Prop :=
  ∀ message payload, Follows Eq (first message payload) (second message payload)

namespace Decoder.Within

variable {pool : Pool} {options : Options} {message : Message}
  {first second firstEntry secondEntry : Decoder}

theorem refl (decoder : Decoder) : decoder.Within decoder := fun _ _ => .refl _

theorem trans {third : Decoder} (early : first.Within second) (late : second.Within third) :
    first.Within third :=
  fun message payload => (early message payload).trans (late message payload)

theorem of_refuse (decoder : Decoder) : refuse.Within decoder := fun _ _ => .error _

theorem follow (within : first.Within second) (id : MessageId) (payload : Bytes) :
    Follows Eq (first.follow pool id payload) (second.follow pool id payload) := by
  unfold Decoder.follow
  split
  · exact within _ payload
  · exact .error _

/-- The same outcomes, or none on both sides. -/
theorem rel_refl {α : Type} (run : Option (Decoded α)) : Option.Rel (Follows Eq) run run := by
  cases run with
  | none => exact .none
  | some run => exact .some (.refl run)

theorem readValue? (within : first.Within second) (message field : String) (type : ValueType)
    (wire : Wire.Value) :
    Option.Rel (Follows Eq) (readValue? pool first message field type wire)
      (readValue? pool second message field type wire) := by
  cases notMessage : type.isMessage with
  | false =>
    rw [readValue?_of_notMessage notMessage first second]
    exact rel_refl _
  | true =>
    cases type with
    | message id =>
      cases wire with
      | delimited content => exact .some (inField_follows (within.follow id content) field)
      | varint word => exact .none
      | fixed64 word => exact .none
      | fixed32 word => exact .none
    | scalar scalar => cases notMessage
    | enumeration id => cases notMessage

theorem readEntryPart (within : first.Within second) (entry : String) (key value : Field)
    (record : Wire.Record) :
    Option.Rel (Follows Eq) (readEntryPart pool first entry key value record)
      (readEntryPart pool second entry key value record) := by
  have part (field : Field) (wire : Wire.Value) (f : Json.Value → EntryPart) :
      Option.Rel (Follows Eq)
        ((Payload.readValue? pool first entry field.name field.type wire).map (·.map f))
        ((Payload.readValue? pool second entry field.name field.type wire).map (·.map f)) :=
    optionRel_map (within.readValue? _ _ _ _) fun _ _ follows =>
      follows.map fun _ _ same => congrArg f same
  unfold Payload.readEntryPart
  cases record.value with
  | none => exact .none
  | some wire =>
    dsimp only
    split
    · exact part key wire .key
    · split
      · exact part value wire .value
      · exact .none

theorem decodeMissing (within : first.Within second) (type : ValueType) :
    Follows Eq (decodeMissing pool first type) (decodeMissing pool second type) := by
  cases type with
  | message id => exact within.follow id []
  | scalar scalar => exact .refl _
  | enumeration id => exact .refl _

theorem decodeEntry (within : first.Within second) (entry : Message) (payload : Bytes) :
    Follows Eq (decodeEntry pool first entry payload) (decodeEntry pool second entry payload) := by
  unfold Payload.decodeEntry
  split
  · refine (readPayload_follows (fun record _ => within.readEntryPart _ _ _ record) _ _).bind
      fun parts otherParts same => ?_
    rw [List.forall₂_eq_eq_eq] at same
    subst same
    split
    · exact .refl _
    · exact (within.decodeMissing _).bind fun found otherFound same => same ▸ .refl _
  · exact .error _

theorem contribution? (within : first.Within second) (withinEntry : firstEntry.Within secondEntry)
    (field : Field) (wire : Wire.Value) :
    Option.Rel (Follows Eq) (contribution? pool first firstEntry message field wire)
      (contribution? pool second secondEntry message field wire) := by
  have value (type : ValueType) (f : Json.Value → Contribution) :
      Option.Rel (Follows Eq)
        ((Payload.readValue? pool first message.fullName field.name type wire).map (·.map f))
        ((Payload.readValue? pool second message.fullName field.name type wire).map (·.map f)) :=
    optionRel_map (within.readValue? _ _ _ _) fun _ _ follows =>
      follows.map fun _ _ same => congrArg f same
  rw [contribution?.eq_def, contribution?.eq_def]
  split
  · rename_i entry content shape
    refine .some (inField_follows ?_ _)
    unfold decodeEntryAt
    split
    · exact (withinEntry.decodeEntry _ content).map fun _ _ same => same ▸ rfl
    · exact .error _
  · exact .none
  · split
    · exact rel_refl _
    · exact value _ fun element => .elements [element]
  · exact value _ fun element => .elements [element]
  · exact rel_refl _
  · exact value _ .value

theorem occurrence? (within : first.Within second) (withinEntry : firstEntry.Within secondEntry)
    (record : Wire.Record) :
    Option.Rel (Follows Eq) (occurrence? pool first firstEntry message record)
      (occurrence? pool second secondEntry message record) := by
  cases holds : record.value with
  | none =>
    simp only [Payload.occurrence?, holds]
    exact .none
  | some value =>
    cases found : message.fieldByNumber? record.number with
    | none =>
      simp only [Payload.occurrence?, holds, found]
      exact .none
    | some field =>
      rw [occurrence?_of_field holds found, occurrence?_of_field holds found]
      exact optionRel_map (within.contribution? withinEntry field value) fun _ _ follows =>
        follows.map fun _ _ same => congrArg (Occurrence.mk field) same

theorem fieldValue (within : first.Within second) (field : Field)
    (contributions : List Contribution) :
    Follows Eq (fieldValue pool options first field contributions)
      (fieldValue pool options second field contributions) := by
  unfold Payload.fieldValue
  split
  · split
    · exact .refl _
    · exact (inField_follows (within.follow _ _) _).map fun _ _ same => congrArg some same
  · exact .refl _
  · exact .refl _
  · exact .refl _

theorem assemble (within : first.Within second) (occurrences : List Occurrence)
    (fields : List Field) (members : Json.Members) :
    Follows Eq (assemble pool options first occurrences members fields)
      (assemble pool options second occurrences members fields) := by
  induction fields generalizing members with
  | nil => exact .refl _
  | cons field rest inductionHypothesis =>
    have value : Follows Eq
        (Payload.fieldValue pool options first field (contributionsTo field occurrences))
        (Payload.fieldValue pool options second field (contributionsTo field occurrences)) :=
      within.fieldValue field _
    intro result done
    simp only [Payload.assemble] at done ⊢
    split at done
    · cases done
    · rename_i isShown
      rcases value _ isShown with ⟨_, isShownToo, rfl⟩
      rw [isShownToo]
      exact inductionHypothesis members result done
    · rename_i isShown
      rcases value _ isShown with ⟨_, isShownToo, rfl⟩
      rw [isShownToo]
      exact inductionHypothesis _ result done

theorem decodeLevel (within : first.Within second) (withinEntry : firstEntry.Within secondEntry) :
    Decoder.Within (decodeLevel pool options first firstEntry)
      (decodeLevel pool options second secondEntry) := by
  intro message payload
  refine (readPayload_follows (fun record _ => within.occurrence? withinEntry record) _ _).bind
    fun occurrences otherOccurrences same => ?_
  rw [List.forall₂_eq_eq_eq] at same
  subst same
  exact (within.assemble occurrences _ _).bind fun members otherMembers same => same ▸ .refl _

end Decoder.Within

/-! ## More levels -/

section Levels

variable (pool : Pool) (options : Options)

/-- The decoder of the next depth takes one level for a message and two for an entry. -/
theorem decodeWithin_succ (levels : Nat) :
    decodeWithin pool options (levels + 1) =
      decodeLevel pool options (decodeWithin pool options levels)
        (decodeWithin pool options (levels - 1)) := by
  cases levels with
  | zero => rfl
  | succ below => rfl

/-- By induction on the levels.  Messages lose one of them, entries two. -/
theorem within_succ (levels : Nat) :
    (decodeWithin pool options levels).Within (decodeWithin pool options (levels + 1)) := by
  induction levels using decodeWithin.induct with
  | case1 => exact .of_refuse _
  | case2 =>
    exact Decoder.Within.decodeLevel (.of_refuse _) (.of_refuse _)
  | case3 levels below entriesBelow => exact Decoder.Within.decodeLevel below entriesBelow

/-- What is decoded within some levels is decoded within more. -/
theorem within_of_le {levels more : Nat} (enough : levels ≤ more) :
    (decodeWithin pool options levels).Within (decodeWithin pool options more) := by
  induction enough with
  | refl => exact .refl _
  | step _ inductionHypothesis => exact inductionHypothesis.trans (within_succ pool options _)

end Levels
end SchemaRecords.Payload
