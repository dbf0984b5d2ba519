import SchemaRecords.Proofs.Payload.HeldMessages

/-!
# Records that concern a field

What a document shows for a field depends on few of the records in its payload: on those that give
the field something, and on those that displace it.  The field itself decides which these are by
their numbers alone, so all others may be left out before it looks.

A document is therefore the same for two payloads that are accepted alike and in which every field
finds the same records that concern it, in the same order.  More is not needed: how the records of
different fields stand between one another cannot be seen.
-/

namespace SchemaRecords.Payload

open SchemaRecords.Schema

/-! ## Occurrences that concern a field -/

/-- Whatever ends a front part of a list stays, if some elements are left out and this is none of
them. -/
theorem takeWhile_filter_of_mem {α : Type} {p q : α → Bool} {list : List α}
    (kept : ∀ element ∈ list, q element = false → p element = true) :
    (list.filter p).takeWhile q = (list.takeWhile q).filter p := by
  induction list with
  | nil => rfl
  | cons first rest inductionHypothesis =>
    rcases List.forall_mem_cons.mp kept with ⟨here, later⟩
    cases goesOn : q first with
    | true =>
      rw [List.takeWhile_cons_of_pos goesOn]
      cases isKept : p first with
      | true =>
        rw [List.filter_cons_of_pos isKept, List.filter_cons_of_pos isKept,
          List.takeWhile_cons_of_pos goesOn, inductionHypothesis later]
      | false =>
        have leftOut : ¬ p first = true := by rw [isKept]; exact Bool.false_ne_true
        rw [List.filter_cons_of_neg leftOut, List.filter_cons_of_neg leftOut,
          inductionHypothesis later]
    | false =>
      have ends : ¬ q first = true := by rw [goesOn]; exact Bool.false_ne_true
      rw [List.takeWhile_cons_of_neg ends, List.filter_cons_of_pos (here goesOn),
        List.takeWhile_cons_of_neg ends, List.filter_nil]

/-- Occurrences that neither belong to a field nor displace it may be left out. -/
theorem contributionsTo_filter {field : Field} {p : Occurrence → Bool}
    {occurrences : List Occurrence}
    (own : ∀ occurrence ∈ occurrences, occurrence.field.number = field.number →
      p occurrence = true)
    (displacing : ∀ occurrence ∈ occurrences, occurrence.displaces field = true →
      p occurrence = true) :
    contributionsTo field (occurrences.filter p) = contributionsTo field occurrences := by
  have kept : ∀ occurrence ∈ occurrences.reverse,
      (!occurrence.displaces field) = false → p occurrence = true := by
    intro occurrence there displaces
    exact displacing occurrence (List.mem_reverse.mp there) (by simpa using displaces)
  rw [contributionsTo, contributionsTo, ← List.filter_reverse, takeWhile_filter_of_mem kept,
    ← List.filter_reverse, List.filter_filter]
  apply congrArg
  apply List.filter_congr
  intro occurrence there
  have member : occurrence ∈ occurrences :=
    List.mem_reverse.mp ((List.takeWhile_prefix _).subset (List.mem_reverse.mp there))
  by_cases same : occurrence.field.number = field.number
  · rw [own occurrence member same, Bool.and_true]
  · rw [decide_eq_false same, Bool.false_and]

/-- Only a member of the same oneof displaces a field. -/
theorem oneof_of_displaces {occurrence : Occurrence} {field : Field}
    (displaces : occurrence.displaces field = true) :
    field.oneof.isSome = true ∧ occurrence.field.oneof = field.oneof ∧
      occurrence.field.number ≠ field.number := by
  simpa [Occurrence.displaces, and_assoc] using displaces

section Messages

variable {pool : Pool} {options : Options} {decoder entryDecoder : Decoder} {message : Message}

/-- The field of an occurrence is one of the message. -/
theorem field_mem_of_understood {records : List Wire.Record} {occurrence : Occurrence}
    (there : occurrence ∈ understood (occurrence? pool decoder entryDecoder message) records) :
    occurrence.field ∈ message.fields := by
  rcases exists_of_mem_understood there with ⟨record, -, given⟩
  exact (exists_of_occurrence? given).1

/-- What the records of a payload give a field is given by those whose numbers may concern it: its
own, and those of the fields in its oneof. -/
theorem contributionsTo_understood_filter (indexed : message.Indexed) {field : Field}
    {p : Nat → Bool} (own : p field.number = true)
    (siblings : ∀ other ∈ message.fields, field.oneof.isSome = true → other.oneof = field.oneof →
      p other.number = true) (records : List Wire.Record) :
    contributionsTo field (understood (occurrence? pool decoder entryDecoder message)
        (records.filter fun record => p record.number)) =
      contributionsTo field
        (understood (occurrence? pool decoder entryDecoder message) records) := by
  rw [understood_filter indexed]
  apply contributionsTo_filter
  · intro occurrence _ same
    rw [same, own]
  · intro occurrence there displaces
    rcases oneof_of_displaces displaces with ⟨inOneof, sameOneof, _⟩
    exact siblings occurrence.field (field_mem_of_understood there) inOneof sameOneof

/-! ## Documents of two payloads -/

/-- A document depends on nothing but what its fields show. -/
theorem assemble_congr {occurrences others : List Occurrence} {fields : List Field}
    (values : ∀ field ∈ fields,
      fieldValue pool options decoder field (contributionsTo field occurrences) =
        fieldValue pool options decoder field (contributionsTo field others))
    (members : Json.Members) :
    assemble pool options decoder occurrences members fields =
      assemble pool options decoder others members fields := by
  induction fields generalizing members with
  | nil => rfl
  | cons field rest inductionHypothesis =>
    rcases List.forall_mem_cons.mp values with ⟨here, later⟩
    rw [assemble, assemble, here]
    cases fieldValue pool options decoder field (contributionsTo field others) with
    | error refusal => rfl
    | ok shown =>
      cases shown with
      | none => exact inductionHypothesis later members
      | some value => exact inductionHypothesis later _

/-- Two payloads that end alike have the same document, or both have none, if their records are
accepted alike and every field shows the same. -/
theorem toOption_decodeLevel_congr {payload other : Bytes}
    (ends : (Wire.Record.split payload).2 = (Wire.Record.split other).2)
    (alike : AllAccepted (occurrence? pool decoder entryDecoder message)
        (Wire.Record.split payload).1 ↔
      AllAccepted (occurrence? pool decoder entryDecoder message) (Wire.Record.split other).1)
    (values : AllAccepted (occurrence? pool decoder entryDecoder message)
        (Wire.Record.split payload).1 → ∀ field ∈ message.fields,
      fieldValue pool options decoder field (contributionsTo field
          (understood (occurrence? pool decoder entryDecoder message)
            (Wire.Record.split payload).1)) =
        fieldValue pool options decoder field (contributionsTo field
          (understood (occurrence? pool decoder entryDecoder message)
            (Wire.Record.split other).1))) :
    (decodeLevel pool options decoder entryDecoder message payload).toOption =
      (decodeLevel pool options decoder entryDecoder message other).toOption := by
  apply Option.ext
  intro document
  rw [Outcome.toOption_eq_some_iff, Outcome.toOption_eq_some_iff, decodeLevel_eq_ok_iff,
    decodeLevel_eq_ok_iff]
  simp only [readPayload_eq_ok_iff_understood, ← ends, ← alike]
  constructor
  · rintro ⟨_, ⟨complete, accepted, rfl⟩, members, assembled, same⟩
    exact ⟨_, ⟨complete, accepted, rfl⟩, members,
      assemble_congr (values accepted) [] ▸ assembled, same⟩
  · rintro ⟨_, ⟨complete, accepted, rfl⟩, members, assembled, same⟩
    exact ⟨_, ⟨complete, accepted, rfl⟩, members,
      assemble_congr (values accepted) [] ▸ assembled, same⟩

end Messages
end SchemaRecords.Payload
