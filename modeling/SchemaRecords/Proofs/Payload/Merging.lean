import Mathlib.Data.List.Induction
import SchemaRecords.Proofs.Json.DistinctKeys
import SchemaRecords.Proofs.Payload.ReadFields

/-!
# Merging documents

Two documents of one message are merged field by field.  A single value of the later document
takes the place of the earlier one, and if both are messages they are merged in turn; lists are
joined; an entry of the later map takes the place of the earlier one of its key.  A field that
the later document does not set keeps its earlier value, unless the later document sets another
member of its oneof.

The recursion is on the later document.  It goes through all members of an object before their
fields are looked at in the order of the schema, so that every part it descends into is a part
of the later document.
-/

namespace SchemaRecords.Payload

open SchemaRecords.Json SchemaRecords.Schema

/-! ## The merge of two documents -/

/-- Whether members set another member of the oneof of a field. -/
def setsOther (message : Message) (members : Members) (field : Field) : Bool :=
  field.oneof.isSome && message.fields.any fun other =>
    other.oneof = field.oneof && other.number ≠ field.number &&
      (members.lookup other.name).isSome

/-- The members of a message, from earlier members and from later ones that already contain what
has become of the earlier values of their fields. -/
def overlaid (message : Message) (earlier later : Members) : Members :=
  shownMembers (fun field =>
    (later.lookup field.name).or
      (if setsOther message later field then none else earlier.lookup field.name)) message.fields

mutual

/-- What becomes of a value of a field, given an earlier value of the field. -/
def mergeValue (pool : Pool) (shape : Shape) (earlier : Json.Value) : Json.Value → Json.Value
  | .object later =>
    match shape, earlier with
    | .singular (.message id) _, .object members =>
      match pool.message? id with
      | some message => .object (overlaid message members (mergeFields pool message members later))
      | none => .object later
    | .map _, .object members => .object (Members.insertAll members later)
    | _, _ => .object later
  | .array later =>
    match shape, earlier with
    | .repeated _ _, .array items => .array (items ++ later)
    | _, _ => .array later
  | later => later

/-- Later members, each with what becomes of it given the earlier value of its field. -/
def mergeFields (pool : Pool) (message : Message) (earlier : Members) :
    List (String × Json.Value) → Members
  | [] => []
  | (name, value) :: rest =>
    let merged :=
      match message.fieldByName? name, earlier.lookup name with
      | some field, some before => mergeValue pool field.shape before value
      | _, _ => value
    (name, merged) :: mergeFields pool message earlier rest

end

/-- The merge of two documents of a message. -/
def merge (pool : Pool) (message : Message) : (earlier later : Json.Value) → Json.Value
  | .object earlier, .object later =>
    .object (overlaid message earlier (mergeFields pool message earlier later))
  | _, later => later

/-- What becomes of a field of two documents, if neither has displaced it. -/
def mergeShown (pool : Pool) (shape : Shape) :
    (earlier later : Option Json.Value) → Option Json.Value
  | earlier, none => earlier
  | none, some later => some later
  | some earlier, some later => some (mergeValue pool shape earlier later)

section Shapes

variable {pool : Pool}

theorem mergeShown_none (shape : Shape) (later : Option Json.Value) :
    mergeShown pool shape none later = later := by
  cases later <;> rfl

theorem mergeValue_message {id : MessageId} {message : Message} {explicit : Bool}
    (found : pool.message? id = some message) (earlier later : Json.Value) :
    mergeValue pool (.singular (.message id) explicit) earlier later =
      merge pool message earlier later := by
  cases later with
  | object members => cases earlier <;> simp only [mergeValue, merge, found]
  | _ => cases earlier <;> rfl

/-- Of single values that are no messages the later one counts. -/
theorem mergeValue_simple {type : ValueType} {explicit : Bool} (simple : type.isMessage = false)
    (earlier later : Json.Value) : mergeValue pool (.singular type explicit) earlier later = later := by
  cases type with
  | message id => cases simple
  | scalar scalar => cases later <;> rfl
  | enumeration id => cases later <;> rfl

end Shapes

/-! ## Looking up members -/

section Members

variable {pool : Pool} {message : Message}

theorem lookup_shownMembers {shown : Field → Option Json.Value} {fields : List Field}
    (distinct : (fields.map (·.name)).Nodup) {field : Field} (member : field ∈ fields) :
    (shownMembers shown fields).lookup field.name = shown field := by
  induction fields with
  | nil => cases member
  | cons first rest inductionHypothesis =>
    rw [List.map_cons, List.nodup_cons] at distinct
    rw [shownMembers] at inductionHypothesis ⊢
    rw [List.filterMap_cons]
    rcases List.mem_cons.mp member with same | later
    · subst same
      cases isShown : shown field with
      | some value => simp only [Option.map_some, List.lookup_cons_self]
      | none =>
        apply List.lookup_eq_none_iff.mpr
        intro entry there
        rcases List.mem_filterMap.mp there with ⟨other, isOther, given⟩
        rcases Option.map_eq_some_iff.mp given with ⟨value, _, same⟩
        subst same
        apply bne_iff_ne.mpr
        exact fun same => distinct.1 (List.mem_map.mpr ⟨other, isOther, same.symm⟩)
    · have different : field.name ≠ first.name := fun same =>
        distinct.1 (List.mem_map.mpr ⟨field, later, same⟩)
      cases isShown : shown first with
      | none => exact inductionHypothesis distinct.2 later
      | some value =>
        simp only [Option.map_some, List.lookup_cons, beq_eq_false_iff_ne.mpr different]
        exact inductionHypothesis distinct.2 later

theorem lookup_mergeFields (earlier later : Members) (name : String) :
    (mergeFields pool message earlier later).lookup name =
      (later.lookup name).map fun value =>
        match message.fieldByName? name, earlier.lookup name with
        | some field, some before => mergeValue pool field.shape before value
        | _, _ => value := by
  induction later with
  | nil => rfl
  | cons member rest inductionHypothesis =>
    rcases member with ⟨first, value⟩
    rw [mergeFields, List.lookup_cons, List.lookup_cons]
    cases same : name == first with
    | false => exact inductionHypothesis
    | true =>
      rw [eq_of_beq same]
      rfl

end Members

/-! ## Contributions of two payloads -/

theorem elementsOf_append (first second : List Contribution) :
    elementsOf (first ++ second) = elementsOf first ++ elementsOf second :=
  List.flatMap_append

theorem valuesOf_append (first second : List Contribution) :
    valuesOf (first ++ second) = valuesOf first ++ valuesOf second :=
  List.filterMap_append

theorem nodup_entriesOf (contributions : List Contribution) :
    ((entriesOf contributions).map (·.1)).Nodup := by
  induction contributions using List.reverseRecOn with
  | nil => exact List.nodup_nil
  | append_singleton before contribution inductionHypothesis =>
    rw [entriesOf, List.foldl_concat, ← entriesOf]
    cases contribution with
    | entry key value => exact Members.nodup_insert inductionHypothesis
    | _ => exact inductionHypothesis

/-- Later entries are put into the earlier ones, by induction on what gives them from the end. -/
theorem entriesOf_append (first second : List Contribution) :
    entriesOf (first ++ second) = Members.insertAll (entriesOf first) (entriesOf second) := by
  induction second using List.reverseRecOn with
  | nil =>
    rw [List.append_nil]
    rfl
  | append_singleton before contribution inductionHypothesis =>
    rw [← List.append_assoc, entriesOf, List.foldl_concat, ← entriesOf, inductionHypothesis,
      entriesOf.eq_def (before ++ [contribution]), List.foldl_concat, ← entriesOf]
    cases contribution with
    | entry key value => exact (Members.insertAll_insert (nodup_entriesOf before) _ _ _).symm
    | _ => rfl

/-- The contributions that count are those of both payloads, unless the later one displaces the
field. -/
theorem contributionsTo_append (field : Field) (first second : List Occurrence) :
    contributionsTo field (first ++ second) =
      if second.any fun occurrence => occurrence.displaces field then contributionsTo field second
      else contributionsTo field first ++ contributionsTo field second := by
  rw [contributionsTo, List.reverse_append, List.takeWhile_append]
  by_cases displaced : (second.any fun occurrence => occurrence.displaces field) = true
  · rcases List.any_eq_true.mp displaced with ⟨occurrence, member, displaces⟩
    have stops : ¬ (second.reverse.takeWhile fun occurrence => !occurrence.displaces field).length =
        second.reverse.length := by
      intro whole
      have all := List.takeWhile_eq_self_iff.mp
        ((List.takeWhile_sublist _).eq_of_length whole) occurrence (List.mem_reverse.mpr member)
      rw [displaces] at all
      cases all
    rw [if_neg stops, if_pos displaced, contributionsTo]
  · have whole : (second.reverse.takeWhile fun occurrence => !occurrence.displaces field) =
        second.reverse := by
      apply List.takeWhile_eq_self_iff.mpr
      intro occurrence member
      rw [Bool.not_eq_true', Bool.eq_false_iff]
      exact fun displaces =>
        displaced (List.any_eq_true.mpr ⟨occurrence, List.mem_reverse.mp member, displaces⟩)
    rw [whole, if_pos rfl, if_neg displaced, contributionsTo, contributionsTo, whole]
    simp only [List.reverse_append, List.reverse_reverse, List.filter_append, List.map_append]

end SchemaRecords.Payload
