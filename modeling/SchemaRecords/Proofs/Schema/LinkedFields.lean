import SchemaRecords.Proofs.Outcome
import SchemaRecords.Proofs.Schema.SoundDeclaration
import SchemaRecords.Proofs.Schema.WellFormed

/-!
# What linking the fields of messages yields

The fields of a message are linked one after the other.  Each is held against those before
it, and each map field among them adds an entry behind the entries so far.  What is known
of the fields and the entries together is therefore an invariant of the pair: linking one
more field preserves it, and so does linking all of them.

The messages of a unit share one run of entries.  The entries of a message start where those
of the messages before it end.
-/

namespace SchemaRecords.Schema

/-! ## Types -/

/-- A type that can be written: a scalar, or what some full name stands for. -/
def Environment.Knows (env : Environment) (type : ValueType) : Prop :=
  (∃ scalar, type = .scalar scalar) ∨
    ∃ fullName symbol, env.symbol? fullName = some symbol ∧ type = symbol.type

/-- A name that is resolved is some full name that can be seen. -/
theorem Environment.symbol?_of_resolve? {env : Environment} {scope name : String} {symbol : Symbol}
    (resolved : env.resolve? scope name = some symbol) :
    ∃ fullName, env.symbol? fullName = some symbol := by
  unfold resolve? at resolved
  split at resolved
  · exact ⟨_, resolved⟩
  · rcases List.exists_of_findSome?_eq_some resolved with ⟨outer, _, found⟩
    exact ⟨_, found⟩

theorem linkType_knows {env : Environment} {scope field : String} {name : TypeName}
    {type : ValueType} (linked : linkType env scope field name = .ok type) : env.Knows type := by
  cases name with
  | scalar scalar =>
    cases linked
    exact Or.inl ⟨scalar, rfl⟩
  | named name =>
    simp only [linkType] at linked
    split at linked
    · rename_i symbol resolved
      cases linked
      rcases Environment.symbol?_of_resolve? resolved with ⟨fullName, found⟩
      exact Or.inr ⟨fullName, symbol, found, rfl⟩
    · cases linked

/-- Everything that linking the shape of a field can yield. -/
theorem linkShape_cases {context : FieldContext} {id : MessageId} {decl : FieldDecl} {shape : Shape}
    {added : List Message} (linked : linkShape context id decl = .ok (shape, added)) :
    (∃ type, context.env.Knows type ∧ added = [] ∧
      ((∃ packed, decl.label = .repeated ∧ shape = .repeated type (type.isPackable && packed)) ∨
        ∃ explicit, decl.label ≠ .repeated ∧ shape = .singular type explicit)) ∨
    ∃ key written type, decl.type = .map key written ∧ context.env.Knows type ∧
      shape = .map id ∧ added = [context.entry id decl.name key type] := by
  unfold linkShape at linked
  split at linked
  · rename_i key value isMap
    rcases Outcome.map_eq_ok_iff.mp linked with ⟨type, known, result⟩
    cases result
    exact Or.inr ⟨key, value, type, isMap, linkType_knows known, rfl, rfl⟩
  · rcases Outcome.map_eq_ok_iff.mp linked with ⟨type, known, result⟩
    refine Or.inl ⟨type, linkType_knows known, ?_⟩
    split at result
    · cases result
      exact ⟨rfl, Or.inl ⟨_, ‹_›, rfl⟩⟩
    · cases result
      exact ⟨rfl, Or.inr ⟨_, ‹_›, rfl⟩⟩

/-! ## One field after the other -/

/-- A shape whose type can be written, or that of a map field with one of some entries. -/
def FieldContext.Allows (context : FieldContext) (entries : List Message) : Shape → Prop
  | .singular type _ => context.env.Knows type
  | .repeated type packed => context.env.Knows type ∧ (packed = true → type.isPackable = true)
  | .map id => ∃ entry ∈ entries, entry.id = id

/-- Further entries leave every shape as it is. -/
theorem FieldContext.Allows.append {context : FieldContext} {entries : List Message} {shape : Shape}
    (allowed : context.Allows entries shape) (added : List Message) :
    context.Allows (entries ++ added) shape := by
  cases shape with
  | singular type explicit => exact allowed
  | repeated type packed => exact allowed
  | map id =>
    rcases allowed with ⟨entry, member, there⟩
    exact ⟨entry, List.mem_append_left _ member, there⟩

/-- A message that linking made for a map field. -/
def FieldContext.Makes (context : FieldContext) (entry : Message) : Prop :=
  ∃ id field key type, key.isMapKey = true ∧ context.env.Knows type ∧
    entry = context.entry id field key type

/-- Fields that have been linked so far, and the entries that they needed.  The first entry
stands at the place `next`. -/
structure FieldsSound (context : FieldContext) (next oneofs : Nat) (fields : List Field)
    (entries : List Message) : Prop where
  numbers : ∀ field ∈ fields, LegalNumber field.number
  numbersDistinct : (fields.map (·.number)).Nodup
  namesDistinct : (fields.map (·.name)).Nodup
  shapes : ∀ field ∈ fields, context.Allows entries field.shape
  oneofsInRange : ∀ field ∈ fields, ∀ index, field.oneof = some index → index < oneofs
  oneofsSingle : ∀ field ∈ fields, field.oneof.isSome = true →
    ∃ type explicit, field.shape = .singular type explicit
  entryPlaces : ∀ (position : Nat) (entry : Message), entries[position]? = some entry →
    entry.id = ⟨next + position⟩
  entries : ∀ entry ∈ entries, context.Makes entry

theorem legalNumber_of_checkNumber {scope : String} {decl : FieldDecl}
    (checked : checkNumber scope decl = .ok ()) : LegalNumber decl.number := by
  unfold checkNumber at checked
  split at checked
  · cases checked
  · split at checked
    · cases checked
    · rename_i inRange notReserved
      exact ⟨by omega, by omega, notReserved⟩

theorem distinct_of_checkDistinct {scope : String} {earlier : List Field} {decl : FieldDecl}
    (checked : checkDistinct scope earlier decl = .ok ()) :
    ∀ field ∈ earlier, field.number ≠ decl.number ∧ field.name ≠ decl.name := by
  unfold checkDistinct at checked
  split at checked
  · cases checked
  · rename_i numberAbsent
    split at checked
    · cases checked
    · rename_i nameAbsent
      intro field member
      refine ⟨fun same => ?_, fun same => nameAbsent ?_⟩
      · exact absurd same (by simpa using List.find?_eq_none.mp numberAbsent field member)
      · exact List.any_eq_true.mpr ⟨field, member, by simpa using same⟩

/-- A key that no earlier field has stays the only one of its kind. -/
theorem nodup_map_snoc {Key : Type} {key : Field → Key} {earlier : List Field} {field : Field}
    (distinct : (earlier.map key).Nodup) (new : ∀ other ∈ earlier, key other ≠ key field) :
    ((earlier ++ [field]).map key).Nodup := by
  rw [List.map_append, List.map_singleton]
  refine List.nodup_append.mpr ⟨distinct, List.nodup_singleton _, ?_⟩
  intro first member second last same
  rcases List.mem_map.mp member with ⟨other, listed, itsKey⟩
  rw [List.mem_singleton.mp last] at same
  exact new other listed (itsKey.trans same)

/-- The property of all elements of a list and one more. -/
theorem forall_mem_snoc {α : Type} {property : α → Prop} {elements : List α} {last : α}
    (all : ∀ element ∈ elements, property element) (holds : property last) :
    ∀ element ∈ elements ++ [last], property element := by
  intro element member
  rcases List.mem_append.mp member with earlier | new
  · exact all element earlier
  · exact List.mem_singleton.mp new ▸ holds

namespace FieldsSound

variable {context : FieldContext} {next oneofs : Nat} {earlier : List Field} {entries : List Message}

theorem nil (context : FieldContext) (next oneofs : Nat) : FieldsSound context next oneofs [] [] where
  numbers := fun _ member => nomatch member
  numbersDistinct := List.nodup_nil
  namesDistinct := List.nodup_nil
  shapes := fun _ member => nomatch member
  oneofsInRange := fun _ member => nomatch member
  oneofsSingle := fun _ member => nomatch member
  entryPlaces := fun _ _ found => nomatch found
  entries := fun _ member => nomatch member

/-- One more field, and an entry for it if it is a map field. -/
theorem step (sound : FieldsSound context next oneofs earlier entries) {decl : FieldDecl}
    (declared : decl.Sound oneofs) (numbered : checkNumber context.scope decl = .ok ())
    (distinct : checkDistinct context.scope earlier decl = .ok ()) {shape : Shape}
    {added : List Message} {jsonName : String}
    (linked : linkShape context ⟨next + entries.length⟩ decl = .ok (shape, added)) :
    FieldsSound context next oneofs
      (earlier ++ [⟨decl.name, jsonName, decl.number, shape, decl.oneof⟩]) (entries ++ added) := by
  have others := distinct_of_checkDistinct distinct
  have cases := linkShape_cases linked
  refine
    { numbers := forall_mem_snoc sound.numbers (legalNumber_of_checkNumber numbered)
      numbersDistinct := nodup_map_snoc sound.numbersDistinct fun other member =>
        (others other member).1
      namesDistinct := nodup_map_snoc sound.namesDistinct fun other member =>
        (others other member).2
      shapes := forall_mem_snoc (fun field member => (sound.shapes field member).append added) ?_
      oneofsInRange := forall_mem_snoc sound.oneofsInRange declared.oneofInRange
      oneofsSingle := forall_mem_snoc sound.oneofsSingle fun inOneof => ?_
      entryPlaces := ?_
      entries := ?_ }
  · rcases cases with ⟨type, known, _, ⟨packed, _, same⟩ | ⟨explicit, _, same⟩⟩ |
      ⟨key, written, type, _, _, same, one⟩
    · subst same
      refine ⟨known, fun both => ?_⟩
      exact (Bool.and_eq_true_iff.mp both).1
    · subst same
      exact known
    · subst same one
      exact ⟨_, List.mem_append_right _ List.mem_cons_self, rfl⟩
  · -- The parser lets only single, unlabelled fields into a oneof.
    rcases declared.oneofSingle inOneof with ⟨unlabelled, written, single⟩
    rcases cases with ⟨type, _, _, ⟨_, repeated, _⟩ | ⟨explicit, _, same⟩⟩ | ⟨_, _, _, isMap, _⟩
    · rw [unlabelled] at repeated
      cases repeated
    · exact ⟨type, explicit, same⟩
    · rw [single] at isMap
      cases isMap
  · intro position entry found
    rcases Pool.getElem?_append_iff.mp found with old | ⟨beyond, there, new⟩
    · exact sound.entryPlaces position entry old
    · rcases cases with ⟨_, _, none, _⟩ | ⟨key, written, type, _, _, _, one⟩
      · subst none
        cases new
      · subst one there
        cases beyond with
        | zero =>
          cases new
          rfl
        | succ beyond => cases new
  · intro entry member
    rcases List.mem_append.mp member with old | new
    · exact sound.entries entry old
    · rcases cases with ⟨_, _, none, _⟩ | ⟨key, written, type, isMap, known, _, one⟩
      · subst none
        cases new
      · subst one
        cases List.mem_singleton.mp new
        exact ⟨_, _, key, type, declared.mapKey key written isMap, known, rfl⟩

end FieldsSound

/-- Linking fields preserves what is known of the fields so far. -/
theorem linkFields_sound {context : FieldContext} {next oneofs : Nat} {decls : List FieldDecl}
    {earlier fields : List Field} {entries all : List Message}
    (declared : ∀ decl ∈ decls, decl.Sound oneofs)
    (sound : FieldsSound context next oneofs earlier entries)
    (linked : linkFields context next earlier entries decls = .ok (fields, all)) :
    FieldsSound context next oneofs fields all := by
  induction decls generalizing earlier entries with
  | nil =>
    cases linked
    exact sound
  | cons decl rest inductionHypothesis =>
    rcases Outcome.bind_eq_ok_iff.mp linked with ⟨⟨⟩, numbered, linked⟩
    rcases Outcome.bind_eq_ok_iff.mp linked with ⟨⟨⟩, distinct, linked⟩
    rcases Outcome.bind_eq_ok_iff.mp linked with ⟨⟨shape, added⟩, shaped, linked⟩
    exact inductionHypothesis (fun other member => declared other (List.mem_cons_of_mem _ member))
      (sound.step (declared decl List.mem_cons_self) numbered distinct shaped) linked

end SchemaRecords.Schema
