import SchemaRecords.Proofs.Schema.GivenCharacters
import SchemaRecords.Proofs.Schema.LinkedReferences

/-!
# What type references lead to

A type reference is linked to the longest scope around its message in which it names something that
can be seen, and a reference with a leading dot to just what it names.  What can be seen is what the
text declares itself, and what is declared in a unit that it imports or that such a unit passes on,
in any number of steps.  A name that belongs to any other unit neither is a target nor hides one.

Which units a unit passes on is recorded with it when it is registered, so the units that can be
seen are known from the imports that were written in the texts.
-/

namespace SchemaRecords

open Schema

/-- Whatever was registered, all references of a text that is registered are linked to what they
mean, and a text with a reference that means nothing is refused. -/
theorem addUnit_links_references (attempts : List (String × String)) {name text : String}
    {schema : SchemaText} (read : SchemaText.read text = .ok schema) :
    (∀ grown, (Pool.registerAll attempts).addUnit name text = .ok grown →
      (∃ unit, grown.unit? name = some unit ∧ ∀ other, other ∈ unit.publicDependencies ↔
        schema.file.ImportsPublicly (.registerAll attempts) other) ∧
      ∀ entry ∈ schema.file.declaredMessages, ∃ message,
        grown.findMessage? entry.1 = some message ∧ message.fullName = entry.1 ∧
          List.Forall₂ (grown.LinksField (schema.file.Sees (.registerAll attempts)) entry.1)
            entry.2.fields message.fields) ∧
      ∀ entry ∈ schema.file.declaredMessages, ∀ decl ∈ entry.2.fields, ∀ reference,
        decl.reference? = some reference →
        (∀ target, ¬ Means (schema.file.Sees (.registerAll attempts)) entry.1 reference target) →
        ∃ error, (Pool.registerAll attempts).addUnit name text = .error error := by
  have wellFormed := Pool.wellFormed_registerAll attempts
  have linked (grown : Pool) (added : (Pool.registerAll attempts).addUnit name text = .ok grown) :
      ∃ imports messages entries,
        ∃ run : Linked (.registerAll attempts) name schema.file imports messages entries,
          grown = run.grown := by
    rcases Pool.linked_of_addUnit wellFormed added with
      ⟨other, imports, messages, entries, otherRead, run, _, same⟩
    cases read.symm.trans otherRead
    exact ⟨imports, messages, entries, run, same⟩
  have messages (grown : Pool) (added : (Pool.registerAll attempts).addUnit name text = .ok grown)
      (entry : String × MessageDecl) (declared : entry ∈ schema.file.declaredMessages) :
      ∃ message, grown.findMessage? entry.1 = some message ∧ message.fullName = entry.1 ∧
        List.Forall₂ (grown.LinksField (schema.file.Sees (.registerAll attempts)) entry.1)
          entry.2.fields message.fields := by
    rcases linked grown added with ⟨_, _, _, run, rfl⟩
    exact run.exists_linked_message (Pool.passesEarlier_registerAll attempts)
      (SchemaText.named_of_read read) (Pool.orderly_registerAll attempts) declared
  refine ⟨fun grown added => ⟨?_, messages grown added⟩, ?_⟩
  · rcases linked grown added with ⟨imports, _, _, run, rfl⟩
    have named := ((wellFormed.commit run.fits).unitsByName name ⟨_⟩).mpr
      ⟨_, run.unit_found, rfl⟩
    refine ⟨_, Option.bind_eq_some_iff.mpr ⟨_, named, run.unit_found⟩, fun other => ?_⟩
    exact mem_publicDependencies run.resolved
  · intro entry declared decl member reference isReference meaningless
    cases outcome : (Pool.registerAll attempts).addUnit name text with
    | error error => exact ⟨error, rfl⟩
    | ok grown =>
      rcases messages grown outcome entry declared with ⟨message, _, _, each⟩
      rcases List.mem_iff_getElem.mp member with ⟨position, inside, rfl⟩
      have inFields : position < message.fields.length := each.length_eq ▸ inside
      -- The linked field names what the reference means, and there is nothing of that kind.
      rcases (each.get inside inFields).reference reference isReference with ⟨target, _, means, _⟩
      exact absurd means (meaningless target)

/-- Three units, of which the second passes on the first and the third has a name that is found
before the one of the first where both can be seen. -/
def scopedAttempts : List (String × String) :=
  [("base.proto", "package p;message M\x7b\x7d"),
    ("mid.proto", "import public \"base.proto\";"),
    ("hidden.proto", "package p.q;message M\x7b\x7d")]

/-- The third unit is out of sight, so the first field refers to the message of the first one. -/
theorem addUnit_links_references_scoped : ∃ schema grown message base,
    SchemaText.read "package p.q;import \"mid.proto\";message T\x7boptional M m=1;map<int32,.p.M> n=2;\x7d" =
      .ok schema ∧
      (Pool.registerAll scopedAttempts).addUnit "top.proto"
        "package p.q;import \"mid.proto\";message T\x7boptional M m=1;map<int32,.p.M> n=2;\x7d" =
        .ok grown ∧
      grown.findMessage? "p.q.T" = some message ∧ grown.findMessage? "p.M" = some base ∧
      (message.fields.map (·.type)).head? = some (.message base.id) ∧
      ∃ entry ∈ schema.file.declaredMessages, entry.1 = "p.q.T" ∧
        List.Forall₂ (grown.LinksField (schema.file.Sees (.registerAll scopedAttempts)) "p.q.T")
          entry.2.fields message.fields := by
  have isRead : ((SchemaText.read
      "package p.q;import \"mid.proto\";message T\x7boptional M m=1;map<int32,.p.M> n=2;\x7d").toOption.map
        fun schema => schema.file.declaredMessages.map (·.1)) = some ["p.q.T"] := by
    rw [SchemaText.read_ofList]
    decide +kernel
  have isAdded : (((Pool.registerAll scopedAttempts).addUnit "top.proto"
      "package p.q;import \"mid.proto\";message T\x7boptional M m=1;map<int32,.p.M> n=2;\x7d").toOption.map
        fun grown => ((grown.findMessage? "p.q.T").map fun message => message.fields.map (·.type),
          (grown.findMessage? "p.M").map (·.id))) =
      some (some [.message ⟨0⟩, .message ⟨3⟩], some ⟨0⟩) := by
    simp only [scopedAttempts, Pool.registerAll, List.foldl_cons, List.foldl_nil]
    rw [Pool.register_ofList, Pool.register_ofList, Pool.register_ofList, Pool.addUnit_ofList]
    decide +kernel
  rcases Option.map_eq_some_iff.mp isRead with ⟨schema, isSchema, names⟩
  rcases Option.map_eq_some_iff.mp isAdded with ⟨grown, isGrown, shown⟩
  have read := Outcome.toOption_eq_some_iff.mp isSchema
  have added := Outcome.toOption_eq_some_iff.mp isGrown
  rcases Prod.mk.inj shown with ⟨types, isBase⟩
  rcases Option.map_eq_some_iff.mp types with ⟨message, found, types⟩
  rcases Option.map_eq_some_iff.mp isBase with ⟨base, baseFound, place⟩
  rcases List.map_eq_singleton_iff.mp names with ⟨entry, whole, isName⟩
  have declared : entry ∈ schema.file.declaredMessages := whole ▸ List.mem_singleton_self entry
  rcases ((addUnit_links_references scopedAttempts read).1 grown added).2 entry declared with
    ⟨other, otherFound, _, each⟩
  rw [isName] at otherFound each
  cases found.symm.trans otherFound
  refine ⟨schema, grown, message, base, read, added, found, baseFound, ?_, entry, declared, isName,
    each⟩
  rw [types, place]
  rfl

end SchemaRecords
