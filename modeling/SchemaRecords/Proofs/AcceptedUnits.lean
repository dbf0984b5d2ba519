import SchemaRecords.Proofs.Schema.GivenCharacters
import SchemaRecords.Proofs.Schema.LinkableUnits
import SchemaRecords.Proofs.Schema.RegularMessages

/-!
# Units that are accepted

Whether a text is registered under a new name is decided by what it declares: its imports, the
names and numbers in it, and the types that it refers to.  The text must be readable, but how it is
written does not matter otherwise.  A text that is refused leaves everything as it was, so the name
can be given to any text that could have had it before.
-/

namespace SchemaRecords

open Schema

/-- Whatever was registered, a readable text is registered under a new name exactly if all that it
declares can be linked, and a refusal changes nothing. -/
theorem addUnit_accepts_iff (attempts : List (String × String)) {name text : String}
    {schema : SchemaText} (new : (Pool.registerAll attempts).unit? name = none)
    (read : SchemaText.read text = .ok schema) :
    ((∃ grown, (Pool.registerAll attempts).addUnit name text = .ok grown) ↔
        schema.file.Linkable (.registerAll attempts)) ∧
      ∀ error, (Pool.registerAll attempts).addUnit name text = .error error →
        Pool.registerAll (attempts ++ [(name, text)]) = .registerAll attempts ∧
          (Pool.registerAll (attempts ++ [(name, text)])).unit? name = none ∧
          ∀ other otherSchema, SchemaText.read other = .ok otherSchema →
            ((∃ grown, (Pool.registerAll (attempts ++ [(name, text)])).addUnit name other =
                .ok grown) ↔
              otherSchema.file.Linkable (.registerAll attempts)) := by
  have wellFormed := Pool.wellFormed_registerAll attempts
  have earlier := Pool.passesEarlier_registerAll attempts
  refine ⟨Pool.addUnit_eq_ok_iff wellFormed earlier new read, fun error refused => ?_⟩
  have unchanged : Pool.registerAll (attempts ++ [(name, text)]) = .registerAll attempts := by
    rw [Pool.registerAll_concat, Pool.register, refused]
  rw [unchanged]
  exact ⟨rfl, new, fun other otherSchema otherRead =>
    Pool.addUnit_eq_ok_iff wellFormed earlier new otherRead⟩

/-- Of two texts for the same name the first refers to a type that is not imported. -/
theorem addUnit_accepts_tree : ∃ schema otherSchema,
    SchemaText.read "message Tree\x7bNode root=1;\x7d" = .ok schema ∧
      SchemaText.read "import \"node.proto\";message Tree\x7bNode root=1;\x7d" = .ok otherSchema ∧
      ¬ schema.file.Linkable (.registerAll nodeAttempts) ∧
      otherSchema.file.Linkable (.registerAll nodeAttempts) ∧
      Pool.registerAll
        (nodeAttempts ++ [("tree.proto", "message Tree\x7bNode root=1;\x7d")]) =
          .registerAll nodeAttempts ∧
      ∃ grown, (Pool.registerAll
        (nodeAttempts ++ [("tree.proto", "message Tree\x7bNode root=1;\x7d")])).addUnit "tree.proto"
          "import \"node.proto\";message Tree\x7bNode root=1;\x7d" = .ok grown := by
  have new : (Pool.registerAll nodeAttempts).unit? "tree.proto" = none := by
    rw [nodeAttempts, Pool.registerAll_ofList]
    decide +kernel
  have refused : ((Pool.registerAll nodeAttempts).addUnit "tree.proto"
      "message Tree\x7bNode root=1;\x7d").toOption.isSome = false := by
    rw [nodeAttempts, Pool.registerAll_ofList]
    decide +kernel
  have accepted : ((Pool.registerAll nodeAttempts).addUnit "tree.proto"
      "import \"node.proto\";message Tree\x7bNode root=1;\x7d").toOption.isSome = true := by
    rw [nodeAttempts, Pool.registerAll_ofList]
    decide +kernel
  have isRead : (SchemaText.read "message Tree\x7bNode root=1;\x7d").toOption.isSome = true := by
    decide +kernel
  have otherIsRead : (SchemaText.read
      "import \"node.proto\";message Tree\x7bNode root=1;\x7d").toOption.isSome = true := by
    decide +kernel
  rcases Option.isSome_iff_exists.mp isRead with ⟨schema, isSchema⟩
  rcases Option.isSome_iff_exists.mp otherIsRead with ⟨otherSchema, isOtherSchema⟩
  rcases Option.isSome_iff_exists.mp accepted with ⟨grown, isGrown⟩
  have read := Outcome.toOption_eq_some_iff.mp isSchema
  have otherRead := Outcome.toOption_eq_some_iff.mp isOtherSchema
  rcases addUnit_accepts_iff nodeAttempts new read with ⟨linkable, failed⟩
  rcases addUnit_accepts_iff nodeAttempts new otherRead with ⟨otherLinkable, _⟩
  have isLinkable := otherLinkable.mp ⟨grown, Outcome.toOption_eq_some_iff.mp isGrown⟩
  cases outcome : (Pool.registerAll nodeAttempts).addUnit "tree.proto"
      "message Tree\x7bNode root=1;\x7d" with
  | ok other =>
    rw [outcome] at refused
    cases refused
  | error error =>
    rcases failed error outcome with ⟨unchanged, _, again⟩
    refine ⟨schema, otherSchema, read, otherRead, fun possible => ?_, isLinkable, unchanged,
      (again _ _ otherRead).mpr isLinkable⟩
    rcases linkable.mpr possible with ⟨other, added⟩
    rw [outcome] at added
    cases added

end SchemaRecords
