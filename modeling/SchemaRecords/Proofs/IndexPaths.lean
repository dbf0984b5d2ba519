import SchemaRecords.Proofs.Registration
import SchemaRecords.Proofs.Schema.DeclaredPaths
import SchemaRecords.Proofs.Schema.GivenCharacters
import SchemaRecords.Proofs.Schema.IndexPositions

/-!
# Index paths of registered units

Every unit of a pool goes back to one attempt that succeeded, and the text of this attempt says
what the index paths of the unit lead to.  Nothing that is registered later changes it.

Finding the path of a message and resolving a path are inverse to each other.  Neither the text
nor the history of the pool matters for this.
-/

namespace SchemaRecords

open SchemaRecords.Schema

/-! ## Registered texts -/

/-- A file is what some text declares that was registered under a name. -/
def Registered (attempts : List (String × String)) (unitName : String) (file : FileDecl) : Prop :=
  ∃ before text after schema grown, attempts = before ++ (unitName, text) :: after ∧
    (Pool.registerAll before).addUnit unitName text = .ok grown ∧
    SchemaText.read text = .ok schema ∧ schema.file = file

namespace Registered

variable {attempts : List (String × String)} {unitName : String} {file : FileDecl}

theorem append (registered : Registered attempts unitName file) (later : List (String × String)) :
    Registered (attempts ++ later) unitName file := by
  rcases registered with ⟨before, text, after, schema, grown, split, facts⟩
  refine ⟨before, text, after ++ later, schema, grown, ?_, facts⟩
  rw [split, List.append_assoc, List.cons_append]

/-- The unit of a registered file lists the places of its messages, and the pool holds the
outline that gave these places out. -/
theorem exists_unit (registered : Registered attempts unitName file) :
    ∃ cursor unit, (Pool.registerAll attempts).unit? unitName = some unit ∧
      unit.messages = messageIds cursor.message file.messages ∧
      (Pool.registerAll attempts).Holds (file.outline cursor) := by
  rcases registered with ⟨before, text, after, schema, grown, split, added, read, same⟩
  subst split same
  rcases Pool.linked_of_addUnit (Pool.wellFormed_registerAll before) added with
    ⟨_, imports, messages, entries, readHere, run, _, isGrown⟩
  cases read.symm.trans readHere
  have registered : (Pool.registerAll (before ++ [(unitName, text)])) = run.grown := by
    rw [Pool.registerAll_concat, Pool.register, added, isGrown]
  have kept := Pool.registerAll_extends (before ++ [(unitName, text)]) after
  rw [registered, List.append_assoc, List.singleton_append] at kept
  have named : run.grown.unitsByName.find? unitName = some ⟨(Pool.registerAll before).units.length⟩ :=
    (Pool.find?_unitsByName_commit run.fresh _ _).mpr (Or.inl ⟨rfl, rfl⟩)
  have found := Option.bind_eq_some_iff.mpr ⟨_, named, run.unit_found⟩
  exact ⟨_, _, kept.unit? found, rfl, run.holds.mono kept⟩

end Registered

/-- A pool knows the units that some text was registered as, by induction on the attempts. -/
theorem unit?_registerAll_isSome_iff (attempts : List (String × String)) (unitName : String) :
    ((Pool.registerAll attempts).unit? unitName).isSome = true ↔
      ∃ file, Registered attempts unitName file := by
  constructor
  · induction attempts using List.reverseRecOn with
    | nil =>
      intro known
      cases known
    | append_singleton attempts attempt inductionHypothesis =>
      rcases attempt with ⟨name, text⟩
      have before (known : ((Pool.registerAll attempts).unit? unitName).isSome = true) :
          ∃ file, Registered (attempts ++ [(name, text)]) unitName file :=
        (inductionHypothesis known).imp fun file registered => registered.append _
      rw [Pool.registerAll_concat, Pool.register]
      intro known
      cases added : (Pool.registerAll attempts).addUnit name text with
      | error refusal =>
        rw [added] at known
        exact before known
      | ok grown =>
        rw [added] at known
        rcases Pool.linked_of_addUnit (Pool.wellFormed_registerAll attempts) added with
          ⟨schema, imports, messages, entries, read, run, _, isGrown⟩
        subst isGrown
        rcases Option.isSome_iff_exists.mp known with ⟨unit, found⟩
        rcases Option.bind_eq_some_iff.mp found with ⟨id, named, _⟩
        rcases (Pool.find?_unitsByName_commit run.fresh _ _).mp named with ⟨same, _⟩ | old
        · have isName : unitName = name := same
          subst isName
          exact ⟨schema.file, attempts, text, [], schema, _, rfl, added, read, rfl⟩
        · rcases ((Pool.wellFormed_registerAll attempts).unitsByName _ _).mp old with
            ⟨other, there, _⟩
          exact before (Option.isSome_iff_exists.mpr
            ⟨other, Option.bind_eq_some_iff.mpr ⟨id, old, there⟩⟩)
  · rintro ⟨file, registered⟩
    rcases registered.exists_unit with ⟨_, unit, found, _⟩
    exact Option.isSome_iff_exists.mpr ⟨unit, found⟩

/-! ## Resolving -/

/-- A path whose first index is given selects what it selects in the text. -/
theorem selects_of_holds {pool : Pool} {unitName : String} {file : FileDecl} {cursor : Cursor}
    {unit : SchemaUnit} (found : pool.unit? unitName = some unit)
    (roots : unit.messages = messageIds cursor.message file.messages)
    (holds : pool.Holds (file.outline cursor)) {path : List Int} (given : path ≠ []) :
    file.Selects path ((pool.resolve unitName path).map (·.fullName)) := by
  rcases List.exists_cons_of_ne_nil given with ⟨index, rest, same⟩
  subst same
  have inside : outlineMessages file.scope none
      ⟨cursor.message, cursor.enumeration + file.enums.length⟩ file.messages ⊆
        file.outline cursor :=
    List.subset_append_right _ _
  simp only [Pool.resolve, found, List.headD_cons, List.tail_cons, roots]
  cases picked : elementAt? file.messages index with
  | none =>
    simp only [Pool.messageAt?, elementAt?_messageIds_eq_none picked, Option.bind_none]
    apply FileDecl.Selects.lost (Nat.succ_pos _) rfl
    simp only [List.take_succ_cons, followPath?, picked]
  | some decl =>
    rcases holds.messageAt? inside picked with
      ⟨place, message, outlined, reached, fullName, nested⟩
    simp only [reached]
    cases followed : followPath? decl.messages rest with
    | some names =>
      rw [holds.descend_followed outlined fullName nested 1 followed, ← List.foldl_cons]
      apply FileDecl.Selects.found
      simp only [followPath?, picked, followed, Option.map_some]
    | none =>
      rcases exists_lost_position followed with ⟨position, within, before, here⟩
      rw [holds.descend_lost outlined nested 1 before here, Nat.add_comm]
      apply FileDecl.Selects.lost (Nat.succ_lt_succ within)
      · simpa only [List.take_succ_cons, followPath?, picked, Option.isSome_map] using before
      · simpa only [List.take_succ_cons, followPath?, picked, Option.map_eq_none_iff] using here

/-- The units of a pool are those that some text was registered as, and an index path selects
in a unit what it selects in the declarations of the text.  The empty path means the first
message.  Later attempts change neither. -/
theorem resolve_selects (attempts : List (String × String)) (unitName : String) :
    (((Pool.registerAll attempts).unit? unitName).isSome = true ↔
        ∃ file, Registered attempts unitName file) ∧
      ∀ file, Registered attempts unitName file → ∀ later path,
        file.Selects (if path = [] then [0] else path)
          (((Pool.registerAll (attempts ++ later)).resolve unitName path).map (·.fullName)) := by
  refine ⟨unit?_registerAll_isSome_iff attempts unitName, fun file registered later path => ?_⟩
  rcases (registered.append later).exists_unit with ⟨cursor, unit, found, roots, holds⟩
  by_cases empty : path = []
  · subst empty
    exact selects_of_holds found roots holds (List.cons_ne_nil 0 [])
  · rw [if_neg empty]
    exact selects_of_holds found roots holds empty

/-- A unit with an enumeration and a map field among its messages. -/
def shapeAttempts : List (String × String) :=
  [("shapes.proto", "package shapes;enum Kind\x7bFLAT=0;\x7dmessage Point\x7bmap<int32,string> tags=1;enum Axis\x7bX=0;\x7dmessage Offset\x7b\x7dmessage Frame\x7bmessage Corner\x7b\x7d\x7d\x7dmessage Line\x7b\x7d")]

/-- Paths of a unit when another one has been registered behind it. -/
theorem resolve_selects_shapes :
    ∃ file, Registered shapeAttempts "shapes.proto" file ∧
      file.Selects [0, 1, 0] (.ok "shapes.Point.Frame.Corner") ∧
      file.Selects [0] (.ok "shapes.Point") ∧
      file.Selects [0, 2] (.error (.indexOutOfRange 1)) ∧
      file.Selects [1, -1, 0] (.error (.indexOutOfRange 1)) := by
  have isKnown : ((Pool.registerAll shapeAttempts).unit? "shapes.proto").isSome = true := by
    rw [shapeAttempts, Pool.registerAll_ofList]
    decide +kernel
  rcases (resolve_selects shapeAttempts "shapes.proto").1.mp isKnown with ⟨file, registered⟩
  have selects := (resolve_selects shapeAttempts "shapes.proto").2 file registered
    [("lines.proto", "message Line\x7b\x7d")]
  have resolved : [[0, 1, 0], [], [0, 2], [1, -1, 0]].map (fun path =>
      ((Pool.registerAll (shapeAttempts ++ [("lines.proto", "message Line\x7b\x7d")])).resolve
        "shapes.proto" path).map (·.fullName)) =
      [.ok "shapes.Point.Frame.Corner", .ok "shapes.Point", .error (.indexOutOfRange 1),
        .error (.indexOutOfRange 1)] := by
    rw [Pool.registerAll_concat, Pool.register_ofList, shapeAttempts, Pool.registerAll_ofList]
    decide +kernel
  simp only [List.map_cons, List.cons.injEq] at resolved
  rcases resolved with ⟨deep, first, beyond, negative, _⟩
  exact ⟨file, registered, deep ▸ selects [0, 1, 0], first ▸ selects [], beyond ▸ selects [0, 2],
    negative ▸ selects [1, -1, 0]⟩

/-! ## Finding paths -/

/-- A path selects a message in the unit that the message belongs to, and the climb from the
message ends with this path however high it may go. -/
structure Schema.Pool.IsPathOf (pool : Pool) (path : List Int) (message : Message) : Prop where
  nonempty : path ≠ []
  nonnegative : ∀ index ∈ path, 0 ≤ index
  resolved : ∃ unit, pool.unitAt? message.unit = some unit ∧ pool.unit? unit.name = some unit ∧
    pool.resolve unit.name path = .ok message
  climbed : ∀ height, message.id.index < height → pool.climb height message [] = some path

/-- Every message that is found by name has an index path, which selects it in its own unit.  And
a path that selects a message in any unit is the index path of this message. -/
theorem messageIndex?_resolve (attempts : List (String × String)) :
    (∀ name message, (Pool.registerAll attempts).findMessage? name = some message →
      message.fullName = Pool.withoutLeadingDot name ∧
        ∃ path, (Pool.registerAll attempts).messageIndex? name = some path ∧
          (Pool.registerAll attempts).IsPathOf path message) ∧
      ∀ unitName path message, path ≠ [] →
        (Pool.registerAll attempts).resolve unitName path = .ok message →
          (Pool.registerAll attempts).messageIndex? message.fullName = some path := by
  have wellFormed := Pool.wellFormed_registerAll attempts
  have orderly := Pool.orderly_registerAll attempts
  constructor
  · intro name message found
    rcases wellFormed.exists_of_findMessage? found with ⟨id, there, notEntry⟩
    rcases orderly.exists_leadsTo wellFormed id.index there notEntry with
      ⟨unit, positions, unitThere, known, reached⟩
    refine ⟨wellFormed.fullName_of_findMessage? found, indexPath positions, ?_, ?_⟩
    · rw [Pool.messageIndex?, found, Option.bind_some, reached.indexPath? wellFormed]
    · have resolved := reached.resolve []
      rw [List.append_nil] at resolved
      refine ⟨reached.ne_nil, ?_, ⟨unit, unitThere, known, resolved⟩, fun height enough => ?_⟩
      · intro index member
        rcases List.mem_map.mp member with ⟨position, _, same⟩
        exact same ▸ Int.natCast_nonneg position
      · rw [reached.climb wellFormed enough, List.append_nil]
  · intro unitName path message given resolved
    rcases Pool.LeadsTo.of_resolve given resolved with ⟨positions, same, reached⟩
    rcases reached.found with ⟨id, there⟩
    rw [Pool.messageIndex?, orderly.findMessage? wellFormed there (reached.notEntry wellFormed),
      Option.bind_some, reached.indexPath? wellFormed, same]

theorem messageIndex?_resolve_shapes :
    ∃ message, (Pool.registerAll shapeAttempts).findMessage? ".shapes.Point.Frame" = some message ∧
      (Pool.registerAll shapeAttempts).IsPathOf [0, 1] message ∧
      (Pool.registerAll shapeAttempts).messageIndex? message.fullName = some [0, 1] := by
  have isResolved : ((Pool.registerAll shapeAttempts).resolve "shapes.proto" [0, 1]).toOption =
      (Pool.registerAll shapeAttempts).findMessage? ".shapes.Point.Frame" ∧
      (Pool.registerAll shapeAttempts).messageIndex? ".shapes.Point.Frame" = some [0, 1] := by
    rw [shapeAttempts, Pool.registerAll_ofList]
    decide +kernel
  rcases isResolved with ⟨same, isIndex⟩
  rcases Option.bind_eq_some_iff.mp isIndex with ⟨message, found, _⟩
  have resolved := Outcome.toOption_eq_some_iff.mp (same.trans found)
  rcases (messageIndex?_resolve shapeAttempts).1 _ message found with ⟨_, path, isPath, leads⟩
  cases isPath.symm.trans isIndex
  exact ⟨message, found, leads,
    (messageIndex?_resolve shapeAttempts).2 _ _ message (List.cons_ne_nil _ _) resolved⟩

end SchemaRecords
