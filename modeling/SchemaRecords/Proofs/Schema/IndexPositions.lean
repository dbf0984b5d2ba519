import Mathlib.Data.List.NodupEquivFin
import SchemaRecords.Proofs.Registration
import SchemaRecords.Proofs.Schema.PlainNames

/-!
# Positions of messages

A message has a position if one can descend to it from a unit, counting the messages that are
listed side by side.  Resolving an index path is such a descent.  Finding the path of a message is
the climb back: at each step the message is looked up among its siblings, and since a message is
listed only once, it is found where the descent picked it.

Two facts about registered units are needed beyond that the pool is well formed.  A message lies
in the same unit as the message around it, so the climb ends in the unit that the message itself
names.  And no full name begins with a dot, so a message is found under its full name.
-/

namespace SchemaRecords.Schema

/-! ## Units and names -/

/-- Messages inside of each other belong to one unit, and full names are plain. -/
structure Pool.Orderly (pool : Pool) : Prop where
  family : ∀ message ∈ pool.messages, ∀ id outer, message.parent = some id →
    pool.message? id = some outer → outer.unit = message.unit
  names : ∀ fullName symbol, pool.symbols.find? fullName = some symbol → Plain fullName

namespace Linked

variable {pool : Pool} {unitName : String} {file : FileDecl} {imports : List (UnitId × Bool)}
  {messages entries : List Message}

/-- What is linked belongs to the new unit. -/
theorem unit_of_message (run : Linked pool unitName file imports messages entries)
    {message : Message} (member : message ∈ messages ++ entries) :
    message.unit = ⟨pool.units.length⟩ := by
  rcases List.mem_append.mp member with linked | entry
  · rcases List.mem_iff_getElem?.mp linked with ⟨position, found⟩
    rcases run.item_of_message found with ⟨_, _, _, _, _, _, _, _, same⟩
    exact same ▸ rfl
  · rcases run.sound.entries message entry with ⟨_, _, _, _, _, _, _, _, same⟩
    exact same ▸ rfl

/-- The message around one that is linked is linked too. -/
theorem outer_of_message (run : Linked pool unitName file imports messages entries)
    {message : Message} (member : message ∈ messages ++ entries) {id : MessageId}
    (isParent : message.parent = some id) :
    ∃ outer ∈ messages, run.grown.message? id = some outer := by
  rcases List.mem_append.mp member with linked | entry
  · rcases List.mem_iff_getElem?.mp linked with ⟨position, found⟩
    rcases run.item_of_message found with ⟨item, listed, _, _, _, _, _, _, same⟩
    have itsParent : item.parent = some id := by
      rw [same] at isParent
      exact isParent
    rcases run.forest.parents item listed with ⟨noParent, _⟩ | ⟨outer, outlined, isOuter, _⟩
    · rw [noParent] at itsParent
      cases itsParent
    · cases isOuter.symm.trans itsParent
      rcases run.message_of_item outlined with ⟨linkedOuter, among, there, _⟩
      exact ⟨linkedOuter, among, there⟩
  · rcases run.sound.entries message entry with ⟨item, listed, _, _, _, _, _, _, same⟩
    rw [same] at isParent
    cases isParent
    rcases run.message_of_item listed with ⟨linkedOuter, among, there, _⟩
    exact ⟨linkedOuter, among, there⟩

theorem orderly (run : Linked pool unitName file imports messages entries) (named : file.Named)
    (orderly : pool.Orderly) : run.grown.Orderly where
  family := by
    intro message member id outer isParent found
    rcases List.mem_append.mp member with old | new
    · rcases (run.wellFormed.messages message old).parent id isParent with ⟨_, known, there, _⟩
      cases (run.kept.message id known there).symm.trans found
      exact orderly.family message old id outer isParent there
    · rcases run.outer_of_message new isParent with ⟨known, among, there⟩
      cases there.symm.trans found
      rw [run.unit_of_message new, run.unit_of_message (List.mem_append_left _ among)]
  names := by
    intro fullName symbol found
    rcases (Pool.find?_symbols_commit run.fresh _ _).mp found with new | old
    · rcases List.mem_map.mp new with ⟨item, listed, same⟩
      cases same
      exact FileDecl.outline_plain named _ item listed
    · exact orderly.names fullName symbol old

end Linked

theorem Pool.orderly_registerAll (attempts : List (String × String)) :
    (registerAll attempts).Orderly := by
  apply registerAll_induction
  · exact ⟨fun _ member => (nomatch member), fun _ _ found => (nomatch found)⟩
  · intro pool grown name text wellFormed orderly added
    rcases linked_of_addUnit wellFormed added with ⟨schema, _, _, _, read, run, _, same⟩
    exact same ▸ run.orderly (SchemaText.named_of_read read) orderly

theorem withoutLeadingDot_of_plain {name : String} (plain : Plain name) :
    Pool.withoutLeadingDot name = name := by
  rcases plain with ⟨first, rest, same, notDot⟩
  unfold Pool.withoutLeadingDot
  rw [same]
  split
  · rename_i isDot
    cases isDot
    exact absurd rfl notDot
  · rfl

/-- A message is found under its full name. -/
theorem Pool.Orderly.findMessage? {pool : Pool} (orderly : pool.Orderly)
    (wellFormed : pool.WellFormed) {id : MessageId} {message : Message}
    (found : pool.message? id = some message) (notEntry : message.isMapEntry = false) :
    pool.findMessage? message.fullName = some message := by
  have named := (wellFormed.symbols message.fullName (.message id)).mpr
    ⟨message, found, rfl, notEntry⟩
  simp only [Pool.findMessage?, withoutLeadingDot_of_plain (orderly.names _ _ named), named, found]

/-! ## Descending -/

/-- A message that one descends to from a unit, always counting what is listed side by side. -/
inductive Pool.LeadsTo (pool : Pool) (unitName : String) : List Nat → Message → Prop
  | root {unit : SchemaUnit} {index : Nat} {id : MessageId} {message : Message}
      (known : pool.unit? unitName = some unit) (listed : unit.messages[index]? = some id)
      (found : pool.message? id = some message) : LeadsTo pool unitName [index] message
  | inside {positions : List Nat} {outer message : Message} {index : Nat} {id : MessageId}
      (reached : LeadsTo pool unitName positions outer)
      (listed : outer.nestedMessages[index]? = some id)
      (found : pool.message? id = some message) :
      LeadsTo pool unitName (positions ++ [index]) message

/-- The index path of a position. -/
def indexPath (positions : List Nat) : List Int := positions.map Int.ofNat

namespace Pool.LeadsTo

variable {pool : Pool} {unitName : String} {positions : List Nat} {message : Message}

theorem ne_nil (reached : pool.LeadsTo unitName positions message) : indexPath positions ≠ [] := by
  cases reached with
  | root => exact List.cons_ne_nil _ _
  | inside => simp [indexPath]

theorem found (reached : pool.LeadsTo unitName positions message) :
    ∃ id, pool.message? id = some message := by
  cases reached with
  | root _ _ found => exact ⟨_, found⟩
  | inside _ _ found => exact ⟨_, found⟩

theorem notEntry (reached : pool.LeadsTo unitName positions message)
    (wellFormed : pool.WellFormed) : message.isMapEntry = false := by
  cases reached with
  | root known listed found =>
    rcases Option.bind_eq_some_iff.mp known with ⟨place, _, there⟩
    rcases (wellFormed.units place _ there).messages _ (List.mem_of_getElem? listed) with
      ⟨other, same, _, _, notEntry⟩
    cases same.symm.trans found
    exact notEntry
  | inside reached listed found =>
    rcases reached.found with ⟨id, there⟩
    rcases (wellFormed.messages _ (List.mem_of_getElem? there)).nested _
      (List.mem_of_getElem? listed) with ⟨other, same, notEntry, _⟩
    cases same.symm.trans found
    exact notEntry

/-- Resolving the path of a position leads to its message, and goes on from there. -/
theorem resolve (reached : pool.LeadsTo unitName positions message) (below : List Int) :
    pool.resolve unitName (indexPath positions ++ below) =
      pool.descend message positions.length below := by
  induction reached generalizing below with
  | @root unit index id message known listed found =>
    have picked : pool.messageAt? unit.messages (Int.ofNat index) = some message := by
      rw [messageAt?, elementAt?, listed, Option.bind_some, found]
    simp only [indexPath, List.map_cons, List.map_nil, List.cons_append, List.nil_append,
      Pool.resolve, known, List.headD_cons, picked, List.tail_cons, List.length_singleton]
  | @inside positions outer message index id _ listed found inductionHypothesis =>
    have picked : pool.messageAt? outer.nestedMessages (Int.ofNat index) = some message := by
      rw [messageAt?, elementAt?, listed, Option.bind_some, found]
    rw [indexPath, List.map_append, List.append_assoc, ← indexPath, inductionHypothesis]
    simp only [List.map_cons, List.map_nil, List.cons_append, List.nil_append, descend, picked,
      List.length_append, List.length_singleton]

/-- Whatever is resolved has a position, and only its index path leads there from a message. -/
theorem of_descend {outer : Message} (reached : pool.LeadsTo unitName positions outer)
    {count : Nat} {path : List Int} (resolved : pool.descend outer count path = .ok message) :
    ∃ more, path = indexPath more ∧ pool.LeadsTo unitName (positions ++ more) message := by
  induction path generalizing positions outer count with
  | nil =>
    cases resolved
    exact ⟨[], rfl, (List.append_nil positions).symm ▸ reached⟩
  | cons index rest inductionHypothesis =>
    rw [descend] at resolved
    split at resolved
    · cases resolved
    · rename_i inner picked
      rcases Option.bind_eq_some_iff.mp picked with ⟨id, listed, found⟩
      cases index with
      | negSucc index => cases listed
      | ofNat index =>
        rcases inductionHypothesis (reached.inside listed found) resolved with
          ⟨more, same, further⟩
        rw [List.append_assoc, List.singleton_append] at further
        exact ⟨index :: more, congrArg _ same, further⟩

theorem of_resolve {path : List Int} (given : path ≠ [])
    (resolved : pool.resolve unitName path = .ok message) :
    ∃ positions, path = indexPath positions ∧ pool.LeadsTo unitName positions message := by
  rcases List.exists_cons_of_ne_nil given with ⟨index, rest, same⟩
  subst same
  unfold Pool.resolve at resolved
  split at resolved
  · cases resolved
  · rename_i unit known
    split at resolved
    · cases resolved
    · rename_i first picked
      rcases Option.bind_eq_some_iff.mp picked with ⟨id, listed, found⟩
      rw [List.headD_cons] at listed
      cases index with
      | negSucc index => cases listed
      | ofNat index =>
        rcases (LeadsTo.root known listed found).of_descend resolved with ⟨more, same, further⟩
        exact ⟨index :: more, congrArg _ same, further⟩

end Pool.LeadsTo

/-- Whatever is resolved is a message that is no entry.  The empty path is a short form of the
path to the first message. -/
theorem Pool.exists_of_resolve {pool : Pool} (wellFormed : pool.WellFormed) {unitName : String}
    {path : List Int} {message : Message} (resolved : pool.resolve unitName path = .ok message) :
    ∃ id, pool.message? id = some message ∧ message.isMapEntry = false := by
  have reached : ∃ positions, pool.LeadsTo unitName positions message := by
    cases path with
    | nil =>
      have first : pool.resolve unitName [0] = .ok message := resolved
      rcases LeadsTo.of_resolve (List.cons_ne_nil _ _) first with ⟨positions, _, reached⟩
      exact ⟨positions, reached⟩
    | cons index rest =>
      rcases LeadsTo.of_resolve (List.cons_ne_nil _ _) resolved with ⟨positions, _, reached⟩
      exact ⟨positions, reached⟩
  rcases reached with ⟨positions, reached⟩
  rcases reached.found with ⟨id, found⟩
  exact ⟨id, found, reached.notEntry wellFormed⟩

/-- Every message that is no entry has a position in its own unit, by induction on its place. -/
theorem Pool.Orderly.exists_leadsTo {pool : Pool} (orderly : pool.Orderly)
    (wellFormed : pool.WellFormed) (place : Nat) {message : Message}
    (found : pool.message? ⟨place⟩ = some message) (notEntry : message.isMapEntry = false) :
    ∃ unit positions, pool.unitAt? message.unit = some unit ∧
      pool.unit? unit.name = some unit ∧ pool.LeadsTo unit.name positions message := by
  induction place using Nat.strongRecOn generalizing message with
  | ind place inductionHypothesis =>
    have itself := wellFormed.places _ _ found
    have facts := wellFormed.messages message (List.mem_of_getElem? found)
    cases isParent : message.parent with
    | none =>
      rcases facts.root isParent with ⟨_, unit, there, once⟩
      have known : pool.unit? unit.name = some unit :=
        Option.bind_eq_some_iff.mpr
          ⟨_, (wellFormed.unitsByName _ _).mpr ⟨unit, there, rfl⟩, there⟩
      have listed : message.id ∈ unit.messages := List.count_pos_iff.mp (by omega)
      rcases List.mem_iff_getElem?.mp listed with ⟨index, there'⟩
      exact ⟨unit, [index], there, known, .root known there' (itself ▸ found)⟩
    | some id =>
      rcases facts.parent id isParent with ⟨before, outer, there, outerNotEntry, inside⟩
      rw [itself] at before
      rcases inductionHypothesis id.index before there outerNotEntry with
        ⟨unit, positions, unitThere, known, reached⟩
      rcases List.mem_iff_getElem?.mp (inside notEntry) with ⟨index, listed⟩
      rw [orderly.family message (List.mem_of_getElem? found) id outer isParent there] at unitThere
      exact ⟨unit, positions ++ [index], unitThere, known,
        reached.inside listed (itself ▸ found)⟩

/-! ## Climbing -/

/-- An element that is listed once is found where it is listed. -/
theorem idxOf?_of_count_eq_one {ids : List MessageId} {id : MessageId} {index : Nat}
    (once : ids.count id = 1) (listed : ids[index]? = some id) : ids.idxOf? id = some index := by
  rcases List.getElem?_eq_some_iff.mp listed with ⟨inRange, there⟩
  refine List.idxOf?_eq_some_iff.mpr ⟨inRange, there, fun earlier before same => ?_⟩
  have twice : List.Duplicate id ids := List.duplicate_iff_exists_distinct_get.mpr
    ⟨⟨earlier, before.trans inRange⟩, ⟨index, inRange⟩, before, same.symm, there.symm⟩
  have := List.duplicate_iff_two_le_count.mp twice
  omega

/-- The climb from a message ends with the path of its position, however high it may go.  By
induction on the position: the message around another one stands at an earlier place. -/
theorem Pool.LeadsTo.climb {pool : Pool} {unitName : String} (wellFormed : pool.WellFormed)
    {positions : List Nat} {message : Message}
    (reached : pool.LeadsTo unitName positions message) {height : Nat}
    (enough : message.id.index < height) (below : List Int) :
    pool.climb height message below = some (indexPath positions ++ below) := by
  induction reached generalizing height below with
  | @root unit index id message known listed found =>
    rcases Option.bind_eq_some_iff.mp known with ⟨place, _, there⟩
    have itself := wellFormed.places _ _ found
    rcases (wellFormed.units place unit there).messages id (List.mem_of_getElem? listed) with
      ⟨other, same, isUnit, noParent, _⟩
    cases same.symm.trans found
    rcases (wellFormed.messages message (List.mem_of_getElem? found)).root noParent with
      ⟨_, itsUnit, unitThere, once⟩
    rw [isUnit, there] at unitThere
    cases unitThere
    have siblings : pool.siblings message = unit.messages := by
      simp only [Pool.siblings, noParent, isUnit, there, Option.elim_some]
    cases height with
    | zero => omega
    | succ height =>
      rw [Pool.climb, siblings, idxOf?_of_count_eq_one once (itself ▸ listed)]
      simp only [noParent]
      rfl
  | @inside positions outer message index id reached listed found inductionHypothesis =>
    rcases reached.found with ⟨place, there⟩
    have outerThere : pool.message? outer.id = some outer := wellFormed.places _ _ there ▸ there
    have itself := wellFormed.places _ _ found
    have outerFacts := wellFormed.messages outer (List.mem_of_getElem? there)
    rcases outerFacts.nested id (List.mem_of_getElem? listed) with ⟨other, same, _, isParent⟩
    cases same.symm.trans found
    have before := ((wellFormed.messages message (List.mem_of_getElem? found)).parent _ isParent).1
    have siblings : pool.siblings message = outer.nestedMessages := by
      simp only [Pool.siblings, isParent, outerThere, Option.elim_some]
    have once := List.count_eq_one_of_mem outerFacts.nestedDistinct (List.mem_of_getElem? listed)
    cases height with
    | zero => omega
    | succ height =>
      rw [Pool.climb, siblings, itself, idxOf?_of_count_eq_one once listed]
      simp only [isParent, outerThere, Option.bind_eq_bind, Option.bind_some]
      rw [inductionHypothesis (by omega), indexPath, indexPath, List.map_append, List.append_assoc]
      rfl

/-- The index path of a message is that of its position. -/
theorem Pool.LeadsTo.indexPath? {pool : Pool} {unitName : String} (wellFormed : pool.WellFormed)
    {positions : List Nat} {message : Message}
    (reached : pool.LeadsTo unitName positions message) :
    pool.indexPath? message = some (indexPath positions) := by
  rw [Pool.indexPath?, reached.notEntry wellFormed, if_neg Bool.false_ne_true,
    reached.climb wellFormed (Nat.lt_succ_self _), List.append_nil]

end SchemaRecords.Schema
