import Mathlib.Data.List.Basic
import Mathlib.Data.List.Nodup
import SchemaRecords.Json.Reader

/-!
# Documents have distinct keys

No object of a document has two members of one key.  The values of this library do not say
so by their type, but the documents that are read from text keep to it: members are added one
after the other, and one whose key is known replaces the value that is there.  What is proved of
documents with distinct keys holds of those without further ado.
-/

namespace SchemaRecords.Json

theorem Members.mem_insert {key : String} {value : Value} {members : Members}
    {member : String × Value} (there : member ∈ members.insert key value) :
    member = (key, value) ∨ member ∈ members := by
  induction members with
  | nil => exact Or.inl (List.mem_singleton.mp there)
  | cons first rest inductionHypothesis =>
    rw [Members.insert] at there
    split at there
    · rcases List.mem_cons.mp there with same | later
      · exact Or.inl same
      · exact Or.inr (List.mem_cons_of_mem _ later)
    · rcases List.mem_cons.mp there with same | later
      · exact Or.inr (same ▸ List.mem_cons_self)
      · exact (inductionHypothesis later).imp id (List.mem_cons_of_mem _)

theorem Members.nodup_insert {key : String} {value : Value} {members : Members}
    (distinct : (members.map (·.1)).Nodup) : ((members.insert key value).map (·.1)).Nodup := by
  induction members with
  | nil => exact List.nodup_singleton key
  | cons first rest inductionHypothesis =>
    rw [List.map_cons, List.nodup_cons] at distinct
    rw [Members.insert]
    split
    · rename_i same
      rw [List.map_cons, List.nodup_cons]
      exact ⟨same ▸ distinct.1, distinct.2⟩
    · rename_i different
      rw [List.map_cons, List.nodup_cons]
      refine ⟨fun known => ?_, inductionHypothesis distinct.2⟩
      rcases List.mem_map.mp known with ⟨member, there, same⟩
      rcases mem_insert there with isNew | old
      · rw [isNew] at same
        exact different same.symm
      · exact distinct.1 (List.mem_map.mpr ⟨member, old, same⟩)

theorem Members.insert_of_new {key : String} {value : Value} {members : Members}
    (new : key ∉ members.map (·.1)) : members.insert key value = members ++ [(key, value)] := by
  induction members with
  | nil => rfl
  | cons member rest inductionHypothesis =>
    rw [List.map_cons, List.mem_cons, not_or] at new
    rw [Members.insert, if_neg (Ne.symm new.1), inductionHypothesis new.2]
    rfl

theorem Members.mem_keys_insert {key other : String} {value : Value} {members : Members} :
    other ∈ (members.insert key value).map (·.1) ↔ other = key ∨ other ∈ members.map (·.1) := by
  induction members with
  | nil => simp [Members.insert]
  | cons member rest inductionHypothesis =>
    by_cases same : member.1 = key
    · simp [Members.insert, same]
    · simp only [Members.insert, if_neg same, List.map_cons, List.mem_cons, inductionHypothesis]
      exact or_left_comm

theorem Members.lookup_member (key other : String) (value : Value) (members : Members) :
    List.lookup other ((key, value) :: members) =
      if other = key then some value else members.lookup other := by
  rw [List.lookup_cons]
  by_cases same : other = key
  · rw [if_pos same, beq_iff_eq.mpr same]
  · rw [if_neg same, beq_eq_false_iff_ne.mpr same]

theorem Members.lookup_insert (key other : String) (value : Value) (members : Members) :
    (members.insert key value).lookup other =
      if other = key then some value else members.lookup other := by
  induction members with
  | nil => exact lookup_member key other value []
  | cons member rest inductionHypothesis =>
    rcases member with ⟨first, held⟩
    rw [Members.insert]
    by_cases isKey : first = key
    · rw [if_pos isKey, lookup_member, lookup_member, isKey]
      by_cases same : other = key
      · rw [if_pos same, if_pos same]
      · rw [if_neg same, if_neg same, if_neg same]
    · rw [if_neg isKey, lookup_member, lookup_member, inductionHypothesis]
      by_cases same : other = first
      · rw [if_pos same, if_pos same, if_neg fun isOther => isKey (same ▸ isOther)]
      · rw [if_neg same, if_neg same]

theorem Members.insert_insert_same (key : String) (first second : Value) (members : Members) :
    (members.insert key first).insert key second = members.insert key second := by
  induction members with
  | nil => simp [Members.insert]
  | cons member rest inductionHypothesis =>
    by_cases same : member.1 = key
    · simp [Members.insert, same]
    · simp [Members.insert, same, inductionHypothesis]

/-- A value for a key that is known may as well be given before another key comes. -/
theorem Members.insert_comm {key other : String} {members : Members}
    (known : key ∈ members.map (·.1)) (different : key ≠ other) (value otherValue : Value) :
    (members.insert other otherValue).insert key value =
      (members.insert key value).insert other otherValue := by
  induction members with
  | nil => cases known
  | cons member rest inductionHypothesis =>
    by_cases isKey : member.1 = key
    · have notOther : member.1 ≠ other := isKey ▸ different
      simp [Members.insert, isKey, different]
    · have later : key ∈ rest.map (·.1) :=
        (List.mem_cons.mp known).resolve_left (Ne.symm isKey)
      by_cases isOther : member.1 = other
      · simp [Members.insert, isOther, Ne.symm different]
      · simp [Members.insert, isKey, isOther, inductionHypothesis later]

theorem Members.insert_insertAll {key : String} {members : Members} {additions : Members}
    (known : key ∈ members.map (·.1)) (absent : key ∉ additions.map (·.1)) (value : Value) :
    (members.insertAll additions).insert key value =
      (members.insert key value).insertAll additions := by
  induction additions generalizing members with
  | nil => rfl
  | cons addition rest inductionHypothesis =>
    rw [List.map_cons, List.mem_cons, not_or] at absent
    have stillKnown : key ∈ (members.insert addition.1 addition.2).map (·.1) :=
      mem_keys_insert.mpr (Or.inr known)
    exact (inductionHypothesis stillKnown absent.2).trans
      (congrArg (insertAll · rest) (insert_comm known absent.1 value addition.2))

theorem Members.insertAll_ne_nil {members : Members} (some : members ≠ []) (additions : Members) :
    members.insertAll additions ≠ [] := by
  induction additions generalizing members with
  | nil => exact some
  | cons addition rest inductionHypothesis =>
    apply inductionHypothesis
    have known : addition.1 ∈ (members.insert addition.1 addition.2).map (·.1) :=
      mem_keys_insert.mpr (Or.inl rfl)
    exact fun empty => List.ne_nil_of_mem known (List.map_eq_nil_iff.mpr empty)

/-- Giving keys values and then one key another value is the same as giving all of them the
values that they have in the end. -/
theorem Members.insertAll_insert {additions : Members} (distinct : (additions.map (·.1)).Nodup)
    (members : Members) (key : String) (value : Value) :
    members.insertAll (additions.insert key value) =
      (members.insertAll additions).insert key value := by
  induction additions generalizing members with
  | nil => rfl
  | cons addition rest inductionHypothesis =>
    rcases addition with ⟨first, held⟩
    rw [List.map_cons, List.nodup_cons] at distinct
    by_cases same : first = key
    · subst same
      rw [Members.insert, if_pos rfl]
      exact (congrArg (insertAll · rest) (insert_insert_same first held value members).symm).trans
        (insert_insertAll (mem_keys_insert.mpr (Or.inl rfl)) distinct.1 value).symm
    · rw [Members.insert, if_neg same]
      exact inductionHypothesis distinct.2 _

theorem Members.insert_of_known {key : String} {members : Members}
    (distinct : (members.map (·.1)).Nodup) (known : key ∈ members.map (·.1)) (value : Value) :
    members.insert key value =
      members.map fun member => (member.1, if member.1 = key then value else member.2) := by
  induction members with
  | nil => cases known
  | cons member rest inductionHypothesis =>
    rw [List.map_cons, List.nodup_cons] at distinct
    by_cases isKey : member.1 = key
    · have others : ∀ other ∈ rest, (other.1, if other.1 = key then value else other.2) = other := by
        intro other listed
        rw [if_neg fun same => distinct.1 (List.mem_map.mpr ⟨other, listed, same.trans isKey.symm⟩)]
      rw [Members.insert, if_pos isKey, List.map_cons, if_pos isKey, List.map_congr_left others,
        List.map_id', isKey]
    · have later : key ∈ rest.map (·.1) := (List.mem_cons.mp known).resolve_left (Ne.symm isKey)
      rw [Members.insert, if_neg isKey, List.map_cons, if_neg isKey,
        inductionHypothesis distinct.2 later]

/-- What comes of giving keys values one after the other: the keys that were there keep their
places, and the new ones come last. -/
theorem Members.insertAll_eq_append {members additions : Members}
    (distinct : (members.map (·.1)).Nodup) (distinctToo : (additions.map (·.1)).Nodup) :
    members.insertAll additions =
      (members.map fun member => (member.1, (additions.lookup member.1).getD member.2)) ++
        additions.filter fun addition => addition.1 ∉ members.map (·.1) := by
  induction additions generalizing members with
  | nil => simp [Members.insertAll]
  | cons addition rest inductionHypothesis =>
    rcases addition with ⟨key, value⟩
    rw [List.map_cons, List.nodup_cons] at distinctToo
    have absent : List.lookup key rest = none := by
      rw [List.lookup_eq_none_iff]
      intro other listed
      exact bne_iff_ne.mpr fun same =>
        distinctToo.1 (List.mem_map.mpr ⟨other, listed, same.symm⟩)
    have stays : ((members.insert key value).map (·.1)).Nodup := nodup_insert distinct
    have later := inductionHypothesis stays distinctToo.2
    rw [insertAll, List.foldl_cons, ← insertAll, later]
    by_cases known : key ∈ members.map (·.1)
    · have sameKeys : (members.insert key value).map (·.1) = members.map (·.1) := by
        rw [insert_of_known distinct known, List.map_map]
        rfl
      have sameValues : ∀ member ∈ members,
          (member.1, (rest.lookup member.1).getD (if member.1 = key then value else member.2)) =
            (member.1, (List.lookup member.1 ((key, value) :: rest)).getD member.2) := by
        intro member _
        rw [lookup_member]
        by_cases isKey : member.1 = key
        · rw [if_pos isKey, if_pos isKey, isKey, absent, Option.getD_none, Option.getD_some]
        · rw [if_neg isKey, if_neg isKey]
      rw [sameKeys, List.filter_cons_of_neg (by simpa using known), insert_of_known distinct known,
        List.map_map]
      exact congrArg (· ++ _) (List.map_congr_left sameValues)
    · have sameValues : ∀ member ∈ members,
          (member.1, (rest.lookup member.1).getD member.2) =
            (member.1, (List.lookup member.1 ((key, value) :: rest)).getD member.2) := by
        intro member listed
        rw [lookup_member, if_neg fun isKey => known (List.mem_map.mpr ⟨member, listed, isKey⟩)]
      have sameOthers : ∀ other ∈ rest, decide (other.1 ∉ members.map (·.1) ++ [key]) =
          decide (other.1 ∉ members.map (·.1)) := by
        intro other listed
        have different : other.1 ≠ key := fun isKey =>
          distinctToo.1 (List.mem_map.mpr ⟨other, listed, isKey⟩)
        simp [different]
      rw [insert_of_new known, List.map_append, List.map_append, List.map_singleton,
        List.map_singleton, absent, List.filter_congr sameOthers,
        List.filter_cons_of_pos (by simpa using known), List.map_congr_left sameValues,
        List.append_assoc]
      rfl

mutual

/-- The objects in a document, itself included. -/
def objectsOf : Value → List Members
  | .object members => members :: objectsOfMembers members
  | .array items => objectsOfItems items
  | _ => []

/-- The objects in the items of an array. -/
def objectsOfItems : List Value → List Members
  | [] => []
  | item :: rest => objectsOf item ++ objectsOfItems rest

/-- The objects in the members of an object. -/
def objectsOfMembers : List (String × Value) → List Members
  | [] => []
  | (_, value) :: rest => objectsOf value ++ objectsOfMembers rest

end

/-- No object of a document has two members of one key. -/
def Value.KeysDistinct (document : Value) : Prop :=
  ∀ members ∈ objectsOf document, (members.map (·.1)).Nodup

theorem mem_objectsOfItems_iff {entries : Members} {items : List Value} :
    entries ∈ objectsOfItems items ↔ ∃ item ∈ items, entries ∈ objectsOf item := by
  induction items with
  | nil => simp [objectsOfItems]
  | cons first rest inductionHypothesis =>
    rw [objectsOfItems, List.mem_append, inductionHypothesis, List.exists_mem_cons_iff]

theorem mem_objectsOfMembers_iff {entries members : Members} :
    entries ∈ objectsOfMembers members ↔ ∃ member ∈ members, entries ∈ objectsOf member.2 := by
  induction members with
  | nil => simp [objectsOfMembers]
  | cons first rest inductionHypothesis =>
    rcases first with ⟨name, value⟩
    rw [objectsOfMembers, List.mem_append, inductionHypothesis, List.exists_mem_cons_iff]

theorem mem_objectsOf_object {entries members : Members}
    (inside : entries ∈ objectsOfMembers members) : entries ∈ objectsOf (.object members) := by
  rw [objectsOf]
  exact List.mem_cons_of_mem _ inside

namespace Value

theorem keysDistinct_array {items : List Value} (each : ∀ item ∈ items, item.KeysDistinct) :
    (array items).KeysDistinct := by
  intro entries inside
  rw [objectsOf] at inside
  rcases mem_objectsOfItems_iff.mp inside with ⟨item, member, within⟩
  exact each item member entries within

theorem keysDistinct_object {members : Members} (distinct : (members.map (·.1)).Nodup)
    (each : ∀ member ∈ members, member.2.KeysDistinct) : (object members).KeysDistinct := by
  intro entries inside
  rw [objectsOf] at inside
  rcases List.mem_cons.mp inside with same | inside
  · exact same ▸ distinct
  · rcases mem_objectsOfMembers_iff.mp inside with ⟨member, there, within⟩
    exact each member there entries within

/-! ## Reading -/

mutual

theorem keysDistinct_of_ofTree? (tree : Tree) {value : Value} (read : ofTree? tree = some value) :
    value.KeysDistinct := by
  match tree with
  | .null | .bool _ =>
    cases read
    exact List.forall_mem_nil _
  | .number _ | .string _ =>
    rcases Option.map_eq_some_iff.mp read with ⟨_, _, same⟩
    subst same
    exact List.forall_mem_nil _
  | .array trees =>
    rcases Option.map_eq_some_iff.mp read with ⟨items, itemsRead, same⟩
    subst same
    exact keysDistinct_array (keysDistinct_of_ofItems? trees itemsRead)
  | .object trees =>
    rcases Option.map_eq_some_iff.mp read with ⟨members, membersRead, same⟩
    subst same
    have none : (([] : Members).map (·.1)).Nodup := List.nodup_nil
    rcases keysDistinct_of_ofMembers? trees none (List.forall_mem_nil _) membersRead with
      ⟨distinct, each⟩
    exact keysDistinct_object distinct each

theorem keysDistinct_of_ofItems? (trees : List Tree) {items : List Value}
    (read : ofItems? trees = some items) : ∀ item ∈ items, item.KeysDistinct := by
  match trees with
  | [] =>
    cases read
    exact List.forall_mem_nil _
  | tree :: rest =>
    rw [ofItems?] at read
    rcases Option.bind_eq_some_iff.mp read with ⟨first, firstRead, read⟩
    rcases Option.bind_eq_some_iff.mp read with ⟨others, othersRead, same⟩
    cases same
    exact List.forall_mem_cons.mpr
      ⟨keysDistinct_of_ofTree? tree firstRead, keysDistinct_of_ofItems? rest othersRead⟩

/-- An object keeps distinct keys while members are added to it. -/
theorem keysDistinct_of_ofMembers? (trees : List (List Piece × Tree)) {before members : Members}
    (distinct : (before.map (·.1)).Nodup) (each : ∀ member ∈ before, member.2.KeysDistinct)
    (read : ofMembers? before trees = some members) :
    (members.map (·.1)).Nodup ∧ ∀ member ∈ members, member.2.KeysDistinct := by
  match trees with
  | [] =>
    cases read
    exact ⟨distinct, each⟩
  | (pieces, tree) :: rest =>
    rw [ofMembers?] at read
    rcases Option.bind_eq_some_iff.mp read with ⟨key, _, read⟩
    rcases Option.bind_eq_some_iff.mp read with ⟨value, valueRead, read⟩
    have valueDistinct := keysDistinct_of_ofTree? tree valueRead
    refine keysDistinct_of_ofMembers? rest (Members.nodup_insert distinct) ?_ read
    intro member there
    rcases Members.mem_insert there with same | old
    · exact same ▸ valueDistinct
    · exact each member old

end

/-- Documents that are read from text have distinct keys. -/
theorem keysDistinct_of_read? {text : String} {document : Value}
    (read : read? text = some document) : document.KeysDistinct := by
  rw [read?] at read
  rcases Option.bind_eq_some_iff.mp read with ⟨tree, _, read⟩
  split at read
  · exact keysDistinct_of_ofTree? tree read
  · cases read

end Value
end SchemaRecords.Json
