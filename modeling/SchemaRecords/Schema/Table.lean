/-!
# Look-up tables

A table files values under keys.  A value that is filed under a key already in use
takes the place of the earlier one.  A table is kept as the list of everything that was
filed, the latest first, so that filing never looks anything up.
-/

namespace SchemaRecords.Schema

/-- Values under keys, the latest first. -/
structure Table (Key Value : Type) where
  entries : List (Key × Value)
  deriving DecidableEq, Repr

namespace Table

variable {Key Value : Type}

/-- The table without any value. -/
def empty : Table Key Value := ⟨[]⟩

/-- File values one after the other. -/
def insertAll (table : Table Key Value) (additions : List (Key × Value)) : Table Key Value :=
  ⟨additions.reverse ++ table.entries⟩

/-- File a value. -/
def insert (table : Table Key Value) (key : Key) (value : Value) : Table Key Value :=
  table.insertAll [(key, value)]

/-- The table of some values. -/
def ofList (additions : List (Key × Value)) : Table Key Value := empty.insertAll additions

/-- The value under a key. -/
def find? [DecidableEq Key] (table : Table Key Value) (key : Key) : Option Value :=
  (table.entries.find? fun entry => entry.1 = key).map (·.2)

theorem find?_empty [DecidableEq Key] (key : Key) :
    (empty : Table Key Value).find? key = none := rfl

/-- What is filed later is found first. -/
theorem find?_insertAll [DecidableEq Key] (table : Table Key Value)
    (additions : List (Key × Value)) (key : Key) :
    (table.insertAll additions).find? key = ((ofList additions).find? key).or (table.find? key) := by
  simp only [insertAll, ofList, empty, find?, List.append_nil, List.find?_append]
  cases additions.reverse.find? fun entry => entry.1 = key <;> rfl

/-- A key that is filed is found. -/
theorem find?_eq_none_iff [DecidableEq Key] (table : Table Key Value) (key : Key) :
    table.find? key = none ↔ key ∉ table.entries.map (·.1) := by
  simp only [find?, Option.map_eq_none_iff, List.find?_eq_none, List.mem_map, decide_eq_true_eq]
  constructor
  · rintro absent ⟨entry, member, same⟩
    exact absent entry member same
  · intro absent entry member same
    exact absent ⟨entry, member, same⟩

theorem find?_ofList_eq_none_iff [DecidableEq Key] (additions : List (Key × Value)) (key : Key) :
    (ofList additions).find? key = none ↔ key ∉ additions.map (·.1) := by
  rw [find?_eq_none_iff]
  simp [ofList, insertAll, empty]

/-- Where no key is filed twice, a table holds exactly what was filed. -/
theorem find?_eq_some_iff [DecidableEq Key] {table : Table Key Value}
    (distinct : (table.entries.map (·.1)).Nodup) (key : Key) (value : Value) :
    table.find? key = some value ↔ (key, value) ∈ table.entries := by
  rcases table with ⟨entries⟩
  simp only [find?] at distinct ⊢
  induction entries with
  | nil => simp
  | cons entry rest inductionHypothesis =>
    rcases entry with ⟨first, held⟩
    simp only [List.map_cons, List.nodup_cons] at distinct
    by_cases same : first = key
    · subst same
      have absent : (first, value) ∉ rest := fun member =>
        distinct.1 (List.mem_map.mpr ⟨_, member, rfl⟩)
      simp [absent, eq_comm]
    · simp [same, inductionHypothesis distinct.2, Ne.symm same]

/-- Where no key is filed twice, a table of some values holds exactly those. -/
theorem find?_ofList_eq_some_iff [DecidableEq Key] {additions : List (Key × Value)}
    (distinct : (additions.map (·.1)).Nodup) (key : Key) (value : Value) :
    (ofList additions).find? key = some value ↔ (key, value) ∈ additions := by
  rw [find?_eq_some_iff]
  · simp [ofList, insertAll, empty]
  · simpa [ofList, insertAll, empty, List.map_reverse, List.Nodup, List.pairwise_reverse, eq_comm]
      using distinct

end Table
end SchemaRecords.Schema
