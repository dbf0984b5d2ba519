import Mathlib.Data.List.Nodup
import SchemaRecords.Registry.Cache

/-!
# What a cache keeps

A cache has its identifiers twice, with the pools and in the order of their coming.  Both
agree after every insertion: what goes from the one goes from the other.  With a limit the
order is the end of the history of insertions, and an identifier only comes in while it is
not there, so none is listed twice.
-/

namespace SchemaRecords.Registry.Cache

open SchemaRecords.Schema

variable {source : Source} {cache : Cache} {id other : UInt32} {pool : Pool}
  {entries : List (UInt32 × Pool)} {order : List UInt32}

/-! ## Entries -/

theorem lookUp_isSome_iff : (lookUp id entries).isSome = true ↔ id ∈ entries.map (·.1) := by
  rw [lookUp, Option.isSome_map, List.find?_isSome, List.mem_map]
  simp only [decide_eq_true_eq]

/-- Taking one entry out changes no other. -/
theorem lookUp_without :
    lookUp other (without id entries) = if other = id then none else lookUp other entries := by
  unfold lookUp without
  induction entries with
  | nil => simp
  | cons entry rest inductionHypothesis =>
    by_cases isId : entry.1 = id <;> by_cases isOther : entry.1 = other <;> grind

theorem map_fst_without :
    (without id entries).map (·.1) = (entries.map (·.1)).filter fun other => other ≠ id := by
  rw [without, List.filter_map]
  rfl

/-- The entry of the oldest identifier goes with it. -/
theorem perm_without {oldest : UInt32} (same : (entries.map (·.1)).Perm (oldest :: order))
    (distinct : (oldest :: order).Nodup) :
    ((without oldest entries).map (·.1)).Perm order := by
  have rest : (oldest :: order).filter (fun other => other ≠ oldest) = order := by
    rw [List.filter_cons_of_neg (by simp), List.filter_eq_self]
    intro other member
    exact decide_eq_true fun isOldest => (List.nodup_cons.mp distinct).1 (isOldest ▸ member)
  rw [map_fst_without]
  exact rest ▸ same.filter _

/-- What is left has not changed. -/
theorem lookUp_of_evict {limit : Nat}
    (left : lookUp id (evict limit entries order).1 = some pool) :
    lookUp id entries = some pool := by
  induction order generalizing entries with
  | nil => exact left
  | cons oldest order inductionHypothesis =>
    rw [evict] at left
    split at left
    · have before := inductionHypothesis left
      rw [lookUp_without] at before
      split at before
      · cases before
      · exact before
    · exact left

/-- As many of the oldest identifiers go as are too many when one more comes, and the entries
that stay are those of the identifiers that stay. -/
theorem evict_spec (limit : Nat) (same : (entries.map (·.1)).Perm order) (distinct : order.Nodup) :
    (evict limit entries order).2 = order.drop (order.length + 1 - limit) ∧
      ((evict limit entries order).1.map (·.1)).Perm (order.drop (order.length + 1 - limit)) := by
  induction order generalizing entries with
  | nil =>
    rw [List.drop_nil]
    exact ⟨rfl, same⟩
  | cons oldest order inductionHypothesis =>
    have count : entries.length = order.length + 1 := by
      rw [← List.length_map (fun entry => entry.1), same.length_eq, List.length_cons]
    rw [evict]
    split
    · rename_i full
      have further : (oldest :: order).length + 1 - limit = order.length + 1 - limit + 1 := by
        rw [List.length_cons]
        omega
      rw [further, List.drop_succ_cons]
      exact inductionHypothesis (perm_without same distinct) (List.nodup_cons.mp distinct).2
    · rename_i spare
      have nothing : (oldest :: order).length + 1 - limit = 0 := by
        rw [List.length_cons]
        omega
      rw [nothing, List.drop_zero]
      exact ⟨rfl, same⟩

/-! ## Insertions -/

/-- The identifiers that came last, as many as there is room for. -/
def newest (limit : Option Nat) (ids : List UInt32) : List UInt32 :=
  match limit with
  | none => ids
  | some limit => ids.drop (ids.length - max 1 limit)

/-- A cache that keeps the newest of all that was inserted into it. -/
structure KeepsNewest (limit : Option Nat) (inserted : List UInt32) (cache : Cache) : Prop where
  bound : cache.limit = limit.map (max 1)
  order : cache.order = newest limit inserted
  distinct : cache.order.Nodup
  same : (cache.entries.map (·.1)).Perm cache.order

theorem keepsNewest_empty (limit : Option Nat) : KeepsNewest limit [] (empty limit) where
  bound := rfl
  order := by
    cases limit with
    | none => rfl
    | some limit => exact List.drop_nil.symm
  distinct := List.nodup_nil
  same := .refl _

namespace KeepsNewest

variable {limit : Option Nat} {inserted : List UInt32}

theorem mem_order_iff (keeps : KeepsNewest limit inserted cache) :
    id ∈ cache.order ↔ (cache.find? id).isSome = true := by
  rw [← keeps.same.mem_iff, find?, lookUp_isSome_iff]

/-- Room is made for one more, at the cost of the oldest. -/
theorem makeRoom (keeps : KeepsNewest limit inserted cache) (id : UInt32) :
    cache.makeRoom.2 ++ [id] = newest limit (inserted ++ [id]) ∧
      cache.makeRoom.2.Sublist cache.order ∧
      (cache.makeRoom.1.map (·.1)).Perm cache.makeRoom.2 := by
  rw [Cache.makeRoom, keeps.bound]
  cases limit with
  | none => exact ⟨congrArg (· ++ [id]) keeps.order, .refl _, keeps.same⟩
  | some limit =>
    rcases evict_spec (max 1 limit) keeps.same keeps.distinct with ⟨isOrder, same⟩
    simp only [Option.map_some]
    rw [isOrder]
    refine ⟨?_, List.drop_sublist _ _, same⟩
    have count : cache.order.length = inserted.length - (inserted.length - max 1 limit) := by
      rw [keeps.order, newest, List.length_drop]
    rw [count, keeps.order, newest, newest, List.drop_drop, List.length_append,
      List.length_singleton, List.drop_append_of_le_length (by omega)]
    congr 2
    omega

/-- A cache that takes in what it did not have keeps the newest of all there was. -/
theorem insert (keeps : KeepsNewest limit inserted cache) (missed : cache.find? id = none)
    (pool : Pool) : KeepsNewest limit (inserted ++ [id]) (cache.insert id pool) := by
  rcases keeps.makeRoom id with ⟨isOrder, fewer, same⟩
  have absent : id ∉ cache.makeRoom.2 := by
    intro member
    have known := keeps.mem_order_iff.mp (fewer.subset member)
    rw [missed] at known
    cases known
  have untouched : without id cache.makeRoom.1 = cache.makeRoom.1 := by
    rw [without, List.filter_eq_self]
    intro entry member
    refine decide_eq_true fun isId => absent (same.mem_iff.mp ?_)
    exact List.mem_map.mpr ⟨entry, member, isId⟩
  constructor
  case bound => exact keeps.bound
  case order => exact isOrder
  case distinct =>
    rw [Cache.insert, List.nodup_append]
    refine ⟨fewer.nodup keeps.distinct, List.nodup_singleton _, ?_⟩
    intro other member last isLast same
    rw [List.mem_singleton.mp isLast] at same
    exact absent (same ▸ member)
  case same =>
    rw [Cache.insert, List.map_cons, untouched]
    exact (same.cons id).trans (List.perm_append_singleton id _).symm

end KeepsNewest

theorem find?_insert_self (cache : Cache) (id : UInt32) (pool : Pool) :
    (cache.insert id pool).find? id = some pool := by
  simp [insert, find?, lookUp]

/-- What is found after an insertion was inserted or is what was found before. -/
theorem find?_of_insert {found : Pool} (kept : (cache.insert id pool).find? other = some found) :
    (other = id ∧ found = pool) ∨ cache.find? other = some found := by
  by_cases isId : other = id
  · subst isId
    rw [find?_insert_self] at kept
    exact Or.inl ⟨rfl, (Option.some.inj kept).symm⟩
  · have left : lookUp other (without id cache.makeRoom.1) = some found := by
      simpa [insert, find?, lookUp, Ne.symm isId] using kept
    rw [lookUp_without, if_neg isId, makeRoom] at left
    refine Or.inr ?_
    split at left
    · exact left
    · exact lookUp_of_evict left

/-! ## Asking -/

theorem get_of_hit (source : Source) (found : cache.find? id = some pool) :
    cache.get source id = some ⟨[], cache, .ok pool⟩ := by
  rw [get, found]

theorem get_of_compile {requests : List Request} (missed : cache.find? id = none)
    (compiled : compile source id = some ⟨requests, .ok pool⟩) :
    cache.get source id = some ⟨requests, cache.insert id pool, .ok pool⟩ := by
  rw [get, missed, compiled]
  rfl

/-- What comes of asking: the pool that is kept, a new one that is kept from now on, or an
error that leaves the cache as it is. -/
theorem get_cases {lookup : Lookup} (asked : cache.get source id = some lookup) :
    (∃ pool, cache.find? id = some pool ∧ lookup = ⟨[], cache, .ok pool⟩) ∨
      (cache.find? id = none ∧ ∃ requests pool, compile source id = some ⟨requests, .ok pool⟩ ∧
        lookup = ⟨requests, cache.insert id pool, .ok pool⟩) ∨
      cache.find? id = none ∧ ∃ requests error,
        compile source id = some ⟨requests, .error error⟩ ∧
          lookup = ⟨requests, cache, .error error⟩ := by
  rw [get] at asked
  cases found : cache.find? id with
  | some pool =>
    rw [found] at asked
    exact Or.inl ⟨pool, rfl, (Option.some.inj asked).symm⟩
  | none =>
    rw [found] at asked
    rcases Option.map_eq_some_iff.mp asked with ⟨⟨requests, result⟩, compiled, isLookup⟩
    cases result with
    | ok pool => exact Or.inr (Or.inl ⟨rfl, requests, pool, compiled, isLookup.symm⟩)
    | error error => exact Or.inr (Or.inr ⟨rfl, requests, error, compiled, isLookup.symm⟩)

/-- The caches that a run of questions leads to from the empty one, with what was inserted in
its course: the identifiers that were asked for while they were not kept, and that could be
compiled.  Questions that find something, and those that fail, insert nothing.  Every question comes
with a source of its own, one of those of the run, so a schema may be had by one question that could
not be had by another. -/
inductive Reached (sources : Source → Prop) (limit : Option Nat) : List UInt32 → Cache → Prop
  | start : Reached sources limit [] (empty limit)
  | hit {source : Source} {inserted : List UInt32} {cache : Cache} {id : UInt32} {lookup : Lookup}
      (before : Reached sources limit inserted cache) (isSource : sources source)
      (found : (cache.find? id).isSome = true) (asked : cache.get source id = some lookup) :
      Reached sources limit inserted lookup.cache
  | failure {source : Source} {inserted : List UInt32} {cache : Cache} {id : UInt32}
      {lookup : Lookup} {error : RegistryError} (before : Reached sources limit inserted cache)
      (isSource : sources source) (asked : cache.get source id = some lookup)
      (failed : lookup.result = .error error) : Reached sources limit inserted lookup.cache
  | success {source : Source} {inserted : List UInt32} {cache : Cache} {id : UInt32}
      {lookup : Lookup} {pool : Pool} (before : Reached sources limit inserted cache)
      (isSource : sources source) (missed : cache.find? id = none)
      (asked : cache.get source id = some lookup) (compiled : lookup.result = .ok pool) :
      Reached sources limit (inserted ++ [id]) lookup.cache

end SchemaRecords.Registry.Cache
