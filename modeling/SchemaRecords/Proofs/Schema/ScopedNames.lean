import SchemaRecords.Proofs.Schema.DeclaredNames
import SchemaRecords.Proofs.Schema.VisibleUnits

/-!
# Names in their scopes

A type name means a full name that can be seen: one that the text itself declares, or one that
belongs to a unit that the text sees.  A name with a leading dot is a full name already.  Any other
name is put behind the scopes around it, and the longest scope for which the result can be seen
decides.  A full name that is taken in a unit out of sight does not count.

The search goes through the scopes from the longest to the empty one, so the first scope that it
stops at is the longest.
-/

namespace SchemaRecords.Schema

/-! ## Meaning of a name -/

/-- A scope is another one without some of its last parts. -/
def Encloses (outer scope : String) : Prop :=
  outer = "" ∨ outer = scope ∨ ∃ rest, scope = outer ++ "." ++ rest

/-- The full name that a type name in a scope means, if some full names can be seen. -/
inductive Means (sees : String → Prop) (scope : String) : String → String → Prop
  | absolute {target : String} (seen : sees target) : Means sees scope ("." ++ target) target
  | relative {name outer : String} (relative : ∀ target, name ≠ "." ++ target)
      (encloses : Encloses outer scope) (seen : sees (qualify outer name))
      (longest : ∀ other, Encloses other scope → sees (qualify other name) →
        other.length ≤ outer.length) : Means sees scope name (qualify outer name)

/-- A full name that a text declares, or that belongs to a unit that it sees. -/
def FileDecl.Sees (pool : Pool) (file : FileDecl) (fullName : String) : Prop :=
  fullName ∈ file.declaredNames ∨
    ∃ symbol unit, pool.Names fullName symbol ∧ pool.unitOf? symbol = some unit ∧
      file.CanSee pool unit

/-! ## Scopes -/

theorem mem_dottedPrefixes {text part : List Char} :
    part ∈ dottedPrefixes text ↔ ∃ rest, text = part ++ '.' :: rest := by
  induction text generalizing part with
  | nil => simp [dottedPrefixes]
  | cons first rest inductionHypothesis =>
    rw [dottedPrefixes, List.mem_append, List.mem_map]
    constructor
    · rintro (here | ⟨inner, member, rfl⟩)
      · split at here
        · rename_i isDot
          cases List.mem_singleton.mp here
          exact ⟨rest, congrArg (· :: rest) isDot⟩
        · cases here
      · rcases inductionHypothesis.mp member with ⟨after, rfl⟩
        exact ⟨after, rfl⟩
    · rintro ⟨after, same⟩
      cases part with
      | nil =>
        cases same
        exact Or.inl List.mem_cons_self
      | cons head inner =>
        cases same
        exact Or.inr ⟨inner, inductionHypothesis.mpr ⟨after, rfl⟩, rfl⟩

/-- The parts of a text in front of its dots come in the order of their lengths. -/
theorem pairwise_dottedPrefixes (text : List Char) :
    (dottedPrefixes text).Pairwise fun first second => first.length ≤ second.length := by
  induction text with
  | nil => exact .nil
  | cons first rest inductionHypothesis =>
    rw [dottedPrefixes]
    refine List.pairwise_append.mpr ⟨?_, ?_, ?_⟩
    · split
      · exact List.pairwise_singleton _ _
      · exact .nil
    · exact List.pairwise_map.mpr (inductionHypothesis.imp fun least => Nat.succ_le_succ least)
    · intro part member other _
      split at member
      · cases List.mem_singleton.mp member
        exact Nat.zero_le _
      · cases member

theorem mem_enclosingScopes {outer scope : String} :
    outer ∈ enclosingScopes scope ↔ Encloses outer scope := by
  have isPart : (∃ part ∈ (dottedPrefixes scope.toList).reverse, String.ofList part = outer) ↔
      ∃ rest, scope = outer ++ "." ++ rest := by
    constructor
    · rintro ⟨part, member, rfl⟩
      rcases mem_dottedPrefixes.mp (List.mem_reverse.mp member) with ⟨rest, same⟩
      refine ⟨String.ofList rest, String.toList_injective ?_⟩
      rw [same]
      simp
    · rintro ⟨rest, rfl⟩
      refine ⟨outer.toList, List.mem_reverse.mpr (mem_dottedPrefixes.mpr ⟨rest.toList, ?_⟩), ?_⟩
      · simp
      · simp
  rw [enclosingScopes, List.mem_cons, List.mem_append, List.mem_map, List.mem_singleton, isPart,
    Encloses]
  tauto

theorem Encloses.length_le {outer scope : String} (encloses : Encloses outer scope) :
    outer.length ≤ scope.length := by
  rcases encloses with rfl | rfl | ⟨rest, rfl⟩
  · exact Nat.zero_le _
  · exact Nat.le_refl _
  · simp only [String.length_append]
    omega

theorem pairwise_enclosingScopes (scope : String) :
    (enclosingScopes scope).Pairwise fun outer other => other.length ≤ outer.length := by
  have inside {outer : String} (member : outer ∈ enclosingScopes scope) :
      outer.length ≤ scope.length := (mem_enclosingScopes.mp member).length_le
  rw [enclosingScopes] at inside ⊢
  refine List.pairwise_cons.mpr ⟨fun outer member => inside (List.mem_cons_of_mem _ member), ?_⟩
  refine List.pairwise_append.mpr ⟨?_, List.pairwise_singleton _ _, ?_⟩
  · rw [List.pairwise_map, List.pairwise_reverse]
    exact (pairwise_dottedPrefixes _).imp fun least => by simpa using least
  · intro outer _ other member
    cases List.mem_singleton.mp member
    exact Nat.zero_le _

/-- Scopes around a scope are told apart by their lengths. -/
theorem Encloses.eq_of_length {outer other scope : String} (encloses : Encloses outer scope)
    (otherEncloses : Encloses other scope) (same : outer.length = other.length) :
    outer = other := by
  have isPrefix {outer : String} (encloses : Encloses outer scope) :
      outer.toList <+: scope.toList := by
    rcases encloses with rfl | rfl | ⟨rest, rfl⟩
    · exact List.nil_prefix
    · exact List.prefix_refl _
    · rw [String.toList_append, String.toList_append, List.append_assoc]
      exact List.prefix_append _ _
  have length : outer.toList.length = other.toList.length := by
    rw [String.length_toList, String.length_toList, same]
  have within := List.prefix_of_prefix_length_le (isPrefix encloses) (isPrefix otherEncloses)
    (Nat.le_of_eq length)
  exact String.toList_injective (within.eq_of_length length)

/-- A search through the scopes around a scope stops at the longest at which it can stop. -/
theorem findSome?_enclosingScopes {α : Type} {look : String → Option α} {scope : String}
    {found : α} :
    (enclosingScopes scope).findSome? look = some found ↔
      ∃ outer, Encloses outer scope ∧ look outer = some found ∧
        ∀ other, Encloses other scope → (look other).isSome = true →
          other.length ≤ outer.length := by
  have stops {found : α} (isFound : (enclosingScopes scope).findSome? look = some found) :
      ∃ outer, Encloses outer scope ∧ look outer = some found ∧
        ∀ other, Encloses other scope → (look other).isSome = true →
          other.length ≤ outer.length := by
    rcases List.findSome?_eq_some_iff.mp isFound with ⟨before, outer, after, whole, here, missing⟩
    have ordered := pairwise_enclosingScopes scope
    have encloses : Encloses outer scope :=
      mem_enclosingScopes.mp (whole ▸ List.mem_append_right _ List.mem_cons_self)
    refine ⟨outer, encloses, here, fun other otherEncloses isSome => ?_⟩
    have member := mem_enclosingScopes.mpr otherEncloses
    rw [whole] at member ordered
    rcases List.mem_append.mp member with earlier | rest
    · rw [missing other earlier] at isSome
      cases isSome
    · rcases List.mem_cons.mp rest with rfl | later
      · exact Nat.le_refl _
      · exact (List.pairwise_cons.mp (List.pairwise_append.mp ordered).2.1).1 other later
  refine ⟨stops, ?_⟩
  rintro ⟨outer, encloses, here, longest⟩
  cases result : (enclosingScopes scope).findSome? look with
  | none =>
    have missing := List.findSome?_eq_none_iff.mp result outer (mem_enclosingScopes.mpr encloses)
    rw [here] at missing
    cases missing
  | some other =>
    rcases stops result with ⟨scopeFound, foundEncloses, foundHere, foundLongest⟩
    have atLeast := foundLongest outer encloses (here ▸ rfl)
    have atMost := longest scopeFound foundEncloses (foundHere ▸ rfl)
    cases foundEncloses.eq_of_length encloses (Nat.le_antisymm atMost atLeast)
    exact foundHere.symm.trans here

/-! ## Looking names up -/

namespace Environment

theorem isSome_imported?_iff (env : Environment) (fullName : String) :
    (env.imported? fullName).isSome = true ↔ ∃ symbol unit,
      env.pool.symbols.find? fullName = some symbol ∧ env.pool.unitOf? symbol = some unit ∧
        unit ∈ env.visible := by
  simp only [imported?, Option.isSome_filter, Option.any_eq_true, decide_eq_true_eq,
    exists_and_left]

theorem toList_absolute (target : String) : ("." ++ target).toList = '.' :: target.toList := by
  rw [String.toList_append]
  exact List.cons_append

theorem resolve?_absolute (env : Environment) (scope target : String) :
    env.resolve? scope ("." ++ target) = env.symbol? target := by
  simp only [resolve?, toList_absolute, String.ofList_toList]

theorem resolve?_relative (env : Environment) (scope : String) {name : String}
    (relative : ∀ target, name ≠ "." ++ target) :
    env.resolve? scope name =
      (enclosingScopes scope).findSome? fun outer => env.symbol? (qualify outer name) := by
  unfold resolve?
  split
  · rename_i absolute isAbsolute
    refine absurd (String.toList_injective ?_) (relative (String.ofList absolute))
    rw [isAbsolute, toList_absolute, String.toList_ofList]
  · rfl

/-- A name is resolved to what the full name that it means stands for. -/
theorem resolve?_eq_some_iff {env : Environment} {sees : String → Prop}
    (shows : ∀ fullName, sees fullName ↔ (env.symbol? fullName).isSome = true)
    {scope name : String} {symbol : Symbol} :
    env.resolve? scope name = some symbol ↔
      ∃ target, Means sees scope name target ∧ env.symbol? target = some symbol := by
  have seen {fullName : String} (found : env.symbol? fullName = some symbol) : sees fullName :=
    (shows fullName).mpr (found ▸ rfl)
  by_cases absolute : ∃ target, name = "." ++ target
  · rcases absolute with ⟨target, rfl⟩
    rw [resolve?_absolute]
    constructor
    · exact fun found => ⟨target, .absolute (seen found), found⟩
    · rintro ⟨other, means, found⟩
      generalize isName : "." ++ target = name at means
      cases means with
      | absolute =>
        have lists := congrArg String.toList isName
        rw [toList_absolute, toList_absolute] at lists
        cases String.toList_injective (List.cons.inj lists).2
        exact found
      | relative relative => exact absurd isName.symm (relative target)
  · have relative (target : String) : name ≠ "." ++ target := fun same => absolute ⟨target, same⟩
    rw [resolve?_relative env scope relative, findSome?_enclosingScopes]
    simp only [← shows]
    constructor
    · rintro ⟨outer, encloses, found, longest⟩
      exact ⟨_, .relative relative encloses (seen found) longest, found⟩
    · rintro ⟨target, means, found⟩
      cases means with
      | absolute => exact absurd rfl (relative _)
      | relative _ encloses _ longest => exact ⟨_, encloses, found, longest⟩

/-- A name is resolved exactly if it means something. -/
theorem exists_resolve?_iff {env : Environment} {sees : String → Prop}
    (shows : ∀ fullName, sees fullName ↔ (env.symbol? fullName).isSome = true)
    {scope name : String} :
    (∃ symbol, env.resolve? scope name = some symbol) ↔ ∃ target, Means sees scope name target := by
  simp only [resolve?_eq_some_iff shows]
  constructor
  · rintro ⟨symbol, target, means, _⟩
    exact ⟨target, means⟩
  · rintro ⟨target, means⟩
    have seen : sees target := by
      cases means with
      | absolute seen => exact seen
      | relative _ _ seen => exact seen
    rcases Option.isSome_iff_exists.mp ((shows target).mp seen) with ⟨symbol, found⟩
    exact ⟨symbol, target, means, found⟩

end Environment

/-! ## Names of a text -/

section Names

variable {pool : Pool} {unitName : String} {file : FileDecl} {imports : List (UnitId × Bool)}

/-- What can be looked up while a text is linked is what the text sees. -/
theorem sees_iff_symbol? (wellFormed : pool.WellFormed) (earlier : pool.PassesEarlier)
    (resolved : resolveImports pool file.imports = .ok imports) (fullName : String) :
    file.Sees pool fullName ↔
      ((linkEnvironment pool (linkUnit pool unitName imports file)
        (file.outline pool.cursor)).symbol? fullName).isSome = true := by
  have declared : fullName ∈ file.declaredNames ↔
      ((Table.ofList (outlineSymbols (file.outline pool.cursor))).find? fullName).isSome = true := by
    have names : (outlineSymbols (file.outline pool.cursor)).map (·.1) =
        (file.outline pool.cursor).map (·.fullName) := by
      rw [outlineSymbols, List.map_map]
      rfl
    rw [Option.isSome_iff_ne_none, Ne, Table.find?_ofList_eq_none_iff, not_not, names,
      (file.fullNames_perm pool.cursor).mem_iff]
  have visible (unit : UnitId) : file.CanSee pool unit ↔
      unit ∈ pool.visibleThrough (linkUnit pool unitName imports file).dependencies := by
    rw [earlier.mem_visibleThrough]
    simp only [mem_dependencies resolved, FileDecl.CanSee]
  have imported := (linkEnvironment pool (linkUnit pool unitName imports file)
    (file.outline pool.cursor)).isSome_imported?_iff fullName
  rw [Environment.symbol?, Option.isSome_or, Bool.or_eq_true, imported, FileDecl.Sees]
  exact or_congr declared (by simp only [← wellFormed.symbols, visible]; rfl)

end Names

end SchemaRecords.Schema
