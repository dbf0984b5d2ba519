/-!
# Steps that may be refused

A computation that may be refused runs its steps in order and stops at the first one that is.
The lemmas here take a successful run apart into its steps.

Two runs can be compared step by step too.  `Same` says that they have the same outcome,
and that this outcome is not one of some refusals which are meant never to happen.  `Follows` asks
nothing of the second run where the first is refused.
-/

namespace SchemaRecords.Outcome

variable {Refusal α β : Type}

/-! ## Successful runs -/

theorem bind_eq_ok_iff {first : Except Refusal α} {next : α → Except Refusal β} {result : β} :
    (first >>= next) = .ok result ↔ ∃ value, first = .ok value ∧ next value = .ok result := by
  cases first with
  | error refusal =>
    constructor
    · intro run
      cases run
    · rintro ⟨value, impossible, _⟩
      cases impossible
  | ok value =>
    constructor
    · intro run
      exact ⟨value, rfl, run⟩
    · rintro ⟨_, same, run⟩
      cases same
      exact run

theorem bind_eq_error_iff {first : Except Refusal α} {next : α → Except Refusal β}
    {refusal : Refusal} :
    (first >>= next) = .error refusal ↔
      first = .error refusal ∨ ∃ value, first = .ok value ∧ next value = .error refusal := by
  cases first with
  | error other => simp [bind, Except.bind]
  | ok value => simp [bind, Except.bind]

theorem map_eq_ok_iff {first : Except Refusal α} {f : α → β} {result : β} :
    first.map f = .ok result ↔ ∃ value, first = .ok value ∧ f value = result := by
  cases first with
  | error refusal =>
    constructor
    · intro run
      cases run
    · rintro ⟨value, impossible, _⟩
      cases impossible
  | ok value =>
    constructor
    · intro run
      exact ⟨value, rfl, Except.ok.inj run⟩
    · rintro ⟨_, same, result⟩
      cases same
      exact congrArg Except.ok result

/-- A change of the result of a run does not decide whether there is one. -/
theorem exists_map_eq_ok_iff {first : Except Refusal α} {f : α → β} :
    (∃ result, first.map f = .ok result) ↔ ∃ value, first = .ok value := by
  cases first <;> simp [Except.map]

theorem map_eq_error_iff {first : Except Refusal α} {f : α → β} {refusal : Refusal} :
    first.map f = .error refusal ↔ first = .error refusal := by
  cases first with
  | error other => simp [Except.map]
  | ok value =>
    constructor
    · intro impossible
      cases impossible
    · intro impossible
      cases impossible

/-- A change of the result of a step is a change of the result of the run, if the later steps say
so. -/
theorem map_bind {γ δ : Type} {first : Except Refusal α} {next : α → Except Refusal γ}
    {after : β → Except Refusal δ} {f : α → β} {g : γ → δ}
    (later : ∀ value, after (f value) = (next value).map g) :
    (first.map f >>= after) = (first >>= next).map g := by
  cases first with
  | error refusal => rfl
  | ok value => exact later value

theorem toOption_eq_some_iff {run : Except Refusal α} {value : α} :
    run.toOption = some value ↔ run = .ok value := by
  cases run with
  | error refusal => simp [Except.toOption]
  | ok result => simp [Except.toOption]

/-- Why a run is refused, if it is. -/
def refusal? : Except Refusal α → Option Refusal
  | .ok _ => none
  | .error refusal => some refusal

theorem refusal?_eq_some_iff {run : Except Refusal α} {refusal : Refusal} :
    refusal? run = some refusal ↔ run = .error refusal := by
  cases run with
  | error other => simp [refusal?]
  | ok value => simp [refusal?]

/-! ## Runs with related outcomes -/

/-- Two runs that are refused for the same reason, or whose results are related. -/
inductive Related (relation : α → β → Prop) : Except Refusal α → Except Refusal β → Prop
  | ok {first : α} {second : β} (related : relation first second) :
      Related relation (.ok first) (.ok second)
  | error (refusal : Refusal) : Related relation (.error refusal) (.error refusal)

namespace Related

variable {γ δ : Type} {relation : α → β → Prop} {next : γ → δ → Prop}
  {first : Except Refusal α} {second : Except Refusal β}

theorem ok_or_error (related : Related relation first second) :
    (∃ one other, first = .ok one ∧ second = .ok other ∧ relation one other) ∨
      ∃ refusal, first = .error refusal ∧ second = .error refusal := by
  cases related with
  | ok here => exact Or.inl ⟨_, _, rfl, rfl, here⟩
  | error refusal => exact Or.inr ⟨refusal, rfl, rfl⟩

theorem bind (related : Related relation first second) {f : α → Except Refusal γ}
    {g : β → Except Refusal δ}
    (later : ∀ one other, relation one other → Related next (f one) (g other)) :
    Related next (first >>= f) (second >>= g) := by
  cases related with
  | ok here => exact later _ _ here
  | error refusal => exact .error refusal

theorem map (related : Related relation first second) {f : α → γ} {g : β → δ}
    (later : ∀ one other, relation one other → next (f one) (g other)) :
    Related next (first.map f) (second.map g) := by
  cases related with
  | ok here => exact .ok (later _ _ here)
  | error refusal => exact .error refusal

theorem imp {others : α → β → Prop} (related : Related relation first second)
    (weaker : ∀ one other, relation one other → others one other) :
    Related others first second := by
  cases related with
  | ok here => exact .ok (weaker _ _ here)
  | error refusal => exact .error refusal

/-- A run is related to itself if its result is. -/
theorem of_self {relation : α → α → Prop} {run : Except Refusal α}
    (result : ∀ value, run = .ok value → relation value value) : Related relation run run := by
  cases run with
  | ok value => exact .ok (result value rfl)
  | error refusal => exact .error refusal

end Related

/-! ## Runs that follow others -/

/-- Whenever the first run succeeds the second does too, and their results are related. -/
def Follows (relation : α → β → Prop) (first : Except Refusal α) (second : Except Refusal β) :
    Prop :=
  ∀ one, first = .ok one → ∃ other, second = .ok other ∧ relation one other

namespace Follows

variable {γ δ : Type} {relation : α → β → Prop} {next : γ → δ → Prop}
  {first : Except Refusal α} {second : Except Refusal β}

theorem ok {one : α} {other : β} (here : relation one other) :
    Follows relation (Except.ok (ε := Refusal) one) (.ok other) := by
  intro value same
  cases same
  exact ⟨other, rfl, here⟩

theorem error (refusal : Refusal) : Follows relation (.error refusal) second :=
  fun _ impossible => nomatch impossible

theorem bind (follows : Follows relation first second) {f : α → Except Refusal γ}
    {g : β → Except Refusal δ}
    (later : ∀ one other, relation one other → Follows next (f one) (g other)) :
    Follows next (first >>= f) (second >>= g) := by
  intro result run
  rcases bind_eq_ok_iff.mp run with ⟨one, isOne, rest⟩
  rcases follows one isOne with ⟨other, isOther, here⟩
  rcases later one other here result rest with ⟨otherResult, otherRest, related⟩
  exact ⟨otherResult, bind_eq_ok_iff.mpr ⟨other, isOther, otherRest⟩, related⟩

theorem map (follows : Follows relation first second) {f : α → γ} {g : β → δ}
    (later : ∀ one other, relation one other → next (f one) (g other)) :
    Follows next (first.map f) (second.map g) := by
  intro result run
  rcases map_eq_ok_iff.mp run with ⟨one, isOne, same⟩
  rcases follows one isOne with ⟨other, isOther, here⟩
  exact ⟨g other, map_eq_ok_iff.mpr ⟨other, isOther, rfl⟩, same ▸ later one other here⟩

theorem imp {others : α → β → Prop} (follows : Follows relation first second)
    (weaker : ∀ one other, relation one other → others one other) :
    Follows others first second := by
  intro one isOne
  rcases follows one isOne with ⟨other, isOther, here⟩
  exact ⟨other, isOther, weaker one other here⟩

/-- A run follows itself. -/
theorem refl (run : Except Refusal α) : Follows Eq run run :=
  fun one same => ⟨one, same, rfl⟩

theorem trans {third : Except Refusal α} {earlier : Except Refusal α}
    (early : Follows Eq earlier third) {last : Except Refusal α} (late : Follows Eq third last) :
    Follows Eq earlier last := by
  intro one isOne
  rcases early one isOne with ⟨_, isSecond, rfl⟩
  exact late one isSecond

/-- Runs that follow each other have the same result, if they have one. -/
theorem toOption_eq {second : Except Refusal α} {first : Except Refusal α}
    (forth : Follows Eq first second) (back : Follows Eq second first) :
    first.toOption = second.toOption := by
  apply Option.ext
  intro value
  rw [toOption_eq_some_iff, toOption_eq_some_iff]
  constructor
  · intro run
    rcases forth value run with ⟨_, other, rfl⟩
    exact other
  · intro run
    rcases back value run with ⟨_, other, rfl⟩
    exact other

end Follows

/-! ## Runs with the same outcome -/

/-- Two runs with the same outcome, which is none of the refusals that `never` happen. -/
structure Same (never : Refusal → Prop) (first second : Except Refusal α) : Prop where
  same : second = first
  possible : ∀ refusal, first = .error refusal → ¬ never refusal

/-- As `Same`, where the runs may also be missing, but only together. -/
structure SameIfAny (never : Refusal → Prop) (first second : Option (Except Refusal α)) :
    Prop where
  same : second = first
  possible : ∀ refusal, first = some (.error refusal) → ¬ never refusal

namespace Same

variable {never : Refusal → Prop}

theorem ok (value : α) : Same never (.ok value) (.ok value) :=
  ⟨rfl, fun _ impossible => nomatch impossible⟩

theorem error {refusal : Refusal} (possible : ¬ never refusal) :
    Same (α := α) never (.error refusal) (.error refusal) :=
  ⟨rfl, fun _ same => Except.error.inj same ▸ possible⟩

/-- The same outcome is either the same value or the same refusal. -/
theorem cases {first second : Except Refusal α} (same : Same never first second) :
    (∃ value, first = .ok value ∧ second = .ok value) ∨
      ∃ refusal, first = .error refusal ∧ second = .error refusal ∧ ¬ never refusal := by
  cases outcome : first with
  | ok value => exact Or.inl ⟨value, rfl, same.same.trans outcome⟩
  | error refusal =>
    exact Or.inr ⟨refusal, rfl, same.same.trans outcome, same.possible refusal outcome⟩

theorem bind {first second : Except Refusal α} {next after : α → Except Refusal β}
    (same : Same never first second)
    (later : ∀ value, first = .ok value → Same never (next value) (after value)) :
    Same never (first >>= next) (second >>= after) := by
  rcases same.cases with ⟨value, one, other⟩ | ⟨refusal, one, other, possible⟩
  · rw [one, other]
    exact later value one
  · rw [one, other]
    exact error possible

theorem map {first second : Except Refusal α} (same : Same never first second) (f : α → β) :
    Same never (first.map f) (second.map f) := by
  rcases same.cases with ⟨value, one, other⟩ | ⟨refusal, one, other, possible⟩
  · rw [one, other]
    exact ok (f value)
  · rw [one, other]
    exact error possible

/-- Runs that end in the same way whenever they end well, and only then matter. -/
theorem some {first second : Except Refusal α} (same : Same never first second) :
    SameIfAny never (.some first) (.some second) :=
  ⟨congrArg Option.some same.same, fun refusal there =>
    same.possible refusal (Option.some.inj there)⟩

end Same

namespace SameIfAny

variable {never : Refusal → Prop}

theorem none : SameIfAny (α := α) never .none .none :=
  ⟨rfl, fun _ impossible => nomatch impossible⟩

theorem map {first second : Option (Except Refusal α)} (same : SameIfAny never first second)
    {f : Except Refusal α → Except Refusal β}
    (kept : ∀ run, Same never run run → Same never (f run) (f run)) :
    SameIfAny never (first.map f) (second.map f) := by
  rw [same.same]
  cases first with
  | none => exact none
  | some run => exact (kept run ⟨rfl, fun refusal there =>
      same.possible refusal (congrArg Option.some there)⟩).some

end SameIfAny
end SchemaRecords.Outcome
