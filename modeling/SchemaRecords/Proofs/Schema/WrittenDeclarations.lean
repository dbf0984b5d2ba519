import SchemaRecords.Proofs.Schema.SoundDeclaration
import SchemaRecords.Proofs.Schema.SpelledTokens

/-!
# Written declarations

A schema text for given declarations.  Inside of a message the fields come first, with the oneofs
between them, then the messages and then the enumerations.

Not all declarations have such a text.  The language has no quotation for names, and the first
word of a statement decides what the statement is, so that the type of an unlabelled field must
not begin with a word that begins something else.
-/

namespace SchemaRecords.Schema

open SchemaRecords.Text

/-! ## Words -/

namespace Word

/-- An identifier or keyword that stands alone. -/
abbrev identifier (name : String) : Word := [.identifier name]

/-- An integer that stands alone. -/
abbrev integer (value : Nat) : Word := [.integer value]

/-- A string that stands alone. -/
abbrev string (text : String) : Word := [.string text]

/-- A symbol that stands alone. -/
abbrev symbol (c : Char) : Word := [.symbol c]

end Word

/-! ## Fields -/

/-- The tokens of a type name. -/
def TypeName.word : TypeName → Word
  | .scalar type => .identifier type.keyword
  | .named name => nameWord name

/-- The type of a field as it is written. -/
def FieldType.words : FieldType → List Word
  | .single type => [type.word]
  | .map key value =>
    [.identifier "map", .symbol '<', .identifier key.keyword, .symbol ',', value.word, .symbol '>']

/-- The word for a label, if there is one. -/
def Label.words : Label → List Word
  | .unlabelled => []
  | .optional => [.identifier "optional"]
  | .required => [.identifier "required"]
  | .repeated => [.identifier "repeated"]

/-- The option that says whether a field is packed. -/
def packedWords (packed : Bool) : List Word :=
  [.identifier "packed", .symbol '=', .identifier (if packed then "true" else "false")]

/-- The option that names the key of a field. -/
def jsonNameWords (name : String) : List Word :=
  [.identifier "json_name", .symbol '=', .string name]

/-- The options of a field, with brackets around them if there are any. -/
def optionWords : (packed : Option Bool) → (jsonName : Option String) → List Word
  | none, none => []
  | some packed, none => .symbol '[' :: (packedWords packed ++ [.symbol ']'])
  | none, some name => .symbol '[' :: (jsonNameWords name ++ [.symbol ']'])
  | some packed, some name =>
    .symbol '[' :: (packedWords packed ++ .symbol ',' :: (jsonNameWords name ++ [.symbol ']']))

/-- A field behind its label. -/
def FieldDecl.body (decl : FieldDecl) : List Word :=
  decl.type.words ++ .identifier decl.name :: .symbol '=' :: .integer decl.number ::
    (optionWords decl.packed decl.jsonName ++ [.symbol ';'])

/-- A field. -/
def FieldDecl.words (decl : FieldDecl) : List Word := decl.label.words ++ decl.body

/-! ## Enumerations -/

/-- The tokens of an integer, which may be negative. -/
def signedWord : Int → Word
  | .ofNat value => .integer value
  | .negSucc value => [.symbol '-', .integer (value + 1)]

/-- A value of an enumeration. -/
def EnumValue.words (value : EnumValue) : List Word :=
  [.identifier value.name, .symbol '=', signedWord value.number, .symbol ';']

/-- An enumeration behind its keyword. -/
def EnumDecl.body (decl : EnumDecl) : List Word :=
  .identifier decl.name :: .symbol '{' :: (decl.values.flatMap EnumValue.words ++ [.symbol '}'])

/-- An enumeration. -/
def EnumDecl.words (decl : EnumDecl) : List Word := .identifier "enum" :: decl.body

/-! ## Messages -/

/-- A oneof. -/
def oneofWords (name : String) (members : List FieldDecl) : List Word :=
  .identifier "oneof" :: .identifier name :: .symbol '{' ::
    (members.flatMap FieldDecl.words ++ [.symbol '}'])

/-- Fields and oneofs, of which the first one has the given position.  In front of each oneof
stand the fields that belong to none, up to its members. -/
def memberWords (next : Nat) : (oneofs : List String) → List FieldDecl → List Word
  | [], fields => fields.flatMap FieldDecl.words
  | name :: oneofs, fields =>
    let front := fields.takeWhile fun field => field.oneof = none
    let behind := fields.dropWhile fun field => field.oneof = none
    front.flatMap FieldDecl.words ++
      (oneofWords name (behind.takeWhile fun field => field.oneof = some next) ++
        memberWords (next + 1) oneofs (behind.dropWhile fun field => field.oneof = some next))

mutual

/-- A message. -/
def MessageDecl.words : MessageDecl → List Word
  | ⟨name, fields, oneofs, messages, enums, _⟩ =>
    .identifier "message" :: .identifier name :: .symbol '{' ::
      (memberWords 0 oneofs fields ++
        (messageWords messages ++ (enums.flatMap EnumDecl.words ++ [.symbol '}'])))

/-- The messages of a scope. -/
def messageWords : List MessageDecl → List Word
  | [] => []
  | decl :: rest => decl.words ++ messageWords rest

end

theorem messageWords_eq_flatMap (decls : List MessageDecl) :
    messageWords decls = decls.flatMap MessageDecl.words := by
  induction decls with
  | nil => rw [messageWords, List.flatMap_nil]
  | cons decl rest inductionHypothesis =>
    rw [messageWords, inductionHypothesis, List.flatMap_cons]

/-- A message behind its keyword. -/
def MessageDecl.body (decl : MessageDecl) : List Word :=
  .identifier decl.name :: .symbol '{' ::
    (memberWords 0 decl.oneofs decl.fields ++ (decl.messages.flatMap MessageDecl.words ++
      (decl.enums.flatMap EnumDecl.words ++ [.symbol '}'])))

theorem MessageDecl.words_eq (decl : MessageDecl) :
    decl.words = .identifier "message" :: decl.body := by
  cases decl
  rw [words, messageWords_eq_flatMap, body]

/-! ## Files -/

/-- How a dialect is named. -/
def Dialect.name : Dialect → String
  | .proto2 => "proto2"
  | .proto3 => "proto3"

/-- An import. -/
def ImportDecl.words (decl : ImportDecl) : List Word :=
  .identifier "import" :: ((if decl.isPublic then [.identifier "public"] else []) ++
    [.string decl.path, .symbol ';'])

/-- The package, if there is one. -/
def packageWords : (package : Option String) → List Word
  | none => []
  | some name => [.identifier "package", dottedWord name.toList, .symbol ';']

namespace FileDecl

/-- All declarations of a text. -/
def words (file : FileDecl) : List Word :=
  .identifier "syntax" :: .symbol '=' :: .string file.dialect.name :: .symbol ';' ::
    (packageWords file.package ++ (file.imports.flatMap ImportDecl.words ++
      (file.messages.flatMap MessageDecl.words ++ file.enums.flatMap EnumDecl.words)))

/-- A text for declarations. -/
def text (file : FileDecl) : String := String.ofList (spellWords file.words)

end FileDecl

/-! ## Declarations that can be written -/

/-- The words that begin a statement of a message, or a field with a label. -/
def statementWords : List String :=
  ["message", "enum", "oneof", "option", "reserved", "extensions", "extend", "optional", "required",
    "repeated"]

/-- The identifier with which a type name begins, if it does not begin with a dot. -/
def TypeName.leading? (type : TypeName) : Option String :=
  match type.word with
  | .identifier name :: _ => some name
  | _ => none

/-- The word with which a type begins, if it does not begin with a dot. -/
def FieldType.leading? : FieldType → Option String
  | .single type => type.leading?
  | .map _ _ => some "map"

/-- A type name that is read as itself. -/
def TypeName.Expressible : TypeName → Prop
  | .scalar _ => True
  | .named name => isTypeName name = true ∧ Scalar.ofKeyword? name = none

/-- A type of which the name is read as itself.  The word `group` would begin a declaration that
is refused. -/
def FieldType.Expressible : FieldType → Prop
  | .single type => type.Expressible ∧ type.leading? ≠ some "group"
  | .map _ value => value.Expressible

/-- A field that can be written, in a message with some number of oneofs.  Its number is one that
a token holds, the language has no labels for maps, and without a label the first word of the type
is the first word of the statement. -/
structure FieldDecl.Expressible (oneofs : Nat) (decl : FieldDecl) : Prop
    extends FieldDecl.Sound oneofs decl where
  name : isIdentifier decl.name.toList = true
  number : decl.number ≤ maxInteger
  type : decl.type.Expressible
  mapUnlabelled : ∀ key value, decl.type = .map key value → decl.label = .unlabelled
  noStatement : decl.label = .unlabelled →
    ∃ word, decl.type.leading? = some word ∧ word ∉ statementWords

/-- A value that can be written: its name begins no other statement of an enumeration. -/
structure EnumValue.Expressible (value : EnumValue) : Prop where
  name : isIdentifier value.name.toList = true
  noStatement : value.name ≠ "option" ∧ value.name ≠ "reserved"
  number : Parser.isInt32 value.number = true

/-- An enumeration that can be written. -/
structure EnumDecl.Expressible (decl : EnumDecl) : Prop where
  name : isIdentifier decl.name.toList = true
  values : ∀ value ∈ decl.values, value.Expressible

/-- The oneofs that the fields belong to, one for each run of members of the same one. -/
def oneofRuns (previous : Option Nat) : List FieldDecl → List Nat
  | [] => []
  | field :: rest =>
    match field.oneof with
    | none => oneofRuns none rest
    | some index =>
      if previous = some index then oneofRuns previous rest
      else index :: oneofRuns (some index) rest

/-- A message that can be written.  The members of a oneof stand side by side, and the oneofs are
in the order of their members. -/
inductive MessageDecl.Expressible : MessageDecl → Prop
  | intro {decl : MessageDecl} (name : isIdentifier decl.name.toList = true)
      (fields : ∀ field ∈ decl.fields, field.Expressible decl.oneofs.length)
      (oneofs : ∀ oneof ∈ decl.oneofs, isIdentifier oneof.toList = true)
      (inOrder : (oneofRuns none decl.fields).Pairwise (· < ·))
      (messages : ∀ message ∈ decl.messages, MessageDecl.Expressible message)
      (enums : ∀ enum ∈ decl.enums, enum.Expressible) : MessageDecl.Expressible decl

/-- Declarations that can be written. -/
structure FileDecl.Expressible (file : FileDecl) : Prop where
  package : ∀ name, file.package = some name → isDottedName name.toList = true
  messages : ∀ message ∈ file.messages, message.Expressible
  enums : ∀ enum ∈ file.enums, enum.Expressible

/-! ## The order of members -/

theorem mem_oneofRuns {fields : List FieldDecl} {field : FieldDecl} (member : field ∈ fields)
    {index : Nat} (inOneof : field.oneof = some index) (previous : Option Nat) :
    previous = some index ∨ index ∈ oneofRuns previous fields := by
  induction fields generalizing previous with
  | nil => cases member
  | cons first rest inductionHypothesis =>
    rcases List.mem_cons.mp member with rfl | later
    · rw [oneofRuns, inOneof]
      by_cases same : previous = some index
      · exact Or.inl same
      · exact Or.inr (by simp only [if_neg same, List.mem_cons, true_or])
    · rw [oneofRuns]
      split
      · exact Or.inr ((inductionHypothesis later none).resolve_left nofun)
      · rename_i other isOther
        split
        · exact inductionHypothesis later previous
        · rcases inductionHypothesis later (some other) with same | inRest
          · cases same
            exact Or.inr List.mem_cons_self
          · exact Or.inr (List.mem_cons_of_mem _ inRest)

theorem exists_of_mem_oneofRuns {fields : List FieldDecl} {previous : Option Nat} {index : Nat}
    (member : index ∈ oneofRuns previous fields) : ∃ field ∈ fields, field.oneof = some index := by
  induction fields generalizing previous with
  | nil => cases member
  | cons first rest inductionHypothesis =>
    have later {given : Option Nat} (inRest : index ∈ oneofRuns given rest) :
        ∃ field ∈ first :: rest, field.oneof = some index := by
      rcases inductionHypothesis inRest with ⟨field, isField, inOneof⟩
      exact ⟨field, List.mem_cons_of_mem _ isField, inOneof⟩
    rw [oneofRuns] at member
    split at member
    · exact later member
    · rename_i other isOther
      split at member
      · exact later member
      · rcases List.mem_cons.mp member with rfl | inRest
        · exact ⟨first, List.mem_cons_self, isOther⟩
        · exact later inRest

/-- Fields in front of the first oneof are in no run. -/
theorem oneofRuns_dropWhile_none (fields : List FieldDecl) :
    oneofRuns none (fields.dropWhile fun field => field.oneof = none) = oneofRuns none fields := by
  induction fields with
  | nil => rfl
  | cons first rest inductionHypothesis =>
    by_cases plain : first.oneof = none
    · rw [List.dropWhile_cons_of_pos (by rwa [decide_eq_true_eq]), inductionHypothesis, oneofRuns,
        plain]
    · rw [List.dropWhile_cons_of_neg (by rwa [decide_eq_true_eq])]

/-- The members of a oneof are its run. -/
theorem oneofRuns_dropWhile_some (fields : List FieldDecl) (index : Nat) :
    oneofRuns none (fields.dropWhile fun field => field.oneof = some index) =
      oneofRuns (some index) fields := by
  induction fields with
  | nil => rfl
  | cons first rest inductionHypothesis =>
    by_cases member : first.oneof = some index
    · rw [List.dropWhile_cons_of_pos (by rwa [decide_eq_true_eq]), inductionHypothesis, oneofRuns,
        member]
      simp only [if_true]
    · rw [List.dropWhile_cons_of_neg (by rwa [decide_eq_true_eq]), oneofRuns, oneofRuns]
      split
      · rfl
      · rename_i other isOther
        have different : some index ≠ some other := fun same => member (same ▸ isOther)
        rw [if_neg nofun, if_neg different]

/-- Fields of which the oneofs come one behind the other: some number of oneofs from a position
on. -/
structure OneofsInOrder (next count : Nat) (fields : List FieldDecl) : Prop where
  ascending : (oneofRuns none fields).Pairwise (· < ·)
  inRange : ∀ index ∈ oneofRuns none fields, next ≤ index ∧ index < next + count

namespace OneofsInOrder

variable {next count : Nat} {fields : List FieldDecl}

theorem oneof_eq_none (inOrder : OneofsInOrder next 0 fields) :
    ∀ field ∈ fields, field.oneof = none := by
  intro field member
  cases inOneof : field.oneof with
  | none => rfl
  | some index =>
    have range := inOrder.inRange index ((mem_oneofRuns member inOneof none).resolve_left nofun)
    omega

/-- What follows the members of the first oneof, and the fields in front of it. -/
theorem behind (inOrder : OneofsInOrder next (count + 1) fields) :
    OneofsInOrder (next + 1) count ((fields.dropWhile fun field => field.oneof = none).dropWhile
      fun field => field.oneof = some next) := by
  rcases inOrder with ⟨ascending, inRange⟩
  rw [← oneofRuns_dropWhile_none] at ascending inRange
  have stopped := List.head?_dropWhile_not (fun field : FieldDecl => decide (field.oneof = none)) fields
  cases front : fields.dropWhile fun field => field.oneof = none with
  | nil => exact ⟨.nil, fun _ impossible => nomatch impossible⟩
  | cons first rest =>
    rw [front] at ascending inRange stopped
    rcases Option.ne_none_iff_exists'.mp (of_decide_eq_false stopped) with ⟨index, isIndex⟩
    have whole : oneofRuns none (first :: rest) = index :: oneofRuns (some index) rest := by
      rw [oneofRuns, isIndex]
      simp only [reduceCtorEq, if_false]
    rw [whole] at ascending inRange
    rcases List.pairwise_cons.mp ascending with ⟨above, ascendingRest⟩
    rcases List.forall_mem_cons.mp inRange with ⟨range, rangeRest⟩
    by_cases isNext : index = next
    · subst isNext
      have others : oneofRuns (some index) (first :: rest) = oneofRuns (some index) rest := by
        rw [oneofRuns, isIndex]
        simp only [if_true]
      refine ⟨?_, ?_⟩
      all_goals rw [oneofRuns_dropWhile_some, others]
      · exact ascendingRest
      · intro other member
        have bounds := rangeRest other member
        exact ⟨above other member, by omega⟩
    · have others : oneofRuns (some next) (first :: rest) = index :: oneofRuns (some index) rest := by
        rw [oneofRuns, isIndex]
        simp only [Option.some.injEq, Ne.symm isNext, if_false]
      refine ⟨?_, ?_⟩
      all_goals rw [oneofRuns_dropWhile_some, others]
      · exact ascending
      · refine List.forall_mem_cons.mpr ⟨⟨by omega, by omega⟩, fun other member => ?_⟩
        have greater := above other member
        have bounds := rangeRest other member
        exact ⟨by omega, by omega⟩

/-- The fields in front of the first oneof, its members, and the others. -/
theorem exists_split (inOrder : OneofsInOrder next (count + 1) fields) (name : String)
    (oneofs : List String) :
    ∃ front members others, fields = front ++ (members ++ others) ∧
      (∀ field ∈ front, field.oneof = none) ∧ (∀ field ∈ members, field.oneof = some next) ∧
      OneofsInOrder (next + 1) count others ∧
      memberWords next (name :: oneofs) fields =
        front.flatMap FieldDecl.words ++
          (oneofWords name members ++ memberWords (next + 1) oneofs others) := by
  refine ⟨_, _, _, ?_, fun field member => ?_, fun field member => ?_, inOrder.behind, rfl⟩
  · rw [List.takeWhile_append_dropWhile, List.takeWhile_append_dropWhile]
  · exact of_decide_eq_true (List.all_eq_true.mp List.all_takeWhile field member)
  · exact of_decide_eq_true (List.all_eq_true.mp List.all_takeWhile field member)

end OneofsInOrder

/-! ## Legible words -/

/-- Words that are all read back. -/
abbrev AllLegible (words : List Word) : Prop := ∀ word ∈ words, word.Legible

theorem AllLegible.append {words others : List Word} (legible : AllLegible words)
    (othersLegible : AllLegible others) : AllLegible (words ++ others) :=
  List.forall_mem_append.mpr ⟨legible, othersLegible⟩

theorem AllLegible.cons {word : Word} {words : List Word} (legible : word.Legible)
    (othersLegible : AllLegible words) : AllLegible (word :: words) :=
  List.forall_mem_cons.mpr ⟨legible, othersLegible⟩

theorem AllLegible.nil : AllLegible [] := fun _ member => nomatch member

theorem AllLegible.flatMap {α : Type} {items : List α} {words : α → List Word}
    (each : ∀ item ∈ items, AllLegible (words item)) : AllLegible (items.flatMap words) := by
  intro word member
  rcases List.mem_flatMap.mp member with ⟨item, isItem, inItem⟩
  exact each item isItem word inItem

theorem Word.Legible.identifier {name : String} (isName : isIdentifier name.toList = true) :
    Word.Legible (.identifier name) :=
  Word.legible_singleton isName

theorem Word.Legible.symbol {c : Char} (isSign : isSymbol c = true ∧ c ≠ '/') :
    Word.Legible (.symbol c) :=
  Word.legible_singleton isSign

theorem Word.Legible.string (text : String) : Word.Legible (.string text) :=
  Word.legible_singleton trivial

theorem isIdentifier_keyword (type : Scalar) : isIdentifier type.keyword.toList = true := by
  cases type <;> decide

theorem TypeName.Expressible.legible {type : TypeName} (expressible : type.Expressible) :
    type.word.Legible := by
  cases type with
  | scalar type => exact .identifier (isIdentifier_keyword type)
  | named name => exact legible_nameWord expressible.1

theorem FieldType.Expressible.legible {type : FieldType} (expressible : type.Expressible) :
    AllLegible type.words := by
  cases type with
  | single type => exact .cons expressible.1.legible .nil
  | map key value =>
    exact .cons (.identifier (by decide)) <| .cons (.symbol (by decide)) <|
      .cons (.identifier (isIdentifier_keyword key)) <|
      .cons (.symbol (by decide)) <| .cons (TypeName.Expressible.legible expressible) <|
      .cons (.symbol (by decide)) .nil

theorem allLegible_label (label : Label) : AllLegible label.words := by
  cases label with
  | unlabelled => exact .nil
  | optional | required | repeated => exact .cons (.identifier (by decide)) .nil

theorem allLegible_packedWords (packed : Bool) : AllLegible (packedWords packed) :=
  .cons (.identifier (by decide)) <| .cons (.symbol (by decide)) <|
    .cons (.identifier (by cases packed <;> decide)) .nil

theorem allLegible_jsonNameWords (name : String) : AllLegible (jsonNameWords name) :=
  .cons (.identifier (by decide)) <| .cons (.symbol (by decide)) <|
    .cons (.string name) .nil

theorem allLegible_optionWords (packed : Option Bool) (jsonName : Option String) :
    AllLegible (optionWords packed jsonName) := by
  have opening : Word.Legible (.symbol '[') := .symbol (by decide)
  have closing : AllLegible [.symbol ']'] := .cons (.symbol (by decide)) .nil
  cases packed with
  | none =>
    cases jsonName with
    | none => exact .nil
    | some name => exact .cons opening ((allLegible_jsonNameWords name).append closing)
  | some packed =>
    have first := allLegible_packedWords packed
    cases jsonName with
    | none => exact .cons opening (first.append closing)
    | some name =>
      exact .cons opening <| first.append <| .cons (.symbol (by decide)) <|
        (allLegible_jsonNameWords name).append closing

theorem FieldDecl.Expressible.legible {count : Nat} {decl : FieldDecl}
    (expressible : decl.Expressible count) : AllLegible decl.words :=
  (allLegible_label decl.label).append <| expressible.type.legible.append <|
    .cons (.identifier expressible.name) <| .cons (.symbol (by decide)) <|
    .cons (Word.legible_singleton expressible.number) <|
    (allLegible_optionWords decl.packed decl.jsonName).append <|
    .cons (.symbol (by decide)) .nil

theorem legible_signedWord {number : Int} (small : Parser.isInt32 number = true) :
    (signedWord number).Legible := by
  simp only [Parser.isInt32, Bool.and_eq_true, decide_eq_true_eq] at small
  cases number with
  | ofNat value =>
    rw [Int.ofNat_eq_natCast] at small
    refine Word.legible_singleton ?_
    rw [Token.Legible, maxInteger]
    omega
  | negSucc value =>
    refine ⟨⟨by decide, by decide⟩, fun _ _ _ impossible => absurd impossible (by decide),
      Word.legible_singleton ?_⟩
    rw [Int.negSucc_eq] at small
    rw [Token.Legible, maxInteger]
    omega

theorem EnumDecl.Expressible.legible {decl : EnumDecl} (expressible : decl.Expressible) :
    AllLegible decl.words :=
  .cons (.identifier (by decide)) <| .cons (.identifier expressible.name) <|
    .cons (.symbol (by decide)) <|
    (AllLegible.flatMap fun value member =>
      have valueExpressible := expressible.values value member
      .cons (.identifier valueExpressible.name) <| .cons (.symbol (by decide)) <|
        .cons (legible_signedWord valueExpressible.number) <|
        .cons (.symbol (by decide)) .nil).append <|
    .cons (.symbol (by decide)) .nil

/-- By induction on the oneofs. -/
theorem allLegible_memberWords {oneofs : List String} {fields : List FieldDecl} (next : Nat)
    (names : ∀ oneof ∈ oneofs, isIdentifier oneof.toList = true)
    (each : ∀ field ∈ fields, AllLegible field.words) :
    AllLegible (memberWords next oneofs fields) := by
  induction oneofs generalizing next fields with
  | nil => exact .flatMap each
  | cons name oneofs inductionHypothesis =>
    rcases List.forall_mem_cons.mp names with ⟨isName, others⟩
    rw [memberWords]
    refine AllLegible.append (.flatMap fun field member => each field ?_) <|
      .append (.cons (.identifier (by decide)) <| .cons (.identifier isName) <|
        .cons (.symbol (by decide)) <|
        .append (.flatMap fun field member => each field ?_) <|
        .cons (.symbol (by decide)) .nil) <|
      inductionHypothesis (next + 1) others fun field member => each field ?_
    · exact (List.takeWhile_sublist _).mem member
    · exact (List.dropWhile_sublist _).mem ((List.takeWhile_sublist _).mem member)
    · exact (List.dropWhile_sublist _).mem ((List.dropWhile_sublist _).mem member)

/-- By induction on the message. -/
theorem MessageDecl.Expressible.legible {decl : MessageDecl} (expressible : decl.Expressible) :
    AllLegible decl.words := by
  induction expressible with
  | @intro decl name fields oneofs _ _ enums inner =>
    rw [MessageDecl.words_eq]
    exact .cons (.identifier (by decide)) <| .cons (.identifier name) <|
      .cons (.symbol (by decide)) <|
      (allLegible_memberWords 0 oneofs fun field member => (fields field member).legible).append <|
      (AllLegible.flatMap inner).append <|
      (AllLegible.flatMap fun enum member => (enums enum member).legible).append <|
      .cons (.symbol (by decide)) .nil

theorem allLegible_import (decl : ImportDecl) : AllLegible decl.words := by
  refine .cons (.identifier (by decide)) <| .append ?_ <|
    .cons (.string _) <| .cons (.symbol (by decide)) .nil
  split
  · exact .cons (.identifier (by decide)) .nil
  · exact .nil

theorem allLegible_packageWords {package : Option String}
    (dotted : ∀ name, package = some name → isDottedName name.toList = true) :
    AllLegible (packageWords package) := by
  cases package with
  | none => exact .nil
  | some name =>
    exact .cons (.identifier (by decide)) <|
      .cons (legible_dottedWord (dotted name rfl)) <| .cons (.symbol (by decide)) .nil

/-- The words of declarations are all read back. -/
theorem FileDecl.Expressible.legible {file : FileDecl} (expressible : file.Expressible) :
    AllLegible file.words :=
  .cons (.identifier (by decide)) <| .cons (.symbol (by decide)) <|
    .cons (.string _) <| .cons (.symbol (by decide)) <|
    (allLegible_packageWords expressible.package).append <|
    (AllLegible.flatMap fun decl _ => allLegible_import decl).append <|
    (AllLegible.flatMap fun message member => (expressible.messages message member).legible).append <|
    AllLegible.flatMap fun enum member => (expressible.enums enum member).legible

end SchemaRecords.Schema
