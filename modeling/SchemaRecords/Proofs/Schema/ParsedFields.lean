import SchemaRecords.Proofs.Schema.WrittenDeclarations

/-!
# Parsed fields

A written field is parsed as itself.  `Yields` follows a parser over the tokens that it takes, in
front of whatever is left; a run of a parser that consists of parts is put together from the runs
of the parts by one rule.  Some parsers look at the token behind the one they take, so that a run
may ask how the tokens begin that are left.
-/

namespace SchemaRecords.Schema

open SchemaRecords.Text

namespace Parser

/-! ## Runs -/

/-- From the given tokens, a parser returns a result and leaves some of them. -/
def Yields {α : Type} (parser : Parser α) (tokens : List Token) (result : α) (left : List Token) :
    Prop :=
  parser tokens = .ok (result, left)

/-- Another token than the given symbol stands first, if any. -/
def NotFirst (c : Char) (tokens : List Token) : Prop := tokens.head? ≠ some (.symbol c)

theorem notFirst_cons {c : Char} {token : Token} (different : token ≠ .symbol c)
    (rest : List Token) : NotFirst c (token :: rest) :=
  fun same => different (Option.some.inj same)

section Rules

variable {α β : Type} {tokens middle left : List Token} {value : α} {result : β}

theorem Yields.bind {first : Parser α} {next : α → Parser β}
    (firstYields : Yields first tokens value middle)
    (nextYields : Yields (next value) middle result left) :
    Yields (first >>= next) tokens result left :=
  bind_eq_ok_iff.mpr ⟨value, middle, firstYields, nextYields⟩

theorem yields_pure (value : α) (tokens : List Token) : Yields (pure value) tokens value tokens :=
  rfl

theorem yields_get (tokens : List Token) : Yields get tokens tokens tokens := rfl

theorem yields_symbol (c : Char) (rest : List Token) :
    Yields (symbol c) (.symbol c :: rest) () rest := by
  rw [Yields, symbol, if_pos rfl]

theorem yields_eatSymbol (c : Char) (rest : List Token) :
    Yields (eatSymbol c) (.symbol c :: rest) true rest := by
  rw [Yields, eatSymbol, if_pos rfl]

theorem yields_eatSymbol_false {c : Char} (other : NotFirst c tokens) :
    Yields (eatSymbol c) tokens false tokens := by
  unfold Yields eatSymbol
  split
  · rename_i found rest
    rw [if_neg]
    rintro rfl
    exact other rfl
  · rfl

theorem yields_identifier (name : String) (rest : List Token) :
    Yields identifier (.identifier name :: rest) name rest := rfl

theorem yields_integer (expected : Expected) (value : Nat) (rest : List Token) :
    Yields (integer expected) (.integer value :: rest) value rest := rfl

theorem noString_symbol (c : Char) (rest : List Token) (more : String) :
    (Token.symbol c :: rest).head? ≠ some (.string more) := nofun

/-- A string that is written in one part. -/
theorem yields_string (text : String) {rest : List Token}
    (alone : ∀ more, rest.head? ≠ some (.string more)) :
    Yields string (.string text :: rest) text rest := by
  have nothing : spanStrings rest = ("", rest) := by
    unfold spanStrings
    split
    · rename_i more behind
      exact absurd rfl (alone more)
    · rfl
  rw [Yields, string, spanStrings, nothing]
  simp only [String.append_empty]

end Rules

/-! ## Names -/

theorem point_append (text : List Char) :
    "." ++ String.ofList text = String.ofList ('.' :: text) :=
  String.ofList_append.symm

theorem yields_dottedParts (parts : List (List Char)) {rest : List Token}
    (ends : NotFirst '.' rest) :
    Yields dottedParts (pointedParts parts ++ rest)
      (String.ofList (parts.flatMap ('.' :: ·))) rest := by
  unfold Yields dottedParts
  induction parts with
  | nil =>
    rw [pointedParts, List.flatMap_nil, List.nil_append, List.flatMap_nil]
    unfold spanDottedParts
    split
    · exact absurd rfl ends
    · exact absurd rfl ends
    · rfl
  | cons part parts inductionHypothesis =>
    rw [pointedParts_cons, List.cons_append, List.cons_append, spanDottedParts,
      inductionHypothesis, List.flatMap_cons, String.ofList_append, ← point_append]
    rfl

theorem yields_dottedName {name : List Char} (isName : isDottedName name = true)
    {rest : List Token} (ends : NotFirst '.' rest) :
    Yields dottedName (dottedWord name ++ rest) (String.ofList name) rest := by
  rcases exists_dottedWord isName with ⟨first, others, word, _, _, same⟩
  rw [word, List.cons_append, same, String.ofList_append]
  exact (yields_identifier _ _).bind ((yields_dottedParts others ends).bind (yields_pure _ _))

theorem yields_typeName {name : String} (isName : isTypeName name = true) {rest : List Token}
    (ends : NotFirst '.' rest) : Yields typeName (nameWord name ++ rest) name rest := by
  rcases nameWord_cases isName with ⟨inner, isInner, same, word⟩ | ⟨isDotted, word⟩
  · rw [word, List.cons_append, same, ← point_append]
    exact (yields_eatSymbol _ _).bind ((yields_dottedName isInner ends).bind (yields_pure _ _))
  · have yields := yields_dottedName isDotted ends
    rw [String.ofList_toList] at yields
    rw [word]
    refine (yields_eatSymbol_false ?_).bind yields
    rcases exists_dottedWord isDotted with ⟨first, others, word, _⟩
    rw [word]
    exact fun impossible => nomatch impossible

/-! ## Types -/

theorem yields_typeReference {type : TypeName} (expressible : type.Expressible)
    {rest : List Token} (ends : NotFirst '.' rest) :
    Yields typeReference (type.word ++ rest) type rest := by
  cases type with
  | scalar type =>
    -- A keyword is read as a name of one part.
    have name : Yields typeName (.identifier type.keyword :: rest) type.keyword rest :=
      (yields_eatSymbol_false (notFirst_cons (by simp) _)).bind <|
        (yields_identifier _ _).bind <| (yields_dottedParts [] ends).bind <| by
          rw [List.flatMap_nil, String.ofList_nil, String.append_empty]
          exact yields_pure _ _
    refine name.bind ?_
    rw [Scalar.ofKeyword?_keyword]
    exact yields_pure _ _
  | named name =>
    rcases expressible with ⟨isName, noKeyword⟩
    refine (yields_typeName isName ends).bind ?_
    rw [noKeyword]
    exact yields_pure _ _

/-- The tokens of the type of a map behind the word `map`. -/
def mapTokens (key : Scalar) (value : TypeName) (rest : List Token) : List Token :=
  .symbol '<' :: .identifier key.keyword :: .symbol ',' :: (value.word ++ .symbol '>' :: rest)

theorem yields_mapType {key : Scalar} (isKey : key.isMapKey = true) {value : TypeName}
    (expressible : value.Expressible) (rest : List Token) :
    Yields mapType (mapTokens key value rest) (.map key value) rest := by
  refine (yields_symbol _ _).bind <| (yields_get _).bind ?_
  rw [if_neg (List.cons_ne_nil _ _)]
  refine (yields_identifier _ _).bind ?_
  have legal : (Scalar.ofKeyword? key.keyword).filter Scalar.isMapKey = some key := by
    rw [Scalar.ofKeyword?_keyword, Option.filter_some, if_pos isKey]
  rw [legal]
  exact (yields_symbol _ _).bind <|
    (yields_typeReference expressible (notFirst_cons (by decide) _)).bind <|
    (yields_symbol _ _).bind <| yields_pure _ _

theorem word_cases {type : TypeName} (expressible : type.Expressible) :
    (∃ more, type.word = .symbol '.' :: more) ∨
      ∃ first parts, type.word = .identifier first :: pointedParts parts := by
  cases type with
  | scalar type => exact Or.inr ⟨type.keyword, [], rfl⟩
  | named name =>
    rcases nameWord_cases expressible.1 with ⟨inner, _, _, word⟩ | ⟨isDotted, word⟩
    · exact Or.inl ⟨dottedWord inner, word⟩
    · rcases exists_dottedWord isDotted with ⟨first, others, dotted, _⟩
      exact Or.inr ⟨String.ofList first, others, word.trans dotted⟩

/-- A type name is no map type: no angle bracket stands behind its first identifier. -/
theorem word_ne_map {type : TypeName} (expressible : type.Expressible) {name : String}
    {rest more : List Token} :
    type.word ++ .identifier name :: rest ≠ .identifier "map" :: .symbol '<' :: more := by
  intro same
  rcases word_cases expressible with ⟨inner, word⟩ | ⟨first, parts, word⟩
  · rw [word] at same
    cases same
  · rw [word] at same
    cases parts with
    | nil => cases (List.cons.inj same).2
    | cons part parts => cases (List.cons.inj same).2

theorem leading?_of_cons {type : TypeName} (expressible : type.Expressible) {name word : String}
    {rest more : List Token}
    (same : type.word ++ .identifier name :: rest = .identifier word :: more) :
    type.leading? = some word := by
  unfold TypeName.leading?
  rcases word_cases expressible with ⟨inner, isWord⟩ | ⟨first, parts, isWord⟩
  · rw [isWord] at same
    cases same
  · rw [isWord] at same ⊢
    cases same
    rfl

/-- A type in front of the name of its field. -/
theorem yields_fieldType {type : FieldType} {label : Label} (expressible : type.Expressible)
    (legal : LegalType type) (unlabelled : ∀ key value, type = .map key value → label = .unlabelled)
    (name : String) (rest : List Token) :
    Yields (fieldType label) (type.words.flatten ++ .identifier name :: rest) type
      (.identifier name :: rest) := by
  cases type with
  | single type =>
    rcases expressible with ⟨readable, noGroup⟩
    rw [FieldType.words, List.flatten_singleton]
    have follows : NotFirst '.' (.identifier name :: rest) := notFirst_cons (by simp) _
    have yields := yields_typeReference readable follows
    unfold Yields fieldType
    split
    · rename_i nothing
      exact absurd nothing (List.append_ne_nil_of_right_ne_nil _ (List.cons_ne_nil _ _))
    · rename_i isMap
      exact absurd isMap (word_ne_map readable)
    · rename_i isGroup
      exact absurd (leading?_of_cons readable isGroup) noGroup
    · exact yields.bind (yields_pure _ _)
  | map key value =>
    have yields := yields_mapType (legal key value rfl) expressible (.identifier name :: rest)
    have tokens : (FieldType.map key value).words.flatten ++ .identifier name :: rest =
        .identifier "map" :: mapTokens key value (.identifier name :: rest) := by
      simp [FieldType.words, mapTokens]
    rw [tokens, unlabelled key value rfl, Yields, mapTokens, fieldType, if_pos rfl]
    exact yields

/-! ## Options -/

theorem yields_optionName (name : String) (rest : List Token) :
    Yields optionName (.identifier name :: .symbol '=' :: rest) name (.symbol '=' :: rest) := by
  have part : Yields optionNamePart (.identifier name :: .symbol '=' :: rest) name
      (.symbol '=' :: rest) :=
    (yields_eatSymbol_false (notFirst_cons (by simp) _)).bind (yields_identifier _ _)
  refine part.bind ?_
  change Yields (optionNameRest (rest.length + 1) name) _ _ _
  exact (yields_eatSymbol_false (notFirst_cons (by decide) _)).bind (yields_pure _ _)

section OptionLists

variable {options added result : FieldOptions} {name : String} {value : OptionValue}
  {tokens left rest : List Token} {count : Nat}

/-- An option at the front of a list, up to what follows it. -/
theorem yields_fieldOptionList (isValue : Yields optionValue tokens value left)
    (adds : ∀ given, Yields (options.add given name value) left added left)
    (follows : Yields (do if ← eatSymbol ',' then fieldOptionList count added else return added) left
      result rest) :
    Yields (fieldOptionList (count + 1) options) (.identifier name :: .symbol '=' :: tokens) result
      rest := by
  refine (yields_get _).bind ?_
  rw [if_neg (List.cons_ne_nil _ _)]
  exact (yields_optionName _ _).bind <| (yields_symbol _ _).bind <| isValue.bind <|
    (adds _).bind follows

/-- The last option of a list. -/
theorem yields_lastOption (isValue : Yields optionValue tokens value left)
    (adds : ∀ given, Yields (options.add given name value) left added left)
    (ends : NotFirst ',' left) :
    Yields (fieldOptionList (count + 1) options) (.identifier name :: .symbol '=' :: tokens) added
      left :=
  yields_fieldOptionList isValue adds ((yields_eatSymbol_false ends).bind (yields_pure _ _))

end OptionLists

theorem yields_flag (packed : Bool) (rest : List Token) :
    Yields optionValue (.identifier (if packed then "true" else "false") :: rest) (.flag packed)
      rest := by
  cases packed <;> rfl

theorem yields_text (text : String) {rest : List Token}
    (alone : ∀ more, rest.head? ≠ some (.string more)) :
    Yields optionValue (.string text :: rest) (.text text) rest :=
  (yields_string text alone).bind (yields_pure _ _)

theorem yields_add_packed (options : FieldOptions) (packed : Bool) (given left : List Token) :
    Yields (options.add given "packed" (.flag packed)) left { options with packed := some packed }
      left := rfl

theorem yields_add_jsonName (options : FieldOptions) (name : String) (given left : List Token) :
    Yields (options.add given "json_name" (.text name)) left { options with jsonName := some name }
      left := rfl

/-- The options of a field, in front of its semicolon. -/
theorem yields_fieldOptions (packed : Option Bool) (jsonName : Option String) (rest : List Token) :
    Yields fieldOptions ((optionWords packed jsonName).flatten ++ .symbol ';' :: rest)
      ⟨packed, jsonName⟩ (.symbol ';' :: rest) := by
  have closing {options : FieldOptions} {tokens : List Token}
      (list : Yields (rounds fun count => fieldOptionList count ⟨none, none⟩) tokens options
        (.symbol ']' :: .symbol ';' :: rest)) :
      Yields fieldOptions (.symbol '[' :: tokens) options (.symbol ';' :: rest) :=
    (yields_eatSymbol _ _).bind <| list.bind <| (yields_symbol _ _).bind <| yields_pure _ _
  cases packed with
  | none =>
    cases jsonName with
    | none =>
      exact (yields_eatSymbol_false (notFirst_cons (by decide) _)).bind (yields_pure _ _)
    | some name =>
      exact closing <| yields_lastOption (yields_text name (noString_symbol _ _))
        (fun _ => yields_add_jsonName _ _ _ _) (notFirst_cons (by decide) _)
  | some packed =>
    cases jsonName with
    | none =>
      exact closing <| yields_lastOption (yields_flag packed _)
        (fun _ => yields_add_packed _ _ _ _) (notFirst_cons (by decide) _)
    | some name =>
      exact closing <| yields_fieldOptionList (yields_flag packed _)
        (fun _ => yields_add_packed _ _ _ _) <| (yields_eatSymbol _ _).bind <|
        yields_lastOption (yields_text name (noString_symbol _ _)) (fun _ => yields_add_jsonName _ _ _ _)
          (notFirst_cons (by decide) _)

/-! ## Fields -/

/-- A written field is parsed as itself, at the place that it is given. -/
theorem yields_field {count : Nat} {decl : FieldDecl} (expressible : decl.Expressible count)
    {label : Label} (isLabel : decl.label = label) {oneof : Option Nat}
    (isOneof : decl.oneof = oneof) (place : Nat) (rest : List Token) :
    Yields (field label oneof place) (decl.body.flatten ++ rest) { decl with place := place }
      rest := by
  subst isLabel
  subst isOneof
  have tokens : decl.body.flatten ++ rest = decl.type.words.flatten ++ .identifier decl.name ::
      .symbol '=' :: .integer decl.number :: ((optionWords decl.packed decl.jsonName).flatten ++
        .symbol ';' :: rest) := by
    simp [FieldDecl.body]
  rw [tokens]
  exact (yields_fieldType expressible.type expressible.mapKey expressible.mapUnlabelled _ _).bind <|
    (yields_identifier _ _).bind <| (yields_symbol _ _).bind <| (yields_integer _ _ _).bind <|
    (yields_fieldOptions _ _ _).bind <| (yields_symbol _ _).bind <| yields_pure _ _

end Parser
end SchemaRecords.Schema
