import SchemaRecords.Proofs.Schema.SpelledTokens
import SchemaRecords.Schema.Declaration.Reader

/-!
# Where the names in a declaration come from

The lexer begins every identifier with a letter or an underscore and goes on with letters, digits
and underscores.  The parser takes the names of packages, messages, fields and enumerations from
the identifiers that it is given and makes up none.  So whatever is true of all identifiers is true
of these names.

A parser is judged by what it returns and by the tokens that it leaves, since these are what the
next parser is given.
-/

namespace SchemaRecords.Schema

/-! ## Identifiers -/

/-- The identifiers among some tokens are legal. -/
def Words (legal : String → Prop) (tokens : List Token) : Prop :=
  ∀ name, Token.identifier name ∈ tokens → legal name

section Words

variable {legal : String → Prop} {tokens : List Token}

theorem Words.mono {others : List Token} (words : Words legal tokens) (among : others ⊆ tokens) :
    Words legal others :=
  fun name member => words name (among member)

theorem Words.tail {token : Token} {rest : List Token} (words : Words legal (token :: rest)) :
    Words legal rest :=
  words.mono (List.subset_cons_self _ _)

end Words

/-- A number is no identifier. -/
theorem numberToken?_ne_identifier {text : List Char} {name : String} :
    numberToken? text ≠ some (.identifier name) := by
  intro isNumber
  unfold numberToken? at isNumber
  split at isNumber
  · rcases Option.map_eq_some_iff.mp isNumber with ⟨_, _, impossible⟩
    cases impossible
  · split at isNumber
    · rcases Option.map_eq_some_iff.mp isNumber with ⟨_, _, impossible⟩
      cases impossible
    · split at isNumber <;>
        rcases Option.map_eq_some_iff.mp isNumber with ⟨_, _, impossible⟩ <;>
        cases impossible

theorem isIdentifier_of_readToken {first : Char} {text rest : List Char} {name : String}
    (read : readToken first text = .ok (.identifier name, rest)) :
    isIdentifier name.toList = true := by
  unfold readToken at read
  split at read
  · rename_i starts
    cases read
    rw [String.toList_ofList, isIdentifier, starts, Bool.true_and]
    exact List.all_takeWhile
  · split at read
    · dsimp only at read
      split at read
      · rename_i token isNumber
        cases read
        exact absurd isNumber numberToken?_ne_identifier
      · cases read
    · split at read
      · rcases Outcome.map_eq_ok_iff.mp read with ⟨_, _, impossible⟩
        cases impossible
      · split at read
        · cases read
        · cases read

/-- By induction along the scan. -/
theorem words_of_scan {text : List Char} {lexemes : List Lexeme}
    (scanned : Lexeme.scan text = .ok lexemes) :
    Words (fun name => isIdentifier name.toList = true) (lexemes.map Lexeme.token) := by
  fun_induction Lexeme.scan text generalizing lexemes with
  | case1 => cases scanned
  | case2 =>
    cases scanned
    exact fun _ member => absurd member List.not_mem_nil
  | case3 => cases scanned
  | case4 text first rest _ token left read _ inductionHypothesis =>
    rcases Outcome.map_eq_ok_iff.mp scanned with ⟨behind, scannedLeft, same⟩
    subst same
    intro name member
    rcases List.mem_cons.mp member with here | later
    · subst here
      exact isIdentifier_of_readToken read
    · exact inductionHypothesis scannedLeft name later

/-! ## Legal declarations -/

/-- The name of a message is legal, and so are those of its fields and of all messages and
enumerations inside of it. -/
inductive MessageDecl.Legal (legal : String → Prop) : MessageDecl → Prop
  | intro {decl : MessageDecl} (name : legal decl.name)
      (fields : ∀ field ∈ decl.fields, legal field.name)
      (messages : ∀ inner ∈ decl.messages, MessageDecl.Legal legal inner) :
      MessageDecl.Legal legal decl

/-- The name of an enumeration is legal. -/
def EnumDecl.Legal (legal : String → Prop) (decl : EnumDecl) : Prop := legal decl.name

/-- The names that a text declares are legal, and its package begins with a legal name. -/
structure FileDecl.Legal (legal : String → Prop) (file : FileDecl) : Prop where
  package : ∀ name, file.package = some name → ∃ first more, name = first ++ more ∧ legal first
  messages : ∀ decl ∈ file.messages, decl.Legal legal
  enums : ∀ decl ∈ file.enums, decl.Legal legal

namespace MessageDecl.Legal

variable {legal : String → Prop} {decl : MessageDecl}

theorem name (names : decl.Legal legal) : legal decl.name := by
  cases names
  assumption

theorem fields (names : decl.Legal legal) : ∀ field ∈ decl.fields, legal field.name := by
  cases names
  assumption

theorem messages (names : decl.Legal legal) : ∀ inner ∈ decl.messages, inner.Legal legal := by
  cases names
  assumption

theorem addField (names : decl.Legal legal) {field : FieldDecl} (named : legal field.name) :
    MessageDecl.Legal legal { decl with fields := decl.fields ++ [field] } :=
  .intro names.name
    (List.forall_mem_append.mpr ⟨names.fields, List.forall_mem_singleton.mpr named⟩) names.messages

theorem addMessage (names : decl.Legal legal) {inner : MessageDecl} (named : inner.Legal legal) :
    MessageDecl.Legal legal { decl with messages := decl.messages ++ [inner] } :=
  .intro names.name names.fields
    (List.forall_mem_append.mpr ⟨names.messages, List.forall_mem_singleton.mpr named⟩)

end MessageDecl.Legal

/-! ## Judging parsers by what they read and leave -/

namespace Parser

/-- Where identifiers are legal, a parser leaves them so and returns what satisfies a property. -/
def Reads {α : Type} (legal : String → Prop) (parser : Parser α) (post : α → Prop) : Prop :=
  ∀ tokens value rest, Words legal tokens → parser tokens = .ok (value, rest) →
    Words legal rest ∧ post value

/-- Where identifiers are legal, a parser leaves them so. -/
def Leaves {α : Type} (legal : String → Prop) (parser : Parser α) : Prop :=
  Reads legal parser fun _ => True

variable {legal : String → Prop}

section Rules

variable {α β : Type} {post : α → Prop} {result : β → Prop}

theorem reads_pure {value : α} (holds : post value) : Reads legal (pure value) post := by
  intro tokens returned rest words read
  cases read
  exact ⟨words, holds⟩

theorem leaves_pure (value : α) : Leaves legal (pure value : Parser α) := reads_pure trivial

theorem Reads.bind {first : Parser α} {next : α → Parser β} (firstReads : Reads legal first post)
    (nextReads : ∀ value, post value → Reads legal (next value) result) :
    Reads legal (first >>= next) result := by
  intro tokens value rest words read
  rcases bind_eq_ok_iff.mp read with ⟨middle, left, step, read⟩
  rcases firstReads tokens middle left words step with ⟨leftWords, holds⟩
  exact nextReads middle holds left value rest leftWords read

theorem Leaves.bind {first : Parser α} {next : α → Parser β} (firstLeaves : Leaves legal first)
    (nextReads : ∀ value, Reads legal (next value) result) : Reads legal (first >>= next) result :=
  Reads.bind firstLeaves fun value _ => nextReads value

theorem Reads.leaves {parser : Parser α} (reads : Reads legal parser post) : Leaves legal parser :=
  fun tokens value rest words read => ⟨(reads tokens value rest words read).1, trivial⟩

theorem reads_ite {condition : Prop} [Decidable condition] {first second : Parser α}
    (yes : Reads legal first post) (no : Reads legal second post) :
    Reads legal (if condition then first else second) post := by
  split
  · exact yes
  · exact no

/-- What is known of a parser, for one of its runs. -/
theorem judge {parser : Parser α} {tokens rest : List Token} {value : α}
    (read : parser tokens = .ok (value, rest)) (words : Words legal tokens)
    (reads : Reads legal parser post) : Words legal rest ∧ post value :=
  reads tokens value rest words read

theorem leaves_get : Leaves legal (get : Parser (List Token)) := by
  intro tokens value rest words read
  cases read
  exact ⟨words, trivial⟩

theorem reads_failAtEnd (expected : Expected) : Reads legal (failAtEnd expected) post := by
  intro tokens value rest _ read
  cases read

theorem reads_failAt (tokens : List Token) (cause : GrammarCause) :
    Reads legal (failAt tokens cause) post := by
  intro tokens value rest _ read
  cases read

theorem reads_failFirst (expected : Expected) : Reads legal (failFirst expected) post := by
  intro tokens value rest _ read
  unfold failFirst at read
  split at read <;> cases read

theorem leaves_failFirst (expected : Expected) : Leaves legal (failFirst expected : Parser α) :=
  reads_failFirst expected

theorem reads_rounds {loop : Nat → Parser α} (each : ∀ count, Reads legal (loop count) post) :
    Reads legal (rounds loop) post :=
  fun tokens => each tokens.length tokens

end Rules

/-! ## Single tokens -/

theorem leaves_symbol (c : Char) : Leaves legal (symbol c) := by
  intro tokens value rest words read
  unfold symbol at read
  split at read
  · split at read
    · cases read
      exact ⟨words.tail, trivial⟩
    · exact leaves_failFirst _ _ _ _ words read
  · exact leaves_failFirst _ _ _ _ words read

theorem leaves_eatSymbol (c : Char) : Leaves legal (eatSymbol c) := by
  intro tokens value rest words read
  unfold eatSymbol at read
  split at read
  · split at read
    · cases read
      exact ⟨words.tail, trivial⟩
    · cases read
      exact ⟨words, trivial⟩
  · cases read
    exact ⟨words, trivial⟩

theorem leaves_eatWord (word : String) : Leaves legal (eatWord word) := by
  intro tokens value rest words read
  unfold eatWord at read
  split at read
  · split at read
    · cases read
      exact ⟨words.tail, trivial⟩
    · cases read
      exact ⟨words, trivial⟩
  · cases read
    exact ⟨words, trivial⟩

theorem reads_identifier : Reads legal identifier legal := by
  intro tokens value rest words read
  unfold identifier at read
  split at read
  · cases read
    exact ⟨words.tail, words value List.mem_cons_self⟩
  · exact reads_failFirst _ _ _ _ words read

theorem leaves_integer (expected : Expected) : Leaves legal (integer expected) := by
  intro tokens value rest words read
  unfold integer at read
  split at read
  · cases read
    exact ⟨words.tail, trivial⟩
  · exact leaves_failFirst _ _ _ _ words read

theorem spanStrings_subset (tokens : List Token) : (spanStrings tokens).2 ⊆ tokens := by
  fun_induction spanStrings tokens with
  | case1 text rest more left same inductionHypothesis =>
    rw [same] at inductionHypothesis
    exact List.subset_cons_of_subset _ inductionHypothesis
  | case2 tokens => exact fun _ member => member

theorem leaves_string : Leaves legal string := by
  intro tokens value rest words read
  unfold string at read
  split at read
  · rename_i text behind
    have left : (spanStrings (.string text :: behind)).2 = rest :=
      congrArg Prod.snd (Except.ok.inj read)
    exact ⟨words.mono (left ▸ spanStrings_subset _), trivial⟩
  · exact leaves_failFirst _ _ _ _ words read

/-! ## Names -/

theorem leaves_dottedParts : Leaves legal dottedParts := by
  intro tokens value rest words read
  suffices ∀ tokens value rest, spanDottedParts tokens = .ok (value, rest) → rest ⊆ tokens from
    ⟨words.mono (this tokens value rest read), trivial⟩
  clear read words
  intro tokens value rest read
  fun_induction spanDottedParts tokens generalizing value rest with
  | case1 name behind inductionHypothesis =>
    rcases Outcome.bind_eq_ok_iff.mp read with ⟨⟨more, left⟩, inner, result⟩
    cases result
    exact List.subset_cons_of_subset _ (List.subset_cons_of_subset _ (inductionHypothesis _ _ inner))
  | case2 behind =>
    unfold failFirst at read
    split at read <;> cases read
  | case3 tokens =>
    cases read
    exact fun _ member => member

/-- A dotted name begins with an identifier. -/
theorem reads_dottedName :
    Reads legal dottedName fun name => ∃ first more, name = first ++ more ∧ legal first :=
  reads_identifier.bind fun first named =>
    leaves_dottedParts.bind fun more => reads_pure ⟨first, more, rfl, named⟩

theorem leaves_typeName : Leaves legal typeName := by
  refine (leaves_eatSymbol _).bind fun absolute => ?_
  split
  · exact reads_dottedName.leaves.bind fun _ => leaves_pure _
  · exact reads_dottedName.leaves

theorem leaves_typeReference : Leaves legal typeReference := by
  refine leaves_typeName.bind fun name => ?_
  split
  · exact leaves_pure _
  · exact leaves_pure _

/-! ## What is passed over -/

theorem leaves_dropBlock (inner : Nat) : Leaves legal (dropBlock inner) := by
  intro tokens value rest words read
  fun_induction dropBlock inner tokens with
  | case1 => cases read
  | case2 inner behind inductionHypothesis => exact inductionHypothesis words.tail read
  | case3 behind =>
    cases read
    exact ⟨words.tail, trivial⟩
  | case4 inner behind inductionHypothesis => exact inductionHypothesis words.tail read
  | case5 inner token behind _ _ _ inductionHypothesis => exact inductionHypothesis words.tail read

theorem leaves_skipBlock : Leaves legal skipBlock :=
  (leaves_symbol _).bind fun _ => leaves_dropBlock 0

theorem leaves_skipStatement : Leaves legal skipStatement := by
  intro tokens value rest words read
  rw [skipStatement] at read
  fun_induction dropStatement tokens with
  | case1 => cases read
  | case2 behind =>
    cases read
    exact ⟨words.tail, trivial⟩
  | case3 token behind _ inductionHypothesis => exact inductionHypothesis words.tail read

/-! ## Options -/

theorem leaves_optionNamePart : Leaves legal optionNamePart := by
  refine (leaves_eatSymbol _).bind fun inParentheses => ?_
  split
  · exact leaves_typeName.bind fun _ => (leaves_symbol _).bind fun _ => leaves_pure _
  · exact reads_identifier.leaves

theorem leaves_optionNameRest (count : Nat) : ∀ name, Leaves legal (optionNameRest count name) := by
  induction count with
  | zero => exact fun name => leaves_pure name
  | succ count inductionHypothesis =>
    refine fun name => (leaves_eatSymbol _).bind fun more => ?_
    split
    · exact leaves_optionNamePart.bind fun _ => inductionHypothesis _
    · exact leaves_pure name

theorem leaves_optionName : Leaves legal optionName :=
  leaves_optionNamePart.bind fun first => reads_rounds fun count => leaves_optionNameRest count first

theorem leaves_signedNumber : Leaves legal signedNumber := by
  intro tokens value rest words read
  unfold signedNumber at read
  split at read
  · cases read
    exact ⟨words.tail, trivial⟩
  · cases read
    exact ⟨words.tail, trivial⟩
  · split at read
    · cases read
      exact ⟨words.tail, trivial⟩
    · exact leaves_failFirst _ _ _ _ words read
  · exact leaves_failFirst _ _ _ _ words read

theorem leaves_optionValue : Leaves legal optionValue := by
  intro tokens value rest words read
  unfold optionValue at read
  split at read
  · exact (leaves_string.bind fun _ => leaves_pure _) _ _ _ words read
  · cases read
    exact ⟨words.tail, trivial⟩
  · cases read
    exact ⟨words.tail, trivial⟩
  · exact leaves_signedNumber _ _ _ words.tail read
  · exact leaves_signedNumber _ _ _ words.tail read
  · exact (leaves_skipBlock.bind fun _ => leaves_pure _) _ _ _ words read
  · split at read
    · cases read
      exact ⟨words.tail, trivial⟩
    split at read
    · cases read
      exact ⟨words.tail, trivial⟩
    · exact (leaves_dottedParts.bind fun _ => leaves_pure _) _ _ _ words.tail read
  · exact leaves_failFirst _ _ _ _ words read

theorem leaves_optionStatement : Leaves legal optionStatement :=
  leaves_optionName.bind fun _ => (leaves_symbol _).bind fun _ =>
    leaves_optionValue.bind fun _ => leaves_symbol _

theorem leaves_addOption (options : FieldOptions) (tokens : List Token) (name : String)
    (value : OptionValue) : Leaves legal (options.add tokens name value) := by
  unfold FieldOptions.add
  split
  · split
    · exact leaves_pure _
    · exact reads_failAt _ _
  · split
    · split
      · exact leaves_pure _
      · exact reads_failAt _ _
    · exact leaves_pure _

theorem leaves_fieldOptionList (count : Nat) :
    ∀ options, Leaves legal (fieldOptionList count options) := by
  induction count with
  | zero => exact fun _ => reads_failAtEnd _
  | succ count inductionHypothesis =>
    refine fun options => leaves_get.bind fun tokens => ?_
    split
    · exact reads_failAtEnd _
    · refine leaves_optionName.bind fun _ => (leaves_symbol _).bind fun _ =>
        leaves_optionValue.bind fun _ => (leaves_addOption _ _ _ _).bind fun _ =>
          (leaves_eatSymbol _).bind fun more => ?_
      split
      · exact inductionHypothesis _
      · exact leaves_pure _

theorem leaves_fieldOptions : Leaves legal fieldOptions := by
  refine (leaves_eatSymbol _).bind fun given => ?_
  split
  · exact (reads_rounds fun count => leaves_fieldOptionList count _).bind fun _ _ =>
      (leaves_symbol _).bind fun _ => leaves_pure _
  · exact leaves_pure _

/-! ## Fields -/

theorem leaves_mapType : Leaves legal mapType := by
  refine (leaves_symbol _).bind fun _ => leaves_get.bind fun tokens => ?_
  split
  · exact reads_failAtEnd _
  · refine reads_identifier.leaves.bind fun name => ?_
    split
    · exact reads_failAt _ _
    · exact (leaves_symbol _).bind fun _ => leaves_typeReference.bind fun _ =>
        (leaves_symbol _).bind fun _ => leaves_pure _

theorem leaves_fieldType (label : Label) : Leaves legal (fieldType label) := by
  intro tokens value rest words read
  unfold fieldType at read
  split at read
  · cases read
  · split at read
    · exact leaves_mapType _ _ _ words.tail read
    · cases read
  · cases read
  · exact (leaves_typeReference.bind fun _ => leaves_pure _) _ _ _ words read

theorem reads_field (label : Label) (oneof : Option Nat) (place : Nat) :
    Reads legal (field label oneof place) fun decl => legal decl.name :=
  (leaves_fieldType label).bind fun _ => reads_identifier.bind fun _ named =>
    (leaves_symbol _).bind fun _ => (leaves_integer _).bind fun _ =>
      leaves_fieldOptions.bind fun _ => (leaves_symbol _).bind fun _ => reads_pure named

/-! ## Blocks -/

section Blocks

variable {α : Type} {post : α → Prop} {expected : Expected} {item : α → Parser α}

/-- What every item of a block preserves holds behind the block. -/
theorem reads_blockItems (step : ∀ state, post state → Reads legal (item state) post) (count : Nat) :
    ∀ state, post state → Reads legal (blockItems expected item count state) post := by
  induction count with
  | zero => exact fun _ _ => reads_failAtEnd expected
  | succ count inductionHypothesis =>
    intro state holds tokens value rest words read
    unfold blockItems at read
    split at read
    · cases read
    · cases read
      exact ⟨words.tail, holds⟩
    · exact inductionHypothesis state holds _ _ _ words.tail read
    · exact (step state holds).bind inductionHypothesis _ _ _ words read

theorem reads_block {state : α} (start : post state)
    (step : ∀ state, post state → Reads legal (item state) post) :
    Reads legal (block expected item state) post :=
  (leaves_symbol _).bind fun _ => reads_rounds fun count => reads_blockItems step count state start

end Blocks

theorem leaves_enumNumber : Leaves legal enumNumber :=
  (leaves_eatSymbol _).bind fun _ => leaves_get.bind fun _ => (leaves_integer _).bind fun _ =>
    reads_ite (leaves_pure _) (reads_failAt _ _)

theorem reads_enumMember (decl : EnumDecl) (named : decl.Legal legal) :
    Reads legal (enumMember decl) (EnumDecl.Legal legal) := by
  intro tokens value rest words read
  unfold enumMember at read
  split at read
  · split at read
    · exact judge read words.tail (leaves_optionStatement.bind fun _ => reads_pure named)
    split at read
    · exact judge read words.tail (leaves_skipStatement.bind fun _ => reads_pure named)
    · exact judge read words.tail ((leaves_symbol _).bind fun _ => leaves_enumNumber.bind fun _ =>
        leaves_fieldOptions.bind fun _ => (leaves_symbol _).bind fun _ => reads_pure named)
  · exact judge read words (reads_failFirst _)

theorem reads_enumeration : Reads legal enumeration (EnumDecl.Legal legal) :=
  reads_identifier.bind fun _ named => reads_block named reads_enumMember

/-! ## Messages -/

theorem reads_oneofMember (index : Nat) (decl : MessageDecl) (names : decl.Legal legal) :
    Reads legal (oneofMember index decl) (MessageDecl.Legal legal) := by
  intro tokens value rest words read
  unfold oneofMember at read
  split at read
  · split at read
    · exact judge read words.tail (leaves_optionStatement.bind fun _ => reads_pure names)
    split at read
    · cases read
    · refine judge read words ((reads_field _ _ _).bind fun member named => ?_)
      split
      · exact reads_failAt _ _
      · exact reads_pure (names.addField named)
  · exact judge read words (reads_failFirst _)

theorem reads_oneof (decl : MessageDecl) (names : decl.Legal legal) :
    Reads legal (oneof decl) (MessageDecl.Legal legal) :=
  reads_identifier.leaves.bind fun _ =>
    reads_block (.intro names.name names.fields names.messages) (reads_oneofMember _)

theorem reads_messageMember {inner : Nat → Parser MessageDecl}
    (innerReads : ∀ place, Reads legal (inner place) (MessageDecl.Legal legal)) (decl : MessageDecl)
    (names : decl.Legal legal) : Reads legal (messageMember inner decl) (MessageDecl.Legal legal) := by
  have kept {skipped : Parser Unit} (leaves : Leaves legal skipped) :
      Reads legal (skipped >>= fun _ => pure decl) (MessageDecl.Legal legal) :=
    leaves.bind fun _ => reads_pure names
  intro tokens value rest words read
  unfold messageMember at read
  split at read
  · split at read
    · exact judge read words.tail ((innerReads _).bind fun _ named =>
        reads_pure (names.addMessage named))
    split at read
    · exact judge read words.tail (reads_enumeration.leaves.bind fun _ =>
        reads_pure (.intro names.name names.fields names.messages))
    split at read
    · exact judge read words.tail (reads_oneof decl names)
    split at read
    · exact judge read words.tail (kept leaves_optionStatement)
    split at read
    · exact judge read words.tail (kept leaves_skipStatement)
    split at read
    · exact judge read words.tail (leaves_typeName.bind fun _ => kept leaves_skipBlock)
    split at read
    · exact judge read words.tail ((reads_field _ _ _).bind fun _ named =>
        reads_pure (names.addField named))
    · exact judge read words ((reads_field _ _ _).bind fun _ named =>
        reads_pure (names.addField named))
  · exact judge read words (reads_failFirst _)

/-- By induction on how deep messages may lie inside of each other. -/
theorem reads_message (nesting : Nat) :
    ∀ place, Reads legal (message nesting place) (MessageDecl.Legal legal) := by
  induction nesting with
  | zero => exact fun _ => reads_failAtEnd _
  | succ nesting inductionHypothesis =>
    refine fun place => reads_identifier.bind fun name named =>
      reads_block ?_ (reads_messageMember inductionHypothesis)
    exact .intro named (fun _ member => nomatch member) (fun _ member => nomatch member)

/-! ## Files -/

theorem leaves_dialect (tokens : List Token) : Leaves legal (dialect tokens) :=
  (leaves_symbol _).bind fun _ => leaves_string.bind fun _ =>
    reads_ite ((leaves_symbol _).bind fun _ => leaves_pure _)
      (reads_ite ((leaves_symbol _).bind fun _ => leaves_pure _) (reads_failAt _ _))

theorem leaves_importStatement : Leaves legal importStatement := by
  refine (leaves_eatWord _).bind fun isPublic => ?_
  have path : Leaves legal (do
      let path ← string
      symbol ';'
      return ImportDecl.mk path isPublic) :=
    leaves_string.bind fun _ => (leaves_symbol _).bind fun _ => leaves_pure _
  exact reads_ite ((leaves_eatWord _).bind fun _ => path) path

theorem reads_package (file : FileDecl) (tokens : List Token) (names : file.Legal legal) :
    Reads legal (package file tokens) (FileDecl.Legal legal) := by
  refine reads_ite (reads_failAt _ _) (reads_dottedName.bind fun name named =>
    (leaves_symbol _).bind fun _ => reads_pure ?_)
  exact ⟨fun _ same => Option.some.inj same ▸ named, names.messages, names.enums⟩

theorem reads_topLevel (file : FileDecl) (names : file.Legal legal) :
    Reads legal (topLevel file) (FileDecl.Legal legal) := by
  intro tokens value rest words read
  unfold topLevel at read
  split at read
  · cases read
    exact ⟨words.tail, names⟩
  · split at read
    · exact judge read words.tail ((leaves_dialect _).bind fun _ =>
        reads_pure ⟨names.package, names.messages, names.enums⟩)
    split at read
    · exact judge read words.tail (reads_package file _ names)
    split at read
    · exact judge read words.tail (leaves_importStatement.bind fun _ =>
        reads_pure ⟨names.package, names.messages, names.enums⟩)
    split at read
    · exact judge read words.tail (leaves_optionStatement.bind fun _ => reads_pure names)
    split at read
    · refine judge read words.tail ((reads_message _ _).bind fun message named =>
        reads_pure ⟨names.package, ?_, names.enums⟩)
      exact List.forall_mem_append.mpr ⟨names.messages, List.forall_mem_singleton.mpr named⟩
    split at read
    · refine judge read words.tail (reads_enumeration.bind fun enum named =>
        reads_pure ⟨names.package, names.messages, ?_⟩)
      exact List.forall_mem_append.mpr ⟨names.enums, List.forall_mem_singleton.mpr named⟩
    split at read
    · exact judge read words.tail (leaves_typeName.bind fun _ => leaves_skipBlock.bind fun _ =>
        reads_pure names)
    · cases read
  · exact judge read words (reads_failFirst _)

theorem reads_file (count : Nat) :
    ∀ decl : FileDecl, decl.Legal legal → Reads legal (file count decl) (FileDecl.Legal legal) := by
  induction count with
  | zero => exact fun _ names => reads_pure names
  | succ count inductionHypothesis =>
    intro decl names tokens value rest words read
    unfold file at read
    split at read
    · cases read
      exact ⟨words, names⟩
    · exact judge read words ((reads_topLevel decl names).bind inductionHypothesis)

end Parser

/-- The names that a text declares are identifiers. -/
theorem SchemaText.legal_of_read {text : String} {schema : SchemaText}
    (read : SchemaText.read text = .ok schema) :
    schema.file.Legal fun name => isIdentifier name.toList = true := by
  unfold SchemaText.read at read
  split at read
  · cases read
  · rename_i lexemes scanned
    split at read
    · cases read
    · rename_i file parsed
      cases read
      rcases Outcome.map_eq_ok_iff.mp parsed with ⟨⟨_, left⟩, run, same⟩
      cases same
      have start : FileDecl.empty.Legal fun name => isIdentifier name.toList = true :=
        ⟨fun _ impossible => (nomatch impossible), fun _ member => (nomatch member),
          fun _ member => (nomatch member)⟩
      exact (Parser.reads_file _ _ start _ _ _ (words_of_scan scanned) run).2

end SchemaRecords.Schema
