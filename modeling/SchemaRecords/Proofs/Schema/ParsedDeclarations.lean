import SchemaRecords.Proofs.Schema.ParsedFields

/-!
# Parsed declarations

Written declarations are parsed as themselves, apart from the places in them: a place counts
tokens up to the end of the text, so it is not known from the declaration alone.

The body of a block is a sequence of items.  Each item takes the state of the parser one step
further, and the states are compared without the places in them.
-/

namespace SchemaRecords.Schema

/-! ## Declarations without places -/

/-- A field without its place. -/
def FieldDecl.unplaced (decl : FieldDecl) : FieldDecl := { decl with place := 0 }

mutual

/-- A message without the places in it. -/
def MessageDecl.unplaced : MessageDecl → MessageDecl
  | ⟨name, fields, oneofs, messages, enums, _⟩ =>
    ⟨name, fields.map FieldDecl.unplaced, oneofs, unplacedMessages messages, enums, 0⟩

/-- Messages without the places in them. -/
def unplacedMessages : List MessageDecl → List MessageDecl
  | [] => []
  | decl :: rest => decl.unplaced :: unplacedMessages rest

end

theorem unplacedMessages_eq_map (decls : List MessageDecl) :
    unplacedMessages decls = decls.map MessageDecl.unplaced := by
  induction decls with
  | nil => rw [unplacedMessages, List.map_nil]
  | cons decl rest inductionHypothesis =>
    rw [unplacedMessages, inductionHypothesis, List.map_cons]

theorem MessageDecl.unplaced_eq (decl : MessageDecl) :
    decl.unplaced = ⟨decl.name, decl.fields.map FieldDecl.unplaced, decl.oneofs,
      decl.messages.map MessageDecl.unplaced, decl.enums, 0⟩ := by
  cases decl
  rw [unplaced, unplacedMessages_eq_map]

/-- Declarations without the places in them. -/
def FileDecl.unplaced (file : FileDecl) : FileDecl :=
  { file with messages := file.messages.map MessageDecl.unplaced }

namespace Parser

/-! ## Items -/

section Items

variable {σ τ : Type} {item : σ → Parser σ} {erase : σ → τ} {tokens more : List Token}
  {before middle after : τ}

/-- The tokens of an item, which begin with an identifier, take any state that shows as `before`
to one that shows as `after`. -/
def Advances (item : σ → Parser σ) (erase : σ → τ) (tokens : List Token) (before after : τ) :
    Prop :=
  (∃ word more, tokens = .identifier word :: more) ∧
    ∀ state rest, erase state = before →
      ∃ reached, Yields (item state) (tokens ++ rest) reached rest ∧ erase reached = after

/-- The tokens of some items, one behind the other. -/
inductive Items (item : σ → Parser σ) (erase : σ → τ) : List Token → τ → τ → Prop
  | nil {state : τ} : Items item erase [] state state
  | cons {tokens more : List Token} {before middle after : τ}
      (first : Advances item erase tokens before middle)
      (others : Items item erase more middle after) : Items item erase (tokens ++ more) before after

theorem Items.append (items : Items item erase tokens before middle)
    (others : Items item erase more middle after) :
    Items item erase (tokens ++ more) before after := by
  induction items with
  | nil => exact others
  | cons first _ inductionHypothesis =>
    rw [List.append_assoc]
    exact .cons first (inductionHypothesis others)

theorem Items.single (advances : Advances item erase tokens before after) :
    Items item erase tokens before after := by
  rw [← List.append_nil tokens]
  exact .cons advances .nil

/-- An item for each element of a list; `reach` says where some of them lead. -/
theorem Items.each {α : Type} {words : α → List Word} {reach : τ → List α → τ}
    (nil : ∀ state, reach state [] = state)
    (cons : ∀ state first others, reach (reach state [first]) others = reach state (first :: others))
    {elements : List α} (before : τ)
    (step : ∀ element ∈ elements, ∀ state,
      Advances item erase (words element).flatten state (reach state [element])) :
    Items item erase (elements.flatMap words).flatten before (reach before elements) := by
  induction elements generalizing before with
  | nil =>
    rw [nil]
    exact .nil
  | cons first others inductionHypothesis =>
    rcases List.forall_mem_cons.mp step with ⟨here, later⟩
    rw [List.flatMap_cons, List.flatten_append, ← cons]
    exact .cons (here before) (inductionHypothesis _ later)

/-- A loop that takes an item in each round takes items up to what ends it, given `least` rounds
for that end.  By induction on the items, each of which is at least one token. -/
theorem Items.yields {loop : Nat → σ → Parser σ} {behind left : List Token} {least : Nat}
    (turn : ∀ count state word more, loop (count + 1) state (.identifier word :: more) =
      (do loop count (← item state) : Parser σ) (.identifier word :: more))
    (ends : ∀ count state, least ≤ count → Yields (loop count state) behind state left)
    (items : Items item erase tokens before after) {state : σ} (start : erase state = before)
    {count : Nat} (enough : tokens.length + least ≤ count) :
    ∃ reached, Yields (loop count state) (tokens ++ behind) reached left ∧ erase reached = after := by
  induction items generalizing state count with
  | nil =>
    rw [List.length_nil, Nat.zero_add] at enough
    exact ⟨state, ends count state enough, start⟩
  | @cons tokens more before middle after first others inductionHypothesis =>
    rcases first with ⟨⟨word, within, rfl⟩, advances⟩
    rw [List.length_append, List.length_cons] at enough
    cases count with
    | zero => omega
    | succ count =>
      rcases advances state (more ++ behind) start with ⟨next, yieldsNext, isNext⟩
      have fewer : more.length + least ≤ count := by omega
      rcases inductionHypothesis isNext fewer with ⟨reached, yieldsMore, isReached⟩
      refine ⟨reached, ?_, isReached⟩
      rw [List.append_assoc, List.cons_append, Yields, turn]
      exact yieldsNext.bind yieldsMore

theorem yields_block (expected : Expected) (items : Items item erase tokens before after) {state : σ}
    (start : erase state = before) (rest : List Token) :
    ∃ reached, Yields (block expected item state) (.symbol '{' :: (tokens ++ .symbol '}' :: rest))
      reached rest ∧ erase reached = after := by
  have closes (count : Nat) (state : σ) (least : 1 ≤ count) :
      Yields (blockItems expected item count state) (.symbol '}' :: rest) state rest := by
    cases count with
    | zero => exact absurd least (Nat.not_succ_le_zero 0)
    | succ count => rfl
  have enough : tokens.length + 1 ≤ (tokens ++ .symbol '}' :: rest).length := by
    rw [List.length_append, List.length_cons]
    omega
  rcases items.yields (fun _ _ _ _ => rfl) closes start enough with ⟨reached, yields, isReached⟩
  exact ⟨reached, (yields_symbol _ _).bind yields, isReached⟩

end Items

/-! ## Enumerations -/

theorem yields_enumNumber {number : Int} (small : isInt32 number = true) (rest : List Token) :
    Yields enumNumber (signedWord number ++ rest) number rest := by
  -- Either sign leaves the test of the number that was meant.
  have accepted (tokens : List Token) :
      Yields (if isInt32 number = true then pure number
        else failAt tokens (.enumNumberOutOfRange number)) rest number rest := by
    rw [if_pos small]
    exact yields_pure _ _
  cases number with
  | ofNat value =>
    change Yields enumNumber (.integer value :: rest) _ _
    exact (yields_eatSymbol_false (notFirst_cons (by simp) _)).bind <| (yields_get _).bind <|
      (yields_integer _ _ _).bind (accepted _)
  | negSucc value =>
    exact (yields_eatSymbol _ _).bind <| (yields_get _).bind <| (yields_integer _ _ _).bind
      (accepted _)

/-- An enumeration with further values. -/
def withValues (decl : EnumDecl) (values : List EnumValue) : EnumDecl :=
  { decl with values := decl.values ++ values }

theorem advances_enumMember {value : EnumValue} (expressible : value.Expressible)
    (decl : EnumDecl) :
    Advances enumMember id value.words.flatten decl (withValues decl [value]) := by
  have tokens : value.words.flatten =
      .identifier value.name :: .symbol '=' :: (signedWord value.number ++ [.symbol ';']) := by
    simp [EnumValue.words]
  rw [tokens]
  refine ⟨⟨_, _, rfl⟩, fun state rest same => ⟨_, ?_, rfl⟩⟩
  rw [id] at same
  rw [same, List.cons_append, List.cons_append, List.append_assoc, Yields, enumMember,
    if_neg expressible.noStatement.1, if_neg expressible.noStatement.2]
  exact (yields_symbol _ _).bind <| (yields_enumNumber expressible.number _).bind <|
    (yields_fieldOptions none none rest).bind <|
    (yields_symbol _ _).bind <| yields_pure _ _

theorem yields_enumeration {decl : EnumDecl} (expressible : decl.Expressible) (rest : List Token) :
    Yields enumeration (decl.body.flatten ++ rest) decl rest := by
  have tokens : decl.body.flatten ++ rest = .identifier decl.name :: .symbol '{' ::
      ((decl.values.flatMap EnumValue.words).flatten ++ .symbol '}' :: rest) := by
    simp [EnumDecl.body]
  have items : Items enumMember id (decl.values.flatMap EnumValue.words).flatten
      ⟨decl.name, []⟩ (withValues ⟨decl.name, []⟩ decl.values) :=
    Items.each (fun _ => by simp [withValues]) (fun _ _ _ => by simp [withValues]) _
      fun value member => advances_enumMember (expressible.values value member)
  rcases yields_block .enumMember items rfl rest with ⟨reached, yields, same⟩
  rw [tokens]
  refine (yields_identifier _ _).bind ?_
  rw [id] at same
  rw [same] at yields
  exact yields

/-! ## Fields of messages -/

/-- A message with further fields, without their places. -/
def withFields (decl : MessageDecl) (fields : List FieldDecl) : MessageDecl :=
  { decl with fields := decl.fields ++ fields.map FieldDecl.unplaced }

theorem withFields_nil (decl : MessageDecl) : withFields decl [] = decl := by
  cases decl
  rw [withFields, List.map_nil, List.append_nil]

theorem withFields_cons (decl : MessageDecl) (first : FieldDecl) (others : List FieldDecl) :
    withFields (withFields decl [first]) others = withFields decl (first :: others) := by
  simp [withFields]

theorem unplaced_addField (decl : MessageDecl) (field : FieldDecl) (place : Nat) :
    MessageDecl.unplaced { decl with fields := decl.fields ++ [{ field with place := place }] } =
      withFields decl.unplaced [field] := by
  simp [MessageDecl.unplaced_eq, withFields, FieldDecl.unplaced]

/-- An item that adds a field, wherever it stands. -/
theorem advances_addField {item : MessageDecl → Parser MessageDecl} {tokens : List Token}
    {decl : FieldDecl} (begins : ∃ word more, tokens = .identifier word :: more)
    (adds : ∀ state rest, ∃ place, Yields (item state) (tokens ++ rest)
      { state with fields := state.fields ++ [{ decl with place := place }] } rest)
    (before : MessageDecl) :
    Advances item MessageDecl.unplaced tokens before (withFields before [decl]) := by
  refine ⟨begins, fun state rest same => ?_⟩
  rcases adds state rest with ⟨place, yields⟩
  exact ⟨_, yields, same ▸ unplaced_addField state decl place⟩

/-- The first word of an unlabelled field. -/
theorem exists_of_leading? {type : FieldType} {word : String} (leads : type.leading? = some word) :
    ∃ more, type.words.flatten = .identifier word :: more := by
  cases type with
  | single type =>
    simp only [FieldType.leading?, TypeName.leading?] at leads
    split at leads
    · rename_i name more same
      cases leads
      exact ⟨more, by rw [FieldType.words, List.flatten_singleton, same]⟩
    · cases leads
  | map key value =>
    cases leads
    exact ⟨_, rfl⟩

theorem labelOf?_eq_none {word : String} (noStatement : word ∉ statementWords) :
    labelOf? word = none := by
  simp only [statementWords, List.mem_cons, List.not_mem_nil, or_false, not_or] at noStatement
  simp [labelOf?, noStatement]

/-- A word that begins nothing else begins an unlabelled field. -/
theorem messageMember_eq_field {inner : Nat → Parser MessageDecl} {decl : MessageDecl}
    {word : String} (noStatement : word ∉ statementWords) (more : List Token) :
    messageMember inner decl (.identifier word :: more) =
      (do
        return { decl with
          fields := decl.fields ++ [← field .unlabelled none (more.length + 1)] } : Parser _)
        (.identifier word :: more) := by
  have noLabel := labelOf?_eq_none noStatement
  simp only [statementWords, List.mem_cons, List.not_mem_nil, or_false, not_or] at noStatement
  simp only [messageMember, noStatement, if_false, noLabel, List.length_cons, or_self]

theorem messageMember_label {inner : Nat → Parser MessageDecl} {decl : MessageDecl}
    {label : Label} (labelled : label ≠ .unlabelled) (rest : List Token) :
    messageMember inner decl (label.words.flatten ++ rest) =
      (do
        return { decl with
          fields := decl.fields ++ [← field label none (rest.length + 1)] } : Parser _) rest := by
  cases label with
  | unlabelled => exact absurd rfl labelled
  | optional | required | repeated => rfl

/-- The first word of an unlabelled field begins nothing else. -/
theorem exists_of_unlabelled {count : Nat} {decl : FieldDecl}
    (expressible : decl.Expressible count) (unlabelled : decl.label = .unlabelled) :
    ∃ word more, word ∉ statementWords ∧ decl.words.flatten = .identifier word :: more ∧
      decl.body.flatten = .identifier word :: more := by
  rcases expressible.noStatement unlabelled with ⟨word, leads, noStatement⟩
  rcases exists_of_leading? leads with ⟨more, begins⟩
  have body : ∃ more, decl.body.flatten = .identifier word :: more := by
    rw [FieldDecl.body, List.flatten_append, begins]
    exact ⟨_, rfl⟩
  rcases body with ⟨behind, isBody⟩
  refine ⟨word, behind, noStatement, ?_, isBody⟩
  rw [FieldDecl.words, unlabelled, Label.words, List.nil_append, isBody]

/-- A field that belongs to no oneof. -/
theorem advances_field {inner : Nat → Parser MessageDecl} {count : Nat} {decl : FieldDecl}
    (expressible : decl.Expressible count) (plain : decl.oneof = none) (before : MessageDecl) :
    Advances (messageMember inner) MessageDecl.unplaced decl.words.flatten before
      (withFields before [decl]) := by
  by_cases unlabelled : decl.label = .unlabelled
  · rcases exists_of_unlabelled expressible unlabelled with ⟨word, more, noStatement, isWords, isBody⟩
    refine advances_addField ⟨word, more, isWords⟩
      (fun state rest => ⟨(more ++ rest).length + 1, ?_⟩) before
    have yields := yields_field expressible unlabelled plain ((more ++ rest).length + 1) rest
    rw [isBody, List.cons_append] at yields
    rw [isWords, List.cons_append, Yields, messageMember_eq_field noStatement]
    exact yields.bind (yields_pure _ _)
  · refine advances_addField ?_
      (fun state rest => ⟨(decl.body.flatten ++ rest).length + 1, ?_⟩) before
    · rw [FieldDecl.words]
      cases label : decl.label with
      | unlabelled => exact absurd label unlabelled
      | optional | required | repeated => exact ⟨_, _, rfl⟩
    · have yields := yields_field expressible rfl plain ((decl.body.flatten ++ rest).length + 1) rest
      rw [FieldDecl.words, List.flatten_append, List.append_assoc, Yields,
        messageMember_label unlabelled]
      exact yields.bind (yields_pure _ _)

/-! ## Oneofs -/

/-- A member of the oneof at some position. -/
theorem advances_oneofMember {count index : Nat} {decl : FieldDecl}
    (expressible : decl.Expressible count) (member : decl.oneof = some index)
    (before : MessageDecl) :
    Advances (oneofMember index) MessageDecl.unplaced decl.words.flatten before
      (withFields before [decl]) := by
  rcases expressible.oneofSingle (by rw [member]; rfl) with ⟨unlabelled, type, single⟩
  rcases exists_of_unlabelled expressible unlabelled with ⟨word, more, noStatement, isWords, isBody⟩
  refine advances_addField ⟨word, more, isWords⟩
      (fun state rest => ⟨(more ++ rest).length + 1, ?_⟩) before
  have yields := yields_field expressible unlabelled member ((more ++ rest).length + 1) rest
  have noLabel := labelOf?_eq_none noStatement
  have noOption : word ≠ "option" := by
    rintro rfl
    exact noStatement (by decide)
  rw [isBody, List.cons_append] at yields
  rw [isWords, List.cons_append, Yields, oneofMember, if_neg noOption, noLabel]
  refine yields.bind ?_
  rw [single]
  exact yields_pure _ _

/-- A message with a further oneof and its members. -/
def withOneof (decl : MessageDecl) (name : String) (members : List FieldDecl) : MessageDecl :=
  withFields { decl with oneofs := decl.oneofs ++ [name] } members

/-- The oneof that comes next in a message. -/
theorem advances_oneof (inner : Nat → Parser MessageDecl) {count : Nat} (name : String)
    {members : List FieldDecl} (expressible : ∀ member ∈ members, member.Expressible count)
    (before : MessageDecl)
    (inside : ∀ member ∈ members, member.oneof = some before.oneofs.length) :
    Advances (messageMember inner) MessageDecl.unplaced (oneofWords name members).flatten before
      (withOneof before name members) := by
  have tokens : (oneofWords name members).flatten = .identifier "oneof" :: .identifier name ::
      .symbol '{' :: ((members.flatMap FieldDecl.words).flatten ++ [.symbol '}']) := by
    simp [oneofWords]
  rw [tokens]
  refine ⟨⟨_, _, rfl⟩, fun state rest same => ?_⟩
  have position : before.oneofs.length = state.oneofs.length := by
    rw [← same, MessageDecl.unplaced_eq]
  have items : Items (oneofMember state.oneofs.length) MessageDecl.unplaced
      (members.flatMap FieldDecl.words).flatten { before with oneofs := before.oneofs ++ [name] }
      (withOneof before name members) :=
    Items.each withFields_nil withFields_cons _ fun member isMember =>
      advances_oneofMember (expressible member isMember) (position ▸ inside member isMember)
  have start : MessageDecl.unplaced { state with oneofs := state.oneofs ++ [name] } =
      { before with oneofs := before.oneofs ++ [name] } := by
    rw [← same]
    simp only [MessageDecl.unplaced_eq]
  rcases yields_block .oneofMember items start rest with ⟨reached, yields, isReached⟩
  refine ⟨reached, ?_, isReached⟩
  rw [List.cons_append, List.cons_append, List.cons_append, List.append_assoc, Yields]
  exact (yields_identifier _ _).bind yields

/-! ## Messages -/

/-- Fields and oneofs, by induction on the oneofs. -/
theorem items_members (inner : Nat → Parser MessageDecl) {count next : Nat} {oneofs : List String}
    {fields : List FieldDecl} (expressible : ∀ field ∈ fields, field.Expressible count)
    (inOrder : OneofsInOrder next oneofs.length fields) (before : MessageDecl)
    (position : before.oneofs.length = next) :
    Items (messageMember inner) MessageDecl.unplaced (memberWords next oneofs fields).flatten before
      (withFields { before with oneofs := before.oneofs ++ oneofs } fields) := by
  induction oneofs generalizing fields before next with
  | nil =>
    rw [List.append_nil, memberWords]
    exact Items.each withFields_nil withFields_cons _ fun field member =>
      advances_field (expressible field member) (inOrder.oneof_eq_none field member)
  | cons name oneofs inductionHypothesis =>
    rcases inOrder.exists_split name oneofs with
      ⟨front, members, others, rfl, plain, inside, inOrderBehind, words⟩
    simp only [List.forall_mem_append] at expressible
    rcases expressible with ⟨frontExpressible, membersExpressible, othersExpressible⟩
    have frontItems : Items (messageMember inner) MessageDecl.unplaced
        (front.flatMap FieldDecl.words).flatten before (withFields before front) :=
      Items.each withFields_nil withFields_cons _ fun field member =>
        advances_field (frontExpressible field member) (plain field member)
    rw [← position] at inside
    have oneof := advances_oneof inner name membersExpressible (withFields before front) inside
    have positionBehind :
        (withOneof (withFields before front) name members).oneofs.length = next + 1 := by
      simp [withOneof, withFields, position]
    have othersItems := inductionHypothesis othersExpressible inOrderBehind _ positionBehind
    have reached : withFields { withOneof (withFields before front) name members with
          oneofs := (withOneof (withFields before front) name members).oneofs ++ oneofs } others =
        withFields { before with oneofs := before.oneofs ++ name :: oneofs }
          (front ++ (members ++ others)) := by
      simp [withOneof, withFields]
    rw [reached] at othersItems
    rw [words, List.flatten_append, List.flatten_append]
    exact frontItems.append ((Items.single oneof).append othersItems)

/-- A message with further messages and enumerations inside of it, without the places in them. -/
def withInner (decl : MessageDecl) (messages : List MessageDecl) (enums : List EnumDecl) :
    MessageDecl :=
  { decl with
    messages := decl.messages ++ messages.map MessageDecl.unplaced
    enums := decl.enums ++ enums }

theorem withInner_nil (decl : MessageDecl) : withInner decl [] [] = decl := by
  cases decl
  rw [withInner, List.map_nil, List.append_nil, List.append_nil]

theorem withInner_append (decl : MessageDecl) (messages others : List MessageDecl)
    (enums otherEnums : List EnumDecl) :
    withInner (withInner decl messages enums) others otherEnums =
      withInner decl (messages ++ others) (enums ++ otherEnums) := by
  simp [withInner]

/-- A parser for messages inside of a message parses one of them, up to the places in it. -/
def Recovers (parser : Nat → Parser MessageDecl) (decl : MessageDecl) : Prop :=
  ∀ place rest, ∃ read, Yields (parser place) (decl.body.flatten ++ rest) read rest ∧
    read.unplaced = decl.unplaced

theorem advances_message {inner : Nat → Parser MessageDecl} {decl : MessageDecl}
    (recovers : Recovers inner decl) (before : MessageDecl) :
    Advances (messageMember inner) MessageDecl.unplaced decl.words.flatten before
      (withInner before [decl] []) := by
  rw [MessageDecl.words_eq]
  refine ⟨⟨_, _, rfl⟩, fun state rest same => ?_⟩
  rcases recovers ((decl.body.flatten ++ rest).length + 1) rest with ⟨read, yields, isRead⟩
  refine ⟨{ state with messages := state.messages ++ [read] }, yields.bind (yields_pure _ _), ?_⟩
  rw [← same, MessageDecl.unplaced_eq, MessageDecl.unplaced_eq state]
  simp [withInner, isRead]

theorem advances_enum {inner : Nat → Parser MessageDecl} {decl : EnumDecl}
    (expressible : decl.Expressible) (before : MessageDecl) :
    Advances (messageMember inner) MessageDecl.unplaced decl.words.flatten before
      (withInner before [] [decl]) := by
  refine ⟨⟨_, _, rfl⟩, fun state rest same => ?_⟩
  refine ⟨{ state with enums := state.enums ++ [decl] },
    (yields_enumeration expressible rest).bind (yields_pure _ _), ?_⟩
  rw [← same]
  simp [MessageDecl.unplaced_eq, withInner]

theorem items_messages {inner : Nat → Parser MessageDecl} {decls : List MessageDecl}
    (recovers : ∀ decl ∈ decls, Recovers inner decl) (before : MessageDecl) :
    Items (messageMember inner) MessageDecl.unplaced (decls.flatMap MessageDecl.words).flatten before
      (withInner before decls []) := by
  apply Items.each
  · exact withInner_nil
  · exact fun state first others => withInner_append state [first] others [] []
  · exact fun decl member => advances_message (recovers decl member)

theorem items_enums {inner : Nat → Parser MessageDecl} {decls : List EnumDecl}
    (expressible : ∀ decl ∈ decls, decl.Expressible) (before : MessageDecl) :
    Items (messageMember inner) MessageDecl.unplaced (decls.flatMap EnumDecl.words).flatten before
      (withInner before [] decls) := by
  apply Items.each
  · exact withInner_nil
  · exact fun state first others => withInner_append state [] [] [first] others
  · exact fun decl member => advances_enum (expressible decl member)

theorem length_words_le {decls : List MessageDecl} {decl : MessageDecl} (member : decl ∈ decls) :
    decl.words.flatten.length ≤ (decls.flatMap MessageDecl.words).flatten.length := by
  rcases List.append_of_mem member with ⟨front, behind, rfl⟩
  rw [List.flatMap_append, List.flatMap_cons, List.flatten_append, List.flatten_append,
    List.length_append, List.length_append]
  omega

/-- A written message is parsed as itself, up to the places in it.  By induction on the message;
its tokens are more than there are messages inside of each other. -/
theorem recovers_message {decl : MessageDecl} (expressible : decl.Expressible) :
    ∀ nesting, decl.words.flatten.length ≤ nesting + 1 → Recovers (message nesting) decl := by
  induction expressible with
  | @intro decl _ fields _ inOrder messages enums inductionHypothesis =>
    have tokens : decl.body.flatten = .identifier decl.name :: .symbol '{' ::
        ((memberWords 0 decl.oneofs decl.fields).flatten ++
          ((decl.messages.flatMap MessageDecl.words).flatten ++
            (decl.enums.flatMap EnumDecl.words).flatten) ++ [.symbol '}']) := by
      simp [MessageDecl.body]
    intro nesting enough place rest
    rw [MessageDecl.words_eq, List.flatten_cons, tokens] at enough
    simp only [List.length_append, List.length_cons, List.length_nil] at enough
    cases nesting with
    | zero => omega
    | succ nesting =>
      have order : OneofsInOrder 0 decl.oneofs.length decl.fields := by
        refine ⟨inOrder, fun index member => ⟨Nat.zero_le _, ?_⟩⟩
        rcases exists_of_mem_oneofRuns member with ⟨field, isField, inOneof⟩
        rw [Nat.zero_add]
        exact (fields field isField).oneofInRange index inOneof
      have inside : ∀ inner ∈ decl.messages, Recovers (message nesting) inner := by
        intro inner member
        have shorter := length_words_le member
        exact inductionHypothesis inner member nesting (by omega)
      let opened : MessageDecl := ⟨decl.name, [], [], [], [], place⟩
      have memberItems := items_members (message nesting) fields order opened.unplaced rfl
      have items := memberItems.append ((items_messages inside _).append (items_enums enums _))
      rcases yields_block .messageMember items rfl rest with ⟨read, yields, isRead⟩
      refine ⟨read, ?_, isRead.trans ?_⟩
      · rw [tokens, List.cons_append, List.cons_append, List.append_assoc]
        exact (yields_identifier _ _).bind yields
      · have start : opened.unplaced = ⟨decl.name, [], [], [], [], 0⟩ := rfl
        rw [start, MessageDecl.unplaced_eq]
        simp [withInner, withFields]

end Parser
end SchemaRecords.Schema
