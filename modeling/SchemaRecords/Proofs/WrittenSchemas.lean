import SchemaRecords.Proofs.Schema.ParsedDeclarations

/-!
# Written schemas

Declarations survive their text: whatever can be written at all is read back, with every list in
its order.  What cannot be written is excluded by the conditions of `FileDecl.Expressible`, each
of which names a way in which the text would say something else.

Lexing and parsing are taken one after the other.  The lexer turns the text into the tokens of its
words, and the parser takes the declarations of the text item by item.
-/

namespace SchemaRecords.Schema

namespace Parser

/-! ## Statements of a text -/

/-- A text with further declarations, without the places in them. -/
def withDeclarations (file : FileDecl) (imports : List ImportDecl) (messages : List MessageDecl)
    (enums : List EnumDecl) : FileDecl :=
  { file with
    imports := file.imports ++ imports
    messages := file.messages ++ messages.map MessageDecl.unplaced
    enums := file.enums ++ enums }

theorem withDeclarations_nil (file : FileDecl) : withDeclarations file [] [] [] = file := by
  simp [withDeclarations]

theorem withDeclarations_append (file : FileDecl) (imports otherImports : List ImportDecl)
    (messages otherMessages : List MessageDecl) (enums otherEnums : List EnumDecl) :
    withDeclarations (withDeclarations file imports messages enums) otherImports otherMessages
        otherEnums =
      withDeclarations file (imports ++ otherImports) (messages ++ otherMessages)
        (enums ++ otherEnums) := by
  simp [withDeclarations]

theorem yields_dialect (given : List Token) (value : Dialect) (rest : List Token) :
    Yields (dialect given) (.symbol '=' :: .string value.name :: .symbol ';' :: rest) value rest := by
  refine (yields_symbol _ _).bind <| (yields_string _ (noString_symbol _ _)).bind ?_
  cases value with
  | proto2 => exact (yields_symbol _ _).bind (yields_pure _ _)
  | proto3 => exact (yields_symbol _ _).bind (yields_pure _ _)

theorem advances_dialect (value : Dialect) (before : FileDecl) :
    Advances topLevel FileDecl.unplaced
      [.identifier "syntax", .symbol '=', .string value.name, .symbol ';'] before
      { before with dialect := value } := by
  refine ⟨⟨_, _, rfl⟩, fun state rest same => ⟨{ state with dialect := value }, ?_, ?_⟩⟩
  · exact (yields_dialect _ value rest).bind (yields_pure _ _)
  · rw [← same]
    rfl

theorem items_package {package : Option String}
    (dotted : ∀ name, package = some name → isDottedName name.toList = true) {before : FileDecl}
    (first : before.package = none) :
    Items topLevel FileDecl.unplaced (packageWords package).flatten before
      { before with package := package } := by
  cases package with
  | none =>
    have unchanged : { before with package := none } = before := by
      rw [← first]
    rw [unchanged]
    exact .nil
  | some name =>
    have tokens : (packageWords (some name)).flatten =
        .identifier "package" :: (dottedWord name.toList ++ [.symbol ';']) := by
      simp [packageWords]
    rw [tokens]
    refine .single ⟨⟨_, _, rfl⟩, fun state rest same =>
      ⟨{ state with package := some name }, ?_, by rw [← same]; rfl⟩⟩
    have unset : state.package.isSome = false := by
      rw [← same] at first
      exact Option.isSome_eq_false_iff.mpr (Option.isNone_iff_eq_none.mpr first)
    have follows : NotFirst '.' (.symbol ';' :: rest) := notFirst_cons (by decide) _
    have yields := yields_dottedName (dotted name rfl) follows
    rw [String.ofList_toList] at yields
    rw [List.cons_append, List.append_assoc]
    change Yields (Parser.package state _) _ _ _
    rw [Parser.package, unset]
    exact yields.bind <| (yields_symbol _ _).bind (yields_pure _ _)

theorem yields_importStatement (decl : ImportDecl) (rest : List Token) :
    Yields importStatement
      ((if decl.isPublic then [.identifier "public"] else []) ++
        .string decl.path :: .symbol ';' :: rest) decl rest := by
  cases decl with
  | mk path isPublic =>
    have path_yields : Yields (do let path ← string; symbol ';'; return ImportDecl.mk path isPublic)
        (.string path :: .symbol ';' :: rest) ⟨path, isPublic⟩ rest :=
      (yields_string _ (noString_symbol _ _)).bind <| (yields_symbol _ _).bind <| yields_pure _ _
    cases isPublic with
    | true => exact path_yields
    | false => exact path_yields

theorem advances_import (decl : ImportDecl) (before : FileDecl) :
    Advances topLevel FileDecl.unplaced decl.words.flatten before
      (withDeclarations before [decl] [] []) := by
  have tokens : decl.words.flatten = .identifier "import" ::
      ((if decl.isPublic then [.identifier "public"] else []) ++
        [.string decl.path, .symbol ';']) := by
    cases decl with
    | mk path isPublic => cases isPublic <;> rfl
  rw [tokens]
  refine ⟨⟨_, _, rfl⟩, fun state rest same => ?_⟩
  refine ⟨{ state with imports := state.imports ++ [decl] }, ?_, ?_⟩
  · have yields := yields_importStatement decl rest
    rw [List.cons_append, List.append_assoc]
    exact yields.bind (yields_pure _ _)
  · rw [← same]
    simp [FileDecl.unplaced, withDeclarations]

theorem items_imports (decls : List ImportDecl) (before : FileDecl) :
    Items topLevel FileDecl.unplaced (decls.flatMap ImportDecl.words).flatten before
      (withDeclarations before decls [] []) := by
  apply Items.each
  · exact withDeclarations_nil
  · exact fun state first others => withDeclarations_append state [first] others [] [] [] []
  · exact fun decl _ => advances_import decl

theorem advances_fileMessage {decl : MessageDecl} (expressible : decl.Expressible)
    (before : FileDecl) :
    Advances topLevel FileDecl.unplaced decl.words.flatten before
      (withDeclarations before [] [decl] []) := by
  have recovers := recovers_message expressible
  rw [MessageDecl.words_eq, List.flatten_cons] at recovers ⊢
  refine ⟨⟨_, _, rfl⟩, fun state rest same => ?_⟩
  have enough : (Word.identifier "message" ++ decl.body.flatten).length ≤
      (decl.body.flatten ++ rest).length + 1 := by
    simp only [List.length_append, List.length_cons, List.length_nil]
    omega
  rcases recovers _ enough ((decl.body.flatten ++ rest).length + 1) rest with ⟨read, yields, isRead⟩
  refine ⟨{ state with messages := state.messages ++ [read] }, yields.bind (yields_pure _ _), ?_⟩
  rw [← same]
  simp [FileDecl.unplaced, withDeclarations, isRead]

theorem items_fileMessages {decls : List MessageDecl}
    (expressible : ∀ decl ∈ decls, decl.Expressible) (before : FileDecl) :
    Items topLevel FileDecl.unplaced (decls.flatMap MessageDecl.words).flatten before
      (withDeclarations before [] decls []) := by
  apply Items.each
  · exact withDeclarations_nil
  · exact fun state first others => withDeclarations_append state [] [] [first] others [] []
  · exact fun decl member => advances_fileMessage (expressible decl member)

theorem advances_fileEnum {decl : EnumDecl} (expressible : decl.Expressible) (before : FileDecl) :
    Advances topLevel FileDecl.unplaced decl.words.flatten before
      (withDeclarations before [] [] [decl]) := by
  refine ⟨⟨_, _, rfl⟩, fun state rest same => ?_⟩
  refine ⟨{ state with enums := state.enums ++ [decl] },
    (yields_enumeration expressible rest).bind (yields_pure _ _), ?_⟩
  rw [← same]
  simp [FileDecl.unplaced, withDeclarations]

theorem items_fileEnums {decls : List EnumDecl} (expressible : ∀ decl ∈ decls, decl.Expressible)
    (before : FileDecl) :
    Items topLevel FileDecl.unplaced (decls.flatMap EnumDecl.words).flatten before
      (withDeclarations before [] [] decls) := by
  apply Items.each
  · exact withDeclarations_nil
  · exact fun state first others => withDeclarations_append state [] [] [] [] [first] others
  · exact fun decl member => advances_fileEnum (expressible decl member)

theorem yields_file {tokens : List Token} {before after : FileDecl}
    (items : Items topLevel FileDecl.unplaced tokens before after) {state : FileDecl}
    (start : state.unplaced = before) :
    ∃ reached, Yields (file tokens.length state) tokens reached [] ∧ reached.unplaced = after := by
  have ends (count : Nat) (state : FileDecl) (_ : 0 ≤ count) :
      Yields (file count state) [] state [] := by
    cases count <;> rfl
  have yields := items.yields (fun _ _ _ _ => rfl) ends start (Nat.le_refl tokens.length)
  rwa [List.append_nil] at yields

end Parser

/-! ## Whole texts -/

namespace FileDecl

open SchemaRecords.Schema.Parser

theorem parse_words {file : FileDecl} (expressible : file.Expressible) :
    ∃ read, parse file.words.flatten = .ok read ∧ read.unplaced = file.unplaced := by
  have items := (Items.single (advances_dialect file.dialect empty)).append
    ((items_package expressible.package rfl).append
      ((items_imports file.imports _).append
        ((items_fileMessages expressible.messages _).append
          (items_fileEnums expressible.enums _))))
  have tokens : file.words.flatten =
      [.identifier "syntax", .symbol '=', .string file.dialect.name, .symbol ';'] ++
        ((packageWords file.package).flatten ++
          ((file.imports.flatMap ImportDecl.words).flatten ++
            ((file.messages.flatMap MessageDecl.words).flatten ++
              (file.enums.flatMap EnumDecl.words).flatten))) := by
    simp [words]
  rw [← tokens] at items
  have start : empty.unplaced = empty := rfl
  rcases yields_file items start with ⟨read, yields, isRead⟩
  refine ⟨read, ?_, isRead.trans ?_⟩
  · rw [parse, yields]
    rfl
  · simp [withDeclarations, unplaced, empty]

/-- Whatever can be written is read back from its text, up to the lines on which it stands. -/
theorem parse_text {file : FileDecl} (expressible : file.Expressible) :
    ∃ lexemes read, tokenize file.text = .ok lexemes ∧
      parse (lexemes.map Lexeme.token) = .ok read ∧ read.unplaced = file.unplaced := by
  rcases parse_words expressible with ⟨read, parsed, same⟩
  rcases scansTo_spellWords expressible.legible with ⟨lexemes, scanned, tokens⟩
  refine ⟨lexemes, read, ?_, by rw [tokens, parsed], same⟩
  rw [tokenize, text, String.toList_ofList, scanned]
  rfl

/-- Declarations with a little of everything. -/
def orders : FileDecl where
  dialect := .proto3
  package := some "shop.v1"
  imports := [⟨"base.proto", false⟩, ⟨"C:\\new \"lines\"\n.proto", true⟩]
  messages := [⟨"Order",
    [⟨"id", 1, .unlabelled, .single (.scalar .uint64), none, none, some "order\"Id", 0⟩,
      ⟨"card", 2, .unlabelled, .single (.scalar .string), some 0, none, none, 0⟩,
      ⟨"voucher", 3, .unlabelled, .single (.named "Order.Voucher"), some 0, none, none, 0⟩,
      ⟨"totals", 4, .repeated, .single (.named ".group.Total"), none, some false, some "sums", 0⟩,
      ⟨"notes", 5, .unlabelled, .map .string (.named "map"), none, none, none, 0⟩],
    ["payment"], [⟨"Voucher", [], [], [], [⟨"Kind", [⟨"NONE", 0⟩, ⟨"LESS", -1⟩]⟩], 0⟩], [], 0⟩]
  enums := [⟨"message", []⟩]

/-- The declarations of `orders` can be written, and are read back. -/
theorem parse_text_orders :
    orders.Expressible ∧ ∃ lexemes read, tokenize orders.text = .ok lexemes ∧
      parse (lexemes.map Lexeme.token) = .ok read ∧ read.unplaced = orders.unplaced := by
  have voucher : MessageDecl.Expressible
      ⟨"Voucher", [], [], [], [⟨"Kind", [⟨"NONE", 0⟩, ⟨"LESS", -1⟩]⟩], 0⟩ := by
    apply MessageDecl.Expressible.intro
    case name => decide
    case fields => exact List.forall_mem_nil _
    case oneofs => exact List.forall_mem_nil _
    case inOrder => exact .nil
    case messages => exact List.forall_mem_nil _
    case enums =>
      refine List.forall_mem_singleton.mpr ⟨by decide, ?_⟩
      refine List.forall_mem_cons.mpr ⟨⟨by decide, by decide, by decide⟩, ?_⟩
      exact List.forall_mem_singleton.mpr ⟨by decide, by decide, by decide⟩
  have id : FieldDecl.Expressible 1
      ⟨"id", 1, .unlabelled, .single (.scalar .uint64), none, none, some "order\"Id", 0⟩ :=
    ⟨⟨nofun, nofun, nofun⟩, by decide, by decide, ⟨trivial, by decide⟩, nofun,
      fun _ => ⟨_, rfl, by decide⟩⟩
  have card : FieldDecl.Expressible 1
      ⟨"card", 2, .unlabelled, .single (.scalar .string), some 0, none, none, 0⟩ :=
    ⟨⟨nofun, by rintro _ ⟨⟩; decide, fun _ => ⟨rfl, _, rfl⟩⟩, by decide, by decide,
      ⟨trivial, by decide⟩, nofun, fun _ => ⟨_, rfl, by decide⟩⟩
  have voucherField : FieldDecl.Expressible 1
      ⟨"voucher", 3, .unlabelled, .single (.named "Order.Voucher"), some 0, none, none, 0⟩ :=
    ⟨⟨nofun, by rintro _ ⟨⟩; decide, fun _ => ⟨rfl, _, rfl⟩⟩, by decide, by decide,
      ⟨⟨by decide, by decide⟩, by decide⟩, nofun, fun _ => ⟨"Order", by decide, by decide⟩⟩
  have totals : FieldDecl.Expressible 1
      ⟨"totals", 4, .repeated, .single (.named ".group.Total"), none, some false, some "sums", 0⟩ :=
    ⟨⟨nofun, nofun, nofun⟩, by decide, by decide, ⟨⟨by decide, by decide⟩, by decide⟩, nofun, nofun⟩
  have notes : FieldDecl.Expressible 1
      ⟨"notes", 5, .unlabelled, .map .string (.named "map"), none, none, none, 0⟩ :=
    ⟨⟨by rintro _ _ ⟨⟩; rfl, nofun, nofun⟩, by decide, by decide, ⟨by decide, by decide⟩,
      fun _ _ _ => rfl, fun _ => ⟨_, rfl, by decide⟩⟩
  have expressible : orders.Expressible := by
    constructor
    case package =>
      rintro _ ⟨⟩
      decide
    case messages =>
      refine List.forall_mem_singleton.mpr (.intro (by decide) ?_ ?_ (by decide) ?_ ?_)
      · simp only [List.forall_mem_cons]
        exact ⟨id, card, voucherField, totals, notes, List.forall_mem_nil _⟩
      · exact List.forall_mem_singleton.mpr (by decide)
      · exact List.forall_mem_singleton.mpr voucher
      · exact List.forall_mem_nil _
    case enums => exact List.forall_mem_singleton.mpr ⟨by decide, List.forall_mem_nil _⟩
  exact ⟨expressible, parse_text expressible⟩

end FileDecl
end SchemaRecords.Schema
