import SchemaRecords.Proofs.Number.WrittenNumerals
import SchemaRecords.Proofs.Schema.TokenBoundaries
import SchemaRecords.Text.Split

/-!
# Spelled tokens

A way to write tokens down, such that the lexer reads them back.  Tokens are grouped into words:
within a word they follow one another directly, and a blank stands behind every word.  Nearly
every word is a single token.  The exceptions are the dotted names and the negative numbers, whose
tokens have to be such that none of them goes on in the next one.
-/

namespace SchemaRecords.Schema

open SchemaRecords.Number SchemaRecords.Text

/-! ## Spelling -/

/-- Whether a text is an identifier. -/
def isIdentifier : List Char → Bool
  | [] => false
  | first :: rest => isIdentifierStart first && rest.all isIdentifierPart

/-- A character between double quotes. -/
def escapeChar (c : Char) : List Char :=
  if c = '\n' then ['\\', 'n'] else if c = '\\' ∨ c = '"' then ['\\', c] else [c]

/-- A way to write a token. -/
def Token.spell : Token → List Char
  | .identifier name => name.toList
  | .integer value => Numeral.ofNat value
  | .float value => value.display
  | .string text => '"' :: (text.toList.flatMap escapeChar ++ ['"'])
  | .symbol c => [c]

/-- Tokens that follow one another directly. -/
abbrev Word := List Token

/-- The blank behind a word: the end of the line behind a semicolon or a brace. -/
def Word.separator (word : Word) : Char :=
  if word = [.symbol ';'] ∨ word = [.symbol '{'] ∨ word = [.symbol '}'] then '\n' else ' '

/-- Words with a blank behind each. -/
def spellWords (words : List Word) : List Char :=
  words.flatMap fun word => word.flatMap Token.spell ++ [word.separator]

/-! ## Tokens that are read back -/

/-- A token that is read back if nothing prolongs it.  A slash is left out, since it may begin a
comment, and so are floats, of which the text may be rounded. -/
def Token.Legible : Token → Prop
  | .identifier name => isIdentifier name.toList = true
  | .integer value => value ≤ maxInteger
  | .float _ => False
  | .string _ => True
  | .symbol c => isSymbol c = true ∧ c ≠ '/'

/-- What follows a token does not prolong it. -/
def Token.EndsAt (left : List Char) : Token → Prop
  | .identifier _ => Stops isIdentifierPart left
  | .integer _ | .float _ => Stops Char.isAlphanum left ∧ Stops (· = '.') left
  | .string _ => True
  | .symbol c => c = '.' → Stops Char.isDigit left

theorem Token.endsAt_blank {c : Char} (blank : isBlank c = true) (left : List Char)
    (token : Token) : token.EndsAt (c :: left) := by
  rcases blank_notMem blank with ⟨noPart, noWord, noDigit, _, noPoint, _⟩
  have stops {property : Char → Bool} (no : property c = false) : Stops property (c :: left) := by
    intro d isFirst
    cases isFirst
    exact no
  cases token with
  | identifier name => exact stops noPart
  | integer value => exact ⟨stops noWord, stops (decide_eq_false noPoint)⟩
  | float value => exact ⟨stops noWord, stops (decide_eq_false noPoint)⟩
  | string text => trivial
  | symbol s => exact fun _ => stops noDigit

theorem notBlank_of_part {c : Char} (part : isIdentifierPart c = true) : isBlank c = false :=
  Bool.eq_false_iff.mpr fun blank => absurd (blank_notMem blank).1 (by rw [part]; decide)

theorem isIdentifierPart_of_start {c : Char} (starts : isIdentifierStart c = true) :
    isIdentifierPart c = true := by
  simp only [isIdentifierStart, isIdentifierPart, Char.isAlphanum, Bool.or_eq_true] at starts ⊢
  rcases starts with letter | underscore
  · exact Or.inl (Or.inl letter)
  · exact Or.inr underscore

theorem isDigit_of_isIdentifierStart {c : Char} (starts : isIdentifierStart c = true) :
    c.isDigit = false := by
  simp only [isIdentifierStart, Bool.or_eq_true, decide_eq_true_eq, isAlpha_iff] at starts
  simp only [Char.isDigit, Bool.and_eq_false_iff, decide_eq_false_iff_not, UInt32.le_iff_toNat_le]
  change ¬ 48 ≤ c.toNat ∨ ¬ c.toNat ≤ 57
  rcases starts with letter | rfl
  · omega
  · decide

/-- A character that is neither a blank nor a slash begins a token. -/
theorem beginsToken_of_ne {first : Char} (notBlank : isBlank first = false) (notSlash : first ≠ '/')
    (rest : List Char) : BeginsToken (first :: rest) :=
  beginsToken_iff.mpr ⟨notBlank, fun slash => absurd slash notSlash⟩

/-- A token is read from its spelling. -/
def Token.ReadsBack (token : Token) (left : List Char) : Prop :=
  ∃ first rest, token.spell ++ left = first :: rest ∧ BeginsToken (first :: rest) ∧
    readToken first rest = .ok (token, left)

theorem readsBack_identifier {name : String} (isName : isIdentifier name.toList = true)
    {left : List Char} (ends : Stops isIdentifierPart left) :
    (Token.identifier name).ReadsBack left := by
  cases same : name.toList with
  | nil =>
    rw [same] at isName
    cases isName
  | cons first rest =>
    rw [same] at isName
    rcases Bool.and_eq_true_iff.mp isName with ⟨starts, parts⟩
    have notSlash : first ≠ '/' := by
      rintro rfl
      exact absurd starts (by decide)
    refine ⟨first, rest ++ left, by rw [Token.spell, same, List.cons_append],
      beginsToken_of_ne (notBlank_of_part (isIdentifierPart_of_start starts)) notSlash _, ?_⟩
    rcases takeWhile_append (List.all_eq_true.mp parts) ends with ⟨taken, behind⟩
    rw [readToken, if_pos starts, taken, behind, ← same, String.ofList_toList]

/-! ### Numbers -/

/-- A number goes on as long as its digits do. -/
theorem spanNumber_digits {hexadecimal : Bool} {previous : Char} {digits left : List Char}
    (isDigit : ∀ c ∈ previous :: digits, c.isDigit = true)
    (ends : Stops Char.isAlphanum left ∧ Stops (· = '.') left) :
    spanNumber hexadecimal previous (digits ++ left) = (digits, left) := by
  induction digits generalizing previous with
  | nil =>
    cases left with
    | nil => rfl
    | cons c left =>
      have different (letter : Char) (noDigit : letter.isDigit = false) : previous ≠ letter := by
        rintro rfl
        exact absurd (isDigit previous List.mem_cons_self) (by rw [noDigit]; decide)
      have noWord := ends.1 c rfl
      have noPoint := of_decide_eq_false (ends.2 c rfl)
      rw [List.nil_append, spanNumber]
      simp [noWord, noPoint, different 'e' (by decide), different 'E' (by decide)]
  | cons c digits inductionHypothesis =>
    rcases List.forall_mem_cons.mp isDigit with ⟨_, later⟩
    have word : c.isAlphanum = true := by
      rw [Char.isAlphanum, later c List.mem_cons_self, Bool.or_true]
    rw [List.cons_append, spanNumber, inductionHypothesis later]
    simp [word]

theorem isDigit_of_mem_ofNat {value : Nat} {c : Char} (member : c ∈ Numeral.ofNat value) :
    c.isDigit = true := by
  have all : (['0', '1', '2', '3', '4', '5', '6', '7', '8', '9'].all Char.isDigit) = true := by
    decide
  exact List.all_eq_true.mp all c (Numeral.mem_ofNat member)

/-- Behind a leading zero there is nothing. -/
theorem ofNat_eq_zero_cons {value : Nat} {digits : List Char}
    (zero : Numeral.ofNat value = '0' :: digits) : digits = [] := by
  have isZero := Numeral.eq_zero_of_head? (congrArg List.head? zero)
  rw [isZero, Numeral.ofNat_eq_of_lt (by decide)] at zero
  exact (List.cons.inj zero).2.symm

theorem numberToken?_ofNat {value : Nat} (inRange : value ≤ maxInteger) :
    numberToken? (Numeral.ofNat value) = some (.integer value) := by
  have digit {c : Char} (member : c ∈ Numeral.ofNat value) := isDigit_of_mem_ofNat member
  have decimal : hexadecimalDigits? (Numeral.ofNat value) = none := by
    rw [hexadecimalDigits?.eq_def]
    split
    · rename_i same
      cases ofNat_eq_zero_cons same
    · rename_i same
      cases ofNat_eq_zero_cons same
    · rfl
  have noFloat : ¬ ((Numeral.ofNat value).any (fun c => c = '.' || c = 'e' || c = 'E') ||
      ((Numeral.ofNat value).getLast?.any isFloatMark)) = true := by
    intro isFloat
    rcases Bool.or_eq_true_iff.mp isFloat with inside | last
    · rcases List.any_eq_true.mp inside with ⟨c, member, marks⟩
      have isDigit := digit member
      simp only [Bool.or_eq_true, decide_eq_true_eq] at marks
      rcases marks with (rfl | rfl) | rfl <;> exact absurd isDigit (by decide)
    · cases isLast : (Numeral.ofNat value).getLast? with
      | none =>
        rw [isLast] at last
        cases last
      | some c =>
        have isDigit := digit (List.mem_of_getLast? isLast)
        rw [isLast] at last
        simp only [Option.any_some, isFloatMark, Bool.or_eq_true, decide_eq_true_eq] at last
        rcases last with rfl | rfl <;> exact absurd isDigit (by decide)
  rw [numberToken?, decimal]
  simp only [if_neg noFloat]
  rw [Numeral.readNat_ofNat inRange]
  · rfl
  · intro c digits same
    cases ofNat_eq_zero_cons same

theorem readsBack_integer {value : Nat} (inRange : value ≤ maxInteger) {left : List Char}
    (ends : Stops Char.isAlphanum left ∧ Stops (· = '.') left) :
    (Token.integer value).ReadsBack left := by
  cases same : Numeral.ofNat value with
  | nil => exact absurd same (Numeral.ofNat_ne_nil value)
  | cons first digits =>
    have isDigit : ∀ c ∈ first :: digits, c.isDigit = true := fun c member =>
      isDigit_of_mem_ofNat (same ▸ member)
    have digit := isDigit first List.mem_cons_self
    have number := numberToken?_ofNat inRange
    rw [same] at number
    have different {c : Char} (noDigit : c.isDigit = false) : first ≠ c := by
      rintro rfl
      exact absurd digit (by rw [noDigit]; exact Bool.false_ne_true)
    have notBlank : isBlank first = false :=
      Bool.eq_false_iff.mpr fun blank => absurd (blank_notMem blank).2.2.1 (by rw [digit]; decide)
    have noIdentifier : ¬ isIdentifierStart first = true := fun starts =>
      absurd digit (by rw [isDigit_of_isIdentifierStart starts]; decide)
    refine ⟨first, digits ++ left, by rw [Token.spell, same, List.cons_append],
      beginsToken_of_ne notBlank (different (by decide)) _, ?_⟩
    have starts : startsNumber (first :: (digits ++ left)) = true := by
      rw [startsNumber_cons, if_neg (different (by decide)), digit]
    rw [readToken, if_neg noIdentifier, if_pos starts, spanNumber_digits isDigit ends]
    simp only [number]

/-! ### Strings and symbols -/

theorem readString_flatMap_escapeChar (text left : List Char) :
    readString '"' (text.flatMap escapeChar ++ '"' :: left) = .ok (text, left) := by
  induction text with
  | nil =>
    rw [List.flatMap_nil, List.nil_append, readString, if_neg (by decide), if_neg (by decide),
      if_pos rfl]
  | cons c text inductionHypothesis =>
    rw [List.flatMap_cons, List.append_assoc, escapeChar]
    split
    · rename_i isLine
      subst isLine
      have escape : readEscape ('n' :: (text.flatMap escapeChar ++ '"' :: left)) =
          .ok ('\n', text.flatMap escapeChar ++ '"' :: left) := rfl
      rw [List.cons_append, List.cons_append, List.nil_append, readString_escape escape,
        inductionHypothesis]
      rfl
    · rename_i notLine
      split
      · rename_i special
        have known : escaped? c = some c := by
          rcases special with rfl | rfl <;> decide
        have escape : readEscape (c :: (text.flatMap escapeChar ++ '"' :: left)) =
            .ok (c, text.flatMap escapeChar ++ '"' :: left) := by
          rw [readEscape, known]
        rw [List.cons_append, List.cons_append, List.nil_append, readString_escape escape,
          inductionHypothesis]
        rfl
      · rename_i plain
        rw [List.cons_append, List.nil_append, readString, if_neg notLine,
          if_neg (fun same => plain (Or.inl same)), if_neg (fun same => plain (Or.inr same)),
          inductionHypothesis]
        rfl

theorem readsBack_string (text : String) (left : List Char) :
    (Token.string text).ReadsBack left := by
  have quote : '"' = '"' ∨ '"' = '\'' := Or.inl rfl
  refine ⟨'"', text.toList.flatMap escapeChar ++ '"' :: left, ?_,
    beginsToken_of_ne (by decide) (by decide) _, ?_⟩
  · simp only [Token.spell, List.cons_append, List.append_assoc, List.nil_append]
  · rw [readToken, if_neg (by decide), if_neg, if_pos quote, readString_flatMap_escapeChar]
    · simp only [Except.map, String.ofList_toList]
    · rw [startsNumber_cons, if_neg (by decide)]
      decide

theorem readsBack_symbol {c : Char} (isSign : isSymbol c = true) (notSlash : c ≠ '/')
    {left : List Char} (ends : c = '.' → Stops Char.isDigit left) :
    (Token.symbol c).ReadsBack left := by
  have signs : (['{', '}', '[', ']', '(', ')', '<', '>', ';', ',', '=', '.', '-', '+', ':',
      '/'].all fun c => !isBlank c && !isIdentifierStart c && !c.isDigit && c ≠ '"' && c ≠ '\'') =
      true := by decide
  have facts := List.all_eq_true.mp signs c (List.contains_iff_mem.mp isSign)
  simp only [Bool.and_eq_true, Bool.not_eq_true', decide_eq_true_eq] at facts
  rcases facts with ⟨⟨⟨⟨notBlank, noIdentifier⟩, noDigit⟩, notDouble⟩, notSingle⟩
  refine ⟨c, left, rfl, beginsToken_of_ne notBlank notSlash _, ?_⟩
  have noNumber : ¬ startsNumber (c :: left) = true := by
    rw [Bool.not_eq_true, startsNumber_cons]
    split
    · rename_i isPoint
      exact any_head?_eq_false_iff.mpr (ends isPoint)
    · exact noDigit
  have noQuote : ¬ (c = '"' ∨ c = '\'') := not_or.mpr ⟨notDouble, notSingle⟩
  rw [readToken, noIdentifier, if_neg Bool.false_ne_true, if_neg noNumber, if_neg noQuote,
    if_pos isSign]

theorem Token.Legible.readsBack {token : Token} (legible : token.Legible) {left : List Char}
    (ends : token.EndsAt left) : token.ReadsBack left := by
  cases token with
  | identifier name => exact readsBack_identifier legible ends
  | integer value => exact readsBack_integer legible ends
  | float value => exact absurd legible id
  | string text => exact readsBack_string text left
  | symbol c => exact readsBack_symbol legible.1 legible.2 ends

/-! ## Words -/

/-- A word that is read back: none of its tokens goes on in the next one. -/
def Word.Legible : Word → Prop
  | [] => True
  | token :: rest => token.Legible ∧
      (∀ c left, isBlank c = true → token.EndsAt (rest.flatMap Token.spell ++ c :: left)) ∧
      Word.Legible rest

theorem Word.legible_singleton {token : Token} (legible : token.Legible) :
    Word.Legible [token] :=
  ⟨legible, fun _ left blank => token.endsAt_blank blank left, trivial⟩

theorem scan_of_nothing {text : List Char} (nothing : skipGap .blank text = .ok []) :
    Lexeme.scan text = .ok [] := by
  fun_cases Lexeme.scan text with
  | case1 fault refused => cases nothing.symm.trans refused
  | case2 => rfl
  | case3 first rest skipped => cases nothing.symm.trans skipped
  | case4 first rest skipped => cases nothing.symm.trans skipped

/-- A text that the lexer reads as some tokens. -/
def ScansTo (text : List Char) (tokens : List Token) : Prop :=
  ∃ lexemes, Lexeme.scan text = .ok lexemes ∧ lexemes.map Lexeme.token = tokens

namespace ScansTo

variable {text : List Char} {tokens : List Token}

theorem nil : ScansTo [] [] := ⟨[], scan_of_nothing rfl, rfl⟩

theorem cons {first : Char} {rest left : List Char} {token : Token}
    (begins : BeginsToken (first :: rest)) (read : readToken first rest = .ok (token, left))
    (behind : ScansTo left tokens) : ScansTo (first :: rest) (token :: tokens) := by
  rcases behind with ⟨lexemes, scanned, same⟩
  refine ⟨⟨token, first :: rest⟩ :: lexemes, ?_, by rw [List.map_cons, same]⟩
  rw [scan_of_token begins read, scanned]
  rfl

/-- The lexer sees a text only behind what it drops in front of it. -/
theorem of_skipGap {other : List Char} (same : skipGap .blank other = skipGap .blank text)
    (scans : ScansTo text tokens) : ScansTo other tokens := by
  rcases scans with ⟨lexemes, scanned, sameTokens⟩
  refine ⟨lexemes, ?_, sameTokens⟩
  revert scanned
  fun_cases Lexeme.scan text with
  | case1 => exact fun impossible => nomatch impossible
  | case2 nothing => exact fun scanned => (scan_of_nothing (same.trans nothing)).trans scanned
  | case3 => exact fun impossible => nomatch impossible
  | case4 first rest skipped token left read =>
    exact fun scanned => (scan_of_token (same.trans skipped) read).trans scanned

theorem blank {c : Char} (blank : isBlank c = true) (scans : ScansTo text tokens) :
    ScansTo (c :: text) tokens :=
  scans.of_skipGap (skipGap_blank blank text)

/-- By induction on the tokens of the word. -/
theorem word {word : Word} (legible : word.Legible) {c : Char} (isBlank : isBlank c = true)
    (scans : ScansTo text tokens) :
    ScansTo (word.flatMap Token.spell ++ c :: text) (word ++ tokens) := by
  induction word with
  | nil => exact scans.blank isBlank
  | cons token rest inductionHypothesis =>
    rcases legible with ⟨readable, ends, others⟩
    rcases readable.readsBack (ends c text isBlank) with ⟨first, behind, spelled, begins, read⟩
    rw [List.flatMap_cons, List.append_assoc, spelled, List.cons_append]
    exact .cons begins read (inductionHypothesis others)

end ScansTo

theorem Word.isBlank_separator (word : Word) : isBlank word.separator = true := by
  unfold separator
  split <;> decide

/-- Words are read back as their tokens. -/
theorem scansTo_spellWords {words : List Word} (legible : ∀ word ∈ words, word.Legible) :
    ScansTo (spellWords words) words.flatten := by
  unfold spellWords
  induction words with
  | nil => exact .nil
  | cons word words inductionHypothesis =>
    rcases List.forall_mem_cons.mp legible with ⟨here, later⟩
    rw [List.flatMap_cons, List.append_assoc, List.flatten_cons]
    exact .word here word.isBlank_separator (inductionHypothesis later)

/-! ## Names with dots -/

/-- Parts of a name, each with a dot in front. -/
def pointedParts (parts : List (List Char)) : Word :=
  parts.flatMap fun part => [.symbol '.', .identifier (String.ofList part)]

theorem pointedParts_cons (part : List Char) (parts : List (List Char)) :
    pointedParts (part :: parts) =
      .symbol '.' :: .identifier (String.ofList part) :: pointedParts parts := rfl

/-- The tokens of identifiers with dots between them. -/
def dottedWord (name : List Char) : Word :=
  match splitAtChar '.' name with
  | [] => []
  | first :: others => .identifier (String.ofList first) :: pointedParts others

/-- The tokens of a name that may have a dot in front. -/
def nameWord (name : String) : Word :=
  match name.toList with
  | '.' :: inner => .symbol '.' :: dottedWord inner
  | text => dottedWord text

/-- Whether a name consists of identifiers with dots between them. -/
def isDottedName (name : List Char) : Bool :=
  (splitAtChar '.' name).all isIdentifier

/-- Whether a name consists of identifiers with dots between them, and perhaps one in front. -/
def isTypeName (name : String) : Bool :=
  match name.toList with
  | '.' :: inner => isDottedName inner
  | text => isDottedName text

theorem exists_splitAtChar (separator : Char) (text : List Char) :
    ∃ first others, splitAtChar separator text = first :: others ∧
      text = first ++ others.flatMap (separator :: ·) := by
  induction text with
  | nil => exact ⟨[], [], rfl, rfl⟩
  | cons c text inductionHypothesis =>
    rcases inductionHypothesis with ⟨first, others, split, same⟩
    by_cases here : c = separator
    · refine ⟨[], first :: others, ?_, ?_⟩
      · rw [splitAtChar, if_pos here, split]
      · rw [List.nil_append, List.flatMap_cons, List.cons_append, ← same, here]
    · refine ⟨c :: first, others, ?_, by rw [List.cons_append, ← same]⟩
      rw [splitAtChar, if_neg here, split]

theorem exists_dottedWord {name : List Char} (isName : isDottedName name = true) :
    ∃ first others, dottedWord name = .identifier (String.ofList first) :: pointedParts others ∧
      isIdentifier first = true ∧ (∀ part ∈ others, isIdentifier part = true) ∧
      name = first ++ others.flatMap ('.' :: ·) := by
  rcases exists_splitAtChar '.' name with ⟨first, others, split, same⟩
  rw [isDottedName, split, List.all_cons, Bool.and_eq_true, List.all_eq_true] at isName
  exact ⟨first, others, by rw [dottedWord, split], isName.1, isName.2, same⟩

/-- No number begins where an identifier does. -/
theorem stops_isDigit_identifier {name : List Char} (isName : isIdentifier name = true)
    (rest : List Char) :
    Stops Char.isDigit ((Token.identifier (String.ofList name)).spell ++ rest) := by
  rw [Token.spell, String.toList_ofList]
  cases name with
  | nil => cases isName
  | cons first more =>
    intro c isFirst
    cases isFirst
    exact isDigit_of_isIdentifierStart (Bool.and_eq_true_iff.mp isName).1

theorem stops_isIdentifierPart_pointedParts (parts : List (List Char)) {c : Char}
    (blank : isBlank c = true) (left : List Char) :
    Stops isIdentifierPart ((pointedParts parts).flatMap Token.spell ++ c :: left) := by
  intro d isFirst
  cases parts with
  | nil =>
    cases isFirst
    exact (blank_notMem blank).1
  | cons part parts =>
    cases isFirst
    rfl

theorem legible_pointedParts {parts : List (List Char)}
    (identifiers : ∀ part ∈ parts, isIdentifier part = true) :
    Word.Legible (pointedParts parts) := by
  induction parts with
  | nil => trivial
  | cons part parts inductionHypothesis =>
    rcases List.forall_mem_cons.mp identifiers with ⟨here, later⟩
    rw [pointedParts_cons]
    refine ⟨⟨by decide, by decide⟩, fun c left blank _ => ?_, ?_, fun c left blank => ?_,
      inductionHypothesis later⟩
    · rw [List.flatMap_cons, List.append_assoc]
      exact stops_isDigit_identifier here _
    · rwa [Token.Legible, String.toList_ofList]
    · exact stops_isIdentifierPart_pointedParts parts blank left

theorem legible_dottedWord {name : List Char} (isName : isDottedName name = true) :
    Word.Legible (dottedWord name) := by
  rcases exists_dottedWord isName with ⟨first, others, word, isFirst, identifiers, _⟩
  rw [word]
  refine ⟨?_, fun c left blank => stops_isIdentifierPart_pointedParts others blank left,
    legible_pointedParts identifiers⟩
  rwa [Token.Legible, String.toList_ofList]

/-- A name begins with a dot or with an identifier. -/
theorem nameWord_cases {name : String} (isName : isTypeName name = true) :
    (∃ inner, isDottedName inner = true ∧ name = String.ofList ('.' :: inner) ∧
        nameWord name = .symbol '.' :: dottedWord inner) ∨
      isDottedName name.toList = true ∧ nameWord name = dottedWord name.toList := by
  unfold nameWord
  unfold isTypeName at isName
  split at isName
  · rename_i inner same
    exact Or.inl ⟨inner, isName, by rw [← same, String.ofList_toList], rfl⟩
  · exact Or.inr ⟨isName, rfl⟩

theorem legible_nameWord {name : String} (isName : isTypeName name = true) :
    (nameWord name).Legible := by
  rcases nameWord_cases isName with ⟨inner, isInner, _, word⟩ | ⟨isDotted, word⟩
  · rw [word]
    refine ⟨⟨by decide, by decide⟩, fun c left _ _ => ?_, legible_dottedWord isInner⟩
    rcases exists_dottedWord isInner with ⟨first, others, word, isFirst, _⟩
    rw [word, List.flatMap_cons, List.append_assoc]
    exact stops_isDigit_identifier isFirst _
  · rw [word]
    exact legible_dottedWord isDotted

end SchemaRecords.Schema
