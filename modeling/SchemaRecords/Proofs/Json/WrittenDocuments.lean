import SchemaRecords.Json.Printer
import SchemaRecords.Proofs.Json.DistinctKeys
import SchemaRecords.Proofs.Json.WrittenNumbers

/-!
# Written documents are read back

The text of a document is read as the document itself, as long as it has no floating-point numbers,
its integers fit into 64 bits and its keys are distinct.  Only then does nesting matter: the writer
has no limit for it, the reader has.

A text is read in two steps, and so is what was written.  Its tree says what stands in the text, and
the value of the tree is the document.
-/

namespace SchemaRecords.Json

open SchemaRecords.Number

/-! ## Strings -/

/-- The piece that is read where a character was written. -/
def pieceOf (c : Char) : Piece :=
  if c.toNat < 32 ∧ c.toNat ∉ [8, 9, 10, 12, 13] then .unit c.toNat else .char c

/-- The pieces that are read where a text was written. -/
def piecesOf (text : String) : List Piece := text.toList.map pieceOf

theorem eq_of_toNat {c : Char} {code : Nat} (same : c.toNat = code) : c = Char.ofNat code :=
  same ▸ (Char.ofNat_toNat c).symm

theorem codeUnit?_hexDigit {code : Nat} (small : code < 32) :
    Tree.codeUnit? '0' '0' (hexDigit (code / 16)) (hexDigit (code % 16)) = some code := by
  have each : ∀ code < 32,
      Tree.codeUnit? '0' '0' (hexDigit (code / 16)) (hexDigit (code % 16)) = some code := by
    decide +kernel
  exact each code small

/-- A character with an escape of its own. -/
theorem readString_letter {c letter : Char} (meaning : Tree.simpleEscape? letter = some c)
    (notUnit : letter ≠ 'u') (rest : List Char) :
    Tree.readString ('\\' :: letter :: rest) =
      (Tree.readString rest).map fun read => (.char c :: read.1, read.2) := by
  rw [Tree.readString.eq_def]
  split
  · rename_i none
    cases none
  · rename_i quote
    cases quote
  · rename_i unit
    cases unit
    exact absurd rfl notUnit
  · rename_i escaped
    cases escaped
    rw [meaning]
    cases Tree.readString _ <;> rfl
  · rename_i notEscaped same
    cases same
    exact absurd rfl (notEscaped _ _ rfl)

/-- A control character with an escape of its own. -/
theorem readString_control {c letter : Char} {code : Nat} (same : c.toNat = code)
    (listed : code ∈ [8, 9, 10, 12, 13])
    (meaning : Tree.simpleEscape? letter = some (Char.ofNat code)) (notUnit : letter ≠ 'u')
    (rest : List Char) :
    Tree.readString ('\\' :: letter :: rest) =
      (Tree.readString rest).map fun read => (pieceOf c :: read.1, read.2) := by
  rw [pieceOf, if_neg fun control => control.2 (same ▸ listed), eq_of_toNat same]
  exact readString_letter meaning notUnit rest

/-- A character that stands for itself. -/
theorem readString_char {c : Char} (notQuote : c ≠ '"') (notBackslash : c ≠ '\\')
    (printed : ¬ c.toNat < 32) (rest : List Char) :
    Tree.readString (c :: rest) =
      (Tree.readString rest).map fun read => (.char c :: read.1, read.2) := by
  rw [Tree.readString.eq_def]
  split
  · rename_i none
    cases none
  · rename_i quote
    cases quote
    exact absurd rfl notQuote
  · rename_i unit
    cases unit
    exact absurd rfl notBackslash
  · rename_i escaped
    cases escaped
    exact absurd rfl notBackslash
  · rename_i same
    cases same
    rw [if_neg (not_or.mpr ⟨printed, notBackslash⟩)]
    cases Tree.readString _ <;> rfl

/-- A character that is written is read first. -/
theorem readString_escape (c : Char) (rest : List Char) :
    Tree.readString (escape c ++ rest) =
      (Tree.readString rest).map fun read => (pieceOf c :: read.1, read.2) := by
  unfold escape
  split
  · rename_i same
    subst same
    exact readString_letter rfl (by decide) rest
  split
  · rename_i same
    subst same
    exact readString_letter rfl (by decide) rest
  split
  · rename_i same
    exact readString_control same (by decide) rfl (by decide) rest
  split
  · rename_i same
    exact readString_control same (by decide) rfl (by decide) rest
  split
  · rename_i same
    exact readString_control same (by decide) rfl (by decide) rest
  split
  · rename_i same
    exact readString_control same (by decide) rfl (by decide) rest
  split
  · rename_i same
    exact readString_control same (by decide) rfl (by decide) rest
  split
  · rename_i small
    have isUnit : pieceOf c = .unit c.toNat := by
      rw [pieceOf, if_pos]
      refine ⟨small, ?_⟩
      simp only [List.mem_cons, List.not_mem_nil, or_false]
      omega
    rw [isUnit]
    simp only [List.cons_append, List.nil_append, Tree.readString, codeUnit?_hexDigit small]
    cases Tree.readString rest <;> rfl
  · rename_i notQuote notBackslash _ _ _ _ _ printed
    rw [pieceOf, if_neg fun control => printed control.1]
    exact readString_char notQuote notBackslash printed rest

theorem readString_renderString (text : List Char) (rest : List Char) :
    Tree.readString (text.flatMap escape ++ '"' :: rest) = some (text.map pieceOf, rest) := by
  induction text with
  | nil => simp [Tree.readString]
  | cons c text inductionHypothesis =>
    rw [List.flatMap_cons, List.append_assoc, readString_escape, inductionHypothesis]
    rfl

/-- A unit that is no half of a pair is a character of its own. -/
theorem characters?_unit {code : Nat} (small : code < 32) (rest : List Piece) :
    characters? (.unit code :: rest) = (characters? rest).map (Char.ofNat code :: ·) := by
  have notHigh : isHighUnit code = false := by simp [isHighUnit]; omega
  have notLow : isLowUnit code = false := by simp [isLowUnit]; omega
  cases rest with
  | nil => simp [characters?, notHigh, notLow]
  | cons piece rest =>
    cases piece with
    | char c => simp [characters?, notHigh, notLow]
    | unit low => simp [characters?, notHigh, notLow]

theorem characters?_pieces (text : List Char) : characters? (text.map pieceOf) = some text := by
  induction text with
  | nil => rfl
  | cons c text inductionHypothesis =>
    rw [List.map_cons, pieceOf]
    split
    · rename_i control
      rw [characters?_unit control.1, inductionHypothesis, Char.ofNat_toNat]
      rfl
    · rw [characters?, inductionHypothesis]
      rfl

theorem string?_piecesOf (text : String) : string? (piecesOf text) = some text := by
  rw [string?, piecesOf, characters?_pieces, Option.map_some, String.ofList_toList]

/-! ## Documents -/

namespace Value

mutual

/-- How many arrays and objects the deepest part of a document is inside of, the document itself
included. -/
def depth : Value → Nat
  | .array items => depthOfItems items + 1
  | .object members => depthOfMembers members + 1
  | _ => 0

/-- The depth of the deepest item. -/
def depthOfItems : List Value → Nat
  | [] => 0
  | item :: rest => max (depth item) (depthOfItems rest)

/-- The depth of the deepest member. -/
def depthOfMembers : List (String × Value) → Nat
  | [] => 0
  | (_, value) :: rest => max (depth value) (depthOfMembers rest)

end

/-- A document of which nothing is lost in its text. -/
inductive Exact : Value → Prop
  | null : Exact .null
  | bool (value : Bool) : Exact (.bool value)
  | integer {n : Int} (least : -2 ^ 63 ≤ n) (greatest : n < 2 ^ 64) : Exact (.int n)
  | string (text : String) : Exact (.string text)
  | array {items : List Value} (each : ∀ item ∈ items, Exact item) : Exact (.array items)
  | object {members : Members} (distinct : (members.map (·.1)).Nodup)
      (each : ∀ member ∈ members, Exact member.2) : Exact (.object members)

/-- A tree that is read where a document was written. -/
structure WrittenAs (value : Value) (tree : Tree) : Prop where
  read : ∀ fuel rest, 2 * value.render.length ≤ fuel → Closes rest →
    Tree.readValue fuel (value.render ++ rest) = some (tree, rest)
  meaning : ofTree? tree = some value
  depth : tree.depth = value.depth

theorem skipSpace_cons {c : Char} (solid : Tree.isSpace c = false) (rest : List Char) :
    Tree.skipSpace (c :: rest) = c :: rest := by
  rw [Tree.skipSpace, List.dropWhile_cons, solid]
  rfl

theorem readValue_null (fuel : Nat) (rest : List Char) :
    Tree.readValue (fuel + 1) ("null".toList ++ rest) = some (.null, rest) := by
  rfl

theorem readValue_bool (value : Bool) (fuel : Nat) (rest : List Char) :
    Tree.readValue (fuel + 1) ((Value.bool value).render ++ rest) = some (.bool value, rest) := by
  cases value <;> rfl

theorem readValue_string (text : String) (fuel : Nat) (rest : List Char) :
    Tree.readValue (fuel + 1) (renderString text ++ rest) =
      some (.string (piecesOf text), rest) := by
  have read := readString_renderString text.toList rest
  rw [renderString, List.append_assoc, List.cons_append, Tree.readValue,
    skipSpace_cons (by decide)]
  simp only [List.singleton_append, read]
  rfl

/-- What begins with a digit or a sign is read as a number. -/
theorem readValue_number {c : Char} {rest : List Char} (begins : BeginsNumber c) (fuel : Nat) :
    Tree.readValue (fuel + 1) (c :: rest) =
      (Tree.readNumber (c :: rest)).map fun read => (.number read.1, read.2) := by
  rw [Tree.readValue, skipSpace_cons begins.solid]
  split
  case h_7 =>
    cases Tree.readNumber (c :: rest) <;> rfl
  all_goals
    rename_i same
    cases same
    exact absurd begins (by decide)

/-- A number is read as it was written. -/
theorem readValue_write {text : NumberText} (legal : text.Legal) (fuel : Nat) {rest : List Char}
    (closes : Closes rest) :
    Tree.readValue (fuel + 1) (text.write ++ rest) = some (.number text, rest) := by
  have read := NumberText.readNumber_write legal closes
  rcases NumberText.exists_first_write legal with ⟨c, others, same, begins⟩
  rw [same, List.cons_append] at read ⊢
  rw [readValue_number begins, read]
  rfl

theorem readValue_items {c : Char} (solid : Tree.isSpace c = false) (notEnd : c ≠ ']') (fuel : Nat)
    (rest : List Char) : Tree.readValue (fuel + 1) ('[' :: c :: rest) =
      (Tree.readItems fuel (c :: rest)).map fun read => (.array read.1, read.2) := by
  simp only [Tree.readValue, skipSpace_cons (c := '[') (by decide), skipSpace_cons solid]
  split
  · rename_i same
    cases same
    exact absurd rfl notEnd
  · cases Tree.readItems fuel (c :: rest) <;> rfl

theorem readValue_members (fuel : Nat) (rest : List Char) :
    Tree.readValue (fuel + 1) ('\x7b' :: '"' :: rest) =
      (Tree.readMembers fuel ('"' :: rest)).map fun read => (.object read.1, read.2) := by
  simp only [Tree.readValue, skipSpace_cons (c := '\x7b') (by decide),
    skipSpace_cons (c := '"') (by decide)]
  split
  · rename_i same
    cases same
  · cases Tree.readMembers fuel ('"' :: rest) <;> rfl

theorem readValue_ofInt (n : Int) (fuel : Nat) {rest : List Char} (closes : Closes rest) :
    Tree.readValue (fuel + 1) (Numeral.ofInt n ++ rest) =
      some (.number (numberTextOf n), rest) := by
  have read := readValue_write (legal_numberTextOf n) fuel closes
  rwa [write_numberTextOf] at read

/-- A document begins with a character that is no space and does not end an array. -/
theorem exists_first {value : Value} (exact : value.Exact) : ∃ c rest, value.render = c :: rest ∧
    Tree.isSpace c = false ∧ c ≠ ']' := by
  cases exact with
  | null => exact ⟨_, _, rfl, by decide, by decide⟩
  | bool value => cases value <;> exact ⟨_, _, rfl, by decide, by decide⟩
  | integer least greatest =>
    rename_i n
    rcases NumberText.exists_first_write (legal_numberTextOf n) with ⟨c, rest, same, begins⟩
    refine ⟨c, rest, (write_numberTextOf n).symm.trans same, begins.solid, ?_⟩
    rintro rfl
    exact absurd begins (by decide)
  | string text =>
    rw [render, renderString]
    exact ⟨_, _, rfl, by decide, by decide⟩
  | array each =>
    rw [render]
    exact ⟨_, _, rfl, by decide, by decide⟩
  | object distinct each =>
    rw [render]
    exact ⟨_, _, rfl, by decide, by decide⟩

/-! ## Items -/

/-- Trees that are read where the items of an array were written. -/
structure ItemsWrittenAs (items : List Value) (trees : List Tree) : Prop where
  read : ∀ fuel rest, 2 * (renderItems items).length + 1 ≤ fuel →
    Tree.readItems fuel (renderItems items ++ ']' :: rest) = some (trees, rest)
  meaning : ofItems? trees = some items
  depth : Tree.depthOfItems trees = depthOfItems items

theorem exists_itemsWrittenAs {item : Value} {items : List Value}
    (each : ∀ value ∈ item :: items, ∃ tree, WrittenAs value tree) :
    ∃ trees, ItemsWrittenAs (item :: items) trees := by
  induction items generalizing item with
  | nil =>
    rcases each item List.mem_cons_self with ⟨tree, written⟩
    refine ⟨[tree], fun fuel rest enough => ?_, ?_, ?_⟩
    · cases fuel with
      | zero => omega
      | succ fuel =>
        rw [renderItems] at enough ⊢
        have read := written.read fuel (']' :: rest) (by omega) (.of_mem (by decide) rest)
        rw [Tree.readItems, read]
        rfl
    · simp [ofItems?, written.meaning]
    · rw [Tree.depthOfItems, depthOfItems, written.depth]
      rfl
  | cons next rest inductionHypothesis =>
    rcases each item List.mem_cons_self with ⟨tree, written⟩
    rcases inductionHypothesis fun value there => each value (List.mem_cons_of_mem _ there) with
      ⟨trees, others⟩
    refine ⟨tree :: trees, fun fuel behind enough => ?_, ?_, ?_⟩
    · cases fuel with
      | zero => omega
      | succ fuel =>
        rw [renderItems, List.length_append, List.length_cons] at enough
        have read := written.read fuel (',' :: (renderItems (next :: rest) ++ ']' :: behind))
          (by omega) (.of_mem (by decide) _)
        rw [renderItems, List.append_assoc, List.cons_append, Tree.readItems, read]
        have later := others.read fuel behind (by omega)
        simp only [Option.bind_eq_bind, Option.bind_some, skipSpace_cons (c := ',') (by decide),
          later]
        rfl
    · simp [ofItems?, written.meaning, others.meaning]
    · rw [Tree.depthOfItems, depthOfItems, written.depth, others.depth]

/-! ## Members -/

/-- Trees that are read where the members of an object were written. -/
structure MembersWrittenAs (members : Members) (trees : List (List Piece × Tree)) : Prop where
  read : ∀ fuel rest, 2 * (renderMembers members).length + 1 ≤ fuel →
    Tree.readMembers fuel (renderMembers members ++ '\x7d' :: rest) = some (trees, rest)
  meaning : ∀ before : Members, ((before ++ members).map (·.1)).Nodup →
    ofMembers? before trees = some (before ++ members)
  depth : Tree.depthOfMembers trees = depthOfMembers members

theorem insert_of_distinct {before rest : Members} {key : String} {value : Value}
    (distinct : ((before ++ (key, value) :: rest).map (·.1)).Nodup) :
    before.insert key value = before ++ [(key, value)] := by
  apply Members.insert_of_new
  intro known
  rw [List.map_append, List.nodup_append] at distinct
  exact distinct.2.2 key known key List.mem_cons_self rfl

/-- A key is read up to its colon. -/
theorem readMembers_key (key : String) (fuel : Nat) (rest : List Char) :
    Tree.readMembers (fuel + 1) (renderString key ++ ':' :: rest) =
      (Tree.readValue fuel rest).bind fun read =>
        match Tree.skipSpace read.2 with
        | ',' :: behind => (Tree.readMembers fuel behind).bind fun others =>
          some ((piecesOf key, read.1) :: others.1, others.2)
        | '\x7d' :: behind => some ([(piecesOf key, read.1)], behind)
        | _ => none := by
  have read := readString_renderString key.toList (':' :: rest)
  rw [renderString, List.append_assoc, List.cons_append, Tree.readMembers,
    skipSpace_cons (by decide)]
  simp only [List.singleton_append, read, Option.bind_eq_bind, Option.bind_some,
    skipSpace_cons (c := ':') (by decide)]
  rfl

theorem exists_membersWrittenAs {member : String × Value} {members : Members}
    (each : ∀ pair ∈ member :: members, ∃ tree, WrittenAs pair.2 tree) :
    ∃ trees, MembersWrittenAs (member :: members) trees := by
  induction members generalizing member with
  | nil =>
    rcases member with ⟨key, value⟩
    rcases each (key, value) List.mem_cons_self with ⟨tree, written : WrittenAs value tree⟩
    refine ⟨[(piecesOf key, tree)], fun fuel rest enough => ?_, fun before distinct => ?_, ?_⟩
    · cases fuel with
      | zero => omega
      | succ fuel =>
        simp only [renderMembers, List.length_append, List.length_cons] at enough
        have read := written.read fuel ('\x7d' :: rest) (by omega) (.of_mem (by decide) rest)
        rw [renderMembers, List.append_assoc, List.cons_append, readMembers_key, read]
        rfl
    · simp [ofMembers?, string?_piecesOf, written.meaning, insert_of_distinct distinct]
    · simp only [Tree.depthOfMembers, depthOfMembers, written.depth]
  | cons next rest inductionHypothesis =>
    rcases member with ⟨key, value⟩
    rcases each (key, value) List.mem_cons_self with ⟨tree, written : WrittenAs value tree⟩
    rcases inductionHypothesis fun pair there => each pair (List.mem_cons_of_mem _ there) with
      ⟨trees, others⟩
    refine ⟨(piecesOf key, tree) :: trees, fun fuel behind enough => ?_,
      fun before distinct => ?_, ?_⟩
    · cases fuel with
      | zero => omega
      | succ fuel =>
        simp only [renderMembers, List.length_append, List.length_cons] at enough
        have read := written.read fuel
          (',' :: (renderMembers (next :: rest) ++ '\x7d' :: behind)) (by omega)
          (.of_mem (by decide) _)
        have later := others.read fuel behind (by omega)
        rw [renderMembers]
        simp only [List.append_assoc, List.cons_append]
        rw [readMembers_key, read]
        simp only [Option.bind_some, skipSpace_cons (c := ',') (by decide), later]
    · have further : (((before ++ [(key, value)]) ++ (next :: rest)).map (·.1)).Nodup := by
        rwa [List.append_assoc]
      simp [ofMembers?, string?_piecesOf, written.meaning, insert_of_distinct distinct,
        others.meaning _ further]
    · rw [Tree.depthOfMembers, depthOfMembers, written.depth, others.depth]

/-! ## All documents -/

/-- There is fuel for the first step. -/
theorem exists_less {value : Value} (exact : value.Exact) {fuel : Nat}
    (enough : 2 * value.render.length ≤ fuel) : ∃ less, fuel = less + 1 := by
  rcases exists_first exact with ⟨c, rest, same, _⟩
  rw [same, List.length_cons] at enough
  exact ⟨fuel - 1, by omega⟩

/-- An array is read as the trees of its items. -/
theorem ItemsWrittenAs.array {item : Value} {others : List Value} {trees : List Tree}
    (exact : item.Exact) (written : ItemsWrittenAs (item :: others) trees) :
    WrittenAs (.array (item :: others)) (.array trees) where
  read := by
    intro fuel rest enough _
    have start : ∃ c behind, renderItems (item :: others) = c :: behind ∧
        Tree.isSpace c = false ∧ c ≠ ']' := by
      rcases exists_first exact with ⟨c, behind, isFirst, law⟩
      cases others with
      | nil => exact ⟨c, behind, isFirst, law⟩
      | cons next rest =>
        rw [renderItems, isFirst]
        exact ⟨c, _, rfl, law⟩
    rcases start with ⟨c, behind, isFirst, solid, notEnd⟩
    simp only [render, List.length_append, List.length_cons, List.length_nil] at enough
    cases fuel with
    | zero => omega
    | succ less =>
      have read := written.read less rest (by omega)
      rw [isFirst] at read
      rw [render, isFirst]
      simp only [List.cons_append, List.append_assoc, List.nil_append] at read ⊢
      rw [readValue_items solid notEnd, read]
      rfl
  meaning := by
    rw [ofTree?, written.meaning]
    rfl
  depth := by rw [Tree.depth, Value.depth, written.depth]

/-- An object with distinct keys is read as the trees of its members. -/
theorem MembersWrittenAs.object {member : String × Value} {others : Members}
    {trees : List (List Piece × Tree)} (distinct : ((member :: others).map (·.1)).Nodup)
    (written : MembersWrittenAs (member :: others) trees) :
    WrittenAs (.object (member :: others)) (.object trees) where
  read := by
    intro fuel rest enough _
    have start : ∃ behind, renderMembers (member :: others) = '"' :: behind := by
      rcases member with ⟨key, value⟩
      cases others with
      | nil => exact ⟨_, rfl⟩
      | cons next rest => exact ⟨_, rfl⟩
    rcases start with ⟨behind, isFirst⟩
    simp only [render, List.length_append, List.length_cons, List.length_nil] at enough
    cases fuel with
    | zero => omega
    | succ less =>
      have read := written.read less rest (by omega)
      rw [isFirst] at read
      rw [render, isFirst]
      simp only [List.cons_append, List.append_assoc, List.nil_append] at read ⊢
      rw [readValue_members, read]
      rfl
  meaning := by
    rw [ofTree?, written.meaning [] distinct]
    rfl
  depth := by rw [Tree.depth, Value.depth, written.depth]

theorem exists_writtenAs {value : Value} (exact : value.Exact) : ∃ tree, WrittenAs value tree := by
  induction exact with
  | null =>
    refine ⟨.null, fun fuel rest enough _ => ?_, rfl, rfl⟩
    rcases exists_less .null enough with ⟨less, same⟩
    exact same ▸ readValue_null less rest
  | bool value =>
    refine ⟨.bool value, fun fuel rest enough _ => ?_, rfl, rfl⟩
    rcases exists_less (.bool value) enough with ⟨less, same⟩
    exact same ▸ readValue_bool value less rest
  | integer least greatest =>
    rename_i n
    refine ⟨.number (numberTextOf n), fun fuel rest enough closes => ?_, ?_, rfl⟩
    · rcases exists_less (.integer least greatest) enough with ⟨less, same⟩
      exact same ▸ readValue_ofInt n less closes
    · rw [ofTree?, number?_numberTextOf least greatest]
      rfl
  | string text =>
    refine ⟨.string (piecesOf text), fun fuel rest enough _ => ?_, ?_, rfl⟩
    · rcases exists_less (.string text) enough with ⟨less, same⟩
      rw [render, same]
      exact readValue_string text less rest
    · rw [ofTree?, string?_piecesOf]
      rfl
  | array each inductionHypothesis =>
    rename_i items
    cases items with
    | nil =>
      refine ⟨.array [], fun fuel rest enough _ => ?_, rfl, rfl⟩
      rcases exists_less (.array each) enough with ⟨less, same⟩
      rw [same]
      rfl
    | cons item others =>
      rcases exists_itemsWrittenAs inductionHypothesis with ⟨trees, written⟩
      exact ⟨.array trees, written.array (each item List.mem_cons_self)⟩
  | object distinct each inductionHypothesis =>
    rename_i members
    cases members with
    | nil =>
      refine ⟨.object [], fun fuel rest enough _ => ?_, rfl, rfl⟩
      rcases exists_less (.object distinct each) enough with ⟨less, same⟩
      rw [same]
      rfl
    | cons member others =>
      rcases exists_membersWrittenAs inductionHypothesis with ⟨trees, written⟩
      exact ⟨.object trees, written.object distinct⟩

/-- The text of a document is read as the document, if it does not nest too deep. -/
theorem read?_text {value : Value} (exact : value.Exact) :
    read? value.text = if value.depth ≤ maxNesting then some value else none := by
  rcases exists_writtenAs exact with ⟨tree, written⟩
  have closes : Closes [] := Or.inl rfl
  have read := written.read (2 * value.render.length + 2) [] (Nat.le_add_right _ 2) closes
  rw [List.append_nil] at read
  have isTree : Tree.read? value.render = some tree := by
    rw [Tree.read?, read]
    rfl
  rw [read?, text, String.toList_ofList, isTree, ← written.meaning, ← written.depth]
  rfl

end Value
end SchemaRecords.Json
