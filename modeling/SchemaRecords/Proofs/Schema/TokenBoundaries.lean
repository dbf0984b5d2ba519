import SchemaRecords.Proofs.Outcome
import SchemaRecords.Schema.Token.Lexer

/-!
# Where tokens begin and end

What stands between two tokens is a filler: blanks and comments that have an end.  The lexer
drops a filler and nothing else, so a filler in front of a text changes nothing.

A token is read as far as it goes, with one or two characters of what follows it in view.  All
that the lexer wants to know of them is that the token does not go on, and neither a blank nor
the character that stood there before makes it go on.
-/

namespace SchemaRecords.Schema

open SchemaRecords.Text

/-! ## Fillers -/

/-- Blanks and comments with an end. -/
inductive Filler : List Char → Prop
  | nil : Filler []
  | blank {c : Char} {rest : List Char} (isBlank : isBlank c = true) (more : Filler rest) :
      Filler (c :: rest)
  | line {comment rest : List Char} (oneLine : '\n' ∉ comment) (more : Filler rest) :
      Filler ('/' :: '/' :: (comment ++ '\n' :: rest))
  | block {comment rest : List Char} (isOpen : ¬ ['*', '/'] <:+: comment) (more : Filler rest) :
      Filler ('/' :: '*' :: (comment ++ '*' :: '/' :: rest))

theorem skipGap_blank {c : Char} (blank : isBlank c = true) (rest : List Char) :
    skipGap .blank (c :: rest) = skipGap .blank rest := by
  have notSlash : c ≠ '/' := by
    intro slash
    subst slash
    exact absurd blank (by decide)
  rw [skipGap.eq_def]
  split
  · rename_i same
    cases same
  · rename_i same
    cases same
    exact absurd rfl notSlash
  · rename_i same
    cases same
    exact absurd rfl notSlash
  · rename_i same
    cases same
    rw [if_pos blank]
  all_goals rename_i impossible _; cases impossible

/-- A comment to the end of the line is dropped with the end of the line. -/
theorem skipGap_line {comment : List Char} (oneLine : '\n' ∉ comment) (rest : List Char) :
    skipGap .line (comment ++ '\n' :: rest) = skipGap .blank rest := by
  induction comment with
  | nil => rw [List.nil_append, skipGap, if_pos rfl]
  | cons c comment inductionHypothesis =>
    rw [List.cons_append, skipGap, if_neg (Ne.symm (List.ne_of_not_mem_cons oneLine)),
      inductionHypothesis (List.not_mem_of_not_mem_cons oneLine)]

/-- A comment between slashes and asterisks is dropped up to the first end that it has. -/
theorem skipGap_block {comment : List Char} (isOpen : ¬ ['*', '/'] <:+: comment)
    (opening rest : List Char) :
    skipGap (.block opening) (comment ++ '*' :: '/' :: rest) = skipGap .blank rest := by
  induction comment with
  | nil => rw [List.nil_append, skipGap]
  | cons c comment inductionHypothesis =>
    have later : ¬ ['*', '/'] <:+: comment := fun inside =>
      isOpen (inside.trans (List.suffix_cons c comment).isInfix)
    rw [List.cons_append, skipGap, inductionHypothesis later]
    intro after star slash
    cases comment with
    | nil => cases slash
    | cons d comment =>
      rw [List.cons_append] at slash
      cases slash
      exact isOpen (star ▸ ⟨[], comment, rfl⟩)

theorem Filler.skipGap_append {filler : List Char} (isFiller : Filler filler) (rest : List Char) :
    skipGap .blank (filler ++ rest) = skipGap .blank rest := by
  induction isFiller with
  | nil => rfl
  | blank isBlank _ inductionHypothesis =>
    rw [List.cons_append, skipGap_blank isBlank, inductionHypothesis]
  | line oneLine _ inductionHypothesis =>
    rw [List.cons_append, List.cons_append, List.append_assoc, List.cons_append, skipGap,
      skipGap_line oneLine, inductionHypothesis]
  | block isOpen _ inductionHypothesis =>
    rw [List.cons_append, List.cons_append, List.append_assoc, List.cons_append, List.cons_append,
      skipGap, skipGap_block isOpen, inductionHypothesis]

/-- What leads from inside of a gap to the next token. -/
def Gap.Leads : Gap → List Char → Prop
  | .blank, text => Filler text
  | .line, text => ∃ comment rest, '\n' ∉ comment ∧ Filler rest ∧ text = comment ++ '\n' :: rest
  | .block _, text =>
    ∃ comment rest, ¬ ['*', '/'] <:+: comment ∧ Filler rest ∧ text = comment ++ '*' :: '/' :: rest

/-- What the lexer drops in front of a token is a filler. -/
theorem exists_of_skipGap {gap : Gap} {text rest : List Char} {first : Char}
    (skipped : skipGap gap text = .ok (first :: rest)) :
    ∃ front, gap.Leads front ∧ text = front ++ first :: rest := by
  fun_induction skipGap gap text with
  | case1 => cases skipped
  | case2 rest inductionHypothesis =>
    rcases inductionHypothesis skipped with ⟨_, ⟨comment, filler, oneLine, isFiller, rfl⟩, same⟩
    exact ⟨_, .line oneLine isFiller, by rw [same, List.cons_append, List.cons_append]⟩
  | case3 rest inductionHypothesis =>
    rcases inductionHypothesis skipped with ⟨_, ⟨comment, filler, isOpen, isFiller, rfl⟩, same⟩
    exact ⟨_, .block isOpen isFiller, by rw [same, List.cons_append, List.cons_append]⟩
  | case4 c rest _ _ isBlank inductionHypothesis =>
    rcases inductionHypothesis skipped with ⟨front, isFiller, same⟩
    exact ⟨c :: front, .blank isBlank isFiller, by rw [same, List.cons_append]⟩
  | case5 c rest =>
    cases skipped
    exact ⟨[], .nil, rfl⟩
  | case6 => cases skipped
  | case7 rest inductionHypothesis =>
    rcases inductionHypothesis skipped with ⟨front, isFiller, same⟩
    exact ⟨'\n' :: front, ⟨[], front, List.not_mem_nil, isFiller, rfl⟩, by
      rw [same, List.cons_append]⟩
  | case8 c rest different inductionHypothesis =>
    rcases inductionHypothesis skipped with ⟨_, ⟨comment, filler, oneLine, isFiller, rfl⟩, same⟩
    exact ⟨_, ⟨c :: comment, filler, List.not_mem_cons_of_ne_of_not_mem (Ne.symm different) oneLine,
      isFiller, rfl⟩, by rw [same, List.cons_append, List.cons_append]⟩
  | case9 => cases skipped
  | case10 opening rest inductionHypothesis =>
    rcases inductionHypothesis skipped with ⟨front, isFiller, same⟩
    exact ⟨'*' :: '/' :: front, ⟨[], front, by decide, isFiller, rfl⟩, by
      rw [same, List.cons_append, List.cons_append]⟩
  | case11 opening c rest notEnd inductionHypothesis =>
    rcases inductionHypothesis skipped with ⟨_, ⟨comment, filler, isOpen, isFiller, rfl⟩, same⟩
    refine ⟨_, ⟨c :: comment, filler, fun inside => ?_, isFiller, rfl⟩, by
      rw [same, List.cons_append, List.cons_append]⟩
    rcases List.infix_cons_iff.mp inside with ⟨after, atFront⟩ | later
    · cases atFront
      rw [same] at notEnd
      exact notEnd _ rfl rfl
    · exact isOpen later

/-- A text that begins with a token: there is nothing to drop. -/
def BeginsToken (text : List Char) : Prop := skipGap .blank text = .ok text

theorem BeginsToken.of_skipGap {text rest : List Char} {first : Char}
    (skipped : skipGap .blank text = .ok (first :: rest)) : BeginsToken (first :: rest) := by
  rcases exists_of_skipGap skipped with ⟨front, isFiller, same⟩
  rw [BeginsToken, ← skipped, same, Filler.skipGap_append isFiller]

/-- Whether a character behind a slash makes the two of them open a comment. -/
def opensComment (c : Char) : Bool := c = '/' || c = '*'

/-- A character with some property does not stand first. -/
def Stops (property : Char → Bool) (text : List Char) : Prop :=
  ∀ c, text.head? = some c → property c = false

theorem beginsToken_iff {first : Char} {rest : List Char} :
    BeginsToken (first :: rest) ↔
      isBlank first = false ∧ (first = '/' → Stops opensComment rest) := by
  have longer {gap : Gap} {text left : List Char} (isLonger : text.length < left.length) :
      skipGap gap text ≠ .ok left :=
    fun skipped => Nat.not_le.mpr isLonger (skipGap_length skipped)
  constructor
  · intro begins
    unfold BeginsToken at begins
    constructor
    · refine Bool.eq_false_iff.mpr fun blank => ?_
      rw [skipGap_blank blank] at begins
      exact longer (Nat.lt_succ_self _) begins
    · intro slash c isFirst
      refine Bool.eq_false_iff.mpr fun opens => ?_
      rcases List.head?_eq_some_iff.mp isFirst with ⟨behind, same⟩
      subst slash
      subst same
      simp only [opensComment, Bool.or_eq_true, decide_eq_true_eq] at opens
      rcases opens with isSlash | isStar
      · subst isSlash
        rw [skipGap] at begins
        exact longer (Nat.lt_succ_of_lt (Nat.lt_succ_self _)) begins
      · subst isStar
        rw [skipGap] at begins
        exact longer (Nat.lt_succ_of_lt (Nat.lt_succ_self _)) begins
  · rintro ⟨notBlank, noComment⟩
    rw [BeginsToken, skipGap, if_neg (by rw [notBlank]; exact Bool.false_ne_true)]
    · intro behind slash same
      exact absurd (noComment slash '/' (by rw [same]; rfl)) (by decide)
    · intro behind slash same
      exact absurd (noComment slash '*' (by rw [same]; rfl)) (by decide)

/-! ## What may follow a token -/

/-- A text that may stand where another one stood, as far as the token in front of it goes: it
begins with a blank, or in the same way. -/
def Resumes (left other : List Char) : Prop :=
  ∃ c rest, other = c :: rest ∧ (isBlank c = true ∨ left.head? = some c)

theorem Resumes.of_blank {c : Char} (blank : isBlank c = true) (left rest : List Char) :
    Resumes left (c :: rest) :=
  ⟨c, rest, rfl, Or.inl blank⟩

theorem Resumes.stops {left other : List Char} (resumes : Resumes left other)
    {property : Char → Bool} (noBlank : ∀ c, isBlank c = true → property c = false)
    (stops : Stops property left) : Stops property other := by
  rcases resumes with ⟨first, rest, rfl, blank | same⟩
  · intro c isFirst
    cases isFirst
    exact noBlank first blank
  · intro c isFirst
    cases isFirst
    exact stops first same

/-- The same for the rest of a token in front of both. -/
theorem Resumes.stops_append {body left other : List Char} (resumes : Resumes left other)
    {property : Char → Bool} (noBlank : ∀ c, isBlank c = true → property c = false)
    (stops : Stops property (body ++ left)) : Stops property (body ++ other) := by
  cases body with
  | nil => exact resumes.stops noBlank stops
  | cons first body =>
    intro c isFirst
    exact stops c isFirst

theorem isAlpha_iff (c : Char) :
    c.isAlpha = true ↔ (65 ≤ c.toNat ∧ c.toNat ≤ 90) ∨ 97 ≤ c.toNat ∧ c.toNat ≤ 122 := by
  change (decide (65 ≤ c.val ∧ c.val ≤ 90) ||
    decide (97 ≤ c.val) && decide (c.val ≤ 122)) = true ↔ _
  simp only [Bool.or_eq_true, Bool.and_eq_true, decide_eq_true_eq, UInt32.le_iff_toNat_le]
  exact Iff.rfl

/-- A blank is no character of a token outside of a string. -/
theorem blank_notMem {c : Char} (blank : isBlank c = true) :
    isIdentifierPart c = false ∧ c.isAlphanum = false ∧ c.isDigit = false ∧
      opensComment c = false ∧ c ≠ '.' ∧ c ≠ '-' ∧ c ≠ '+' := by
  have code : c.toNat < 0x21 ∨ 0x7F < c.toNat := by
    simp only [isBlank, blankRanges, List.any_cons, List.any_nil, Bool.or_eq_true, Bool.and_eq_true,
      decide_eq_true_eq, Bool.false_eq_true, or_false] at blank
    omega
  have different {d : Char} (visible : 0x20 < d.toNat ∧ d.toNat < 0x80) : c ≠ d := by
    intro same
    subst same
    omega
  have noDigit : c.isDigit = false := by
    simp only [Char.isDigit, Bool.and_eq_false_iff, decide_eq_false_iff_not, UInt32.le_iff_toNat_le]
    change ¬ 48 ≤ c.toNat ∨ ¬ c.toNat ≤ 57
    omega
  have noLetter : c.isAlpha = false := by
    rw [Bool.eq_false_iff, ne_eq, isAlpha_iff]
    omega
  have noWord : c.isAlphanum = false := by
    rw [Char.isAlphanum, noLetter, noDigit]
    rfl
  refine ⟨?_, noWord, noDigit, ?_, different (by decide), different (by decide),
    different (by decide)⟩
  · simp only [isIdentifierPart, noWord, Bool.false_or, decide_eq_false_iff_not]
    exact different (by decide)
  · simp only [opensComment, Bool.or_eq_false_iff, decide_eq_false_iff_not]
    exact ⟨different (by decide), different (by decide)⟩

/-! ## Tokens -/

theorem takeWhile_append {property : Char → Bool} {body other : List Char}
    (all : ∀ c ∈ body, property c = true) (stops : Stops property other) :
    (body ++ other).takeWhile property = body ∧ (body ++ other).dropWhile property = other := by
  induction body with
  | nil =>
    cases other with
    | nil => exact ⟨rfl, rfl⟩
    | cons c other =>
      have no := Bool.eq_false_iff.mp (stops c rfl)
      exact ⟨List.takeWhile_cons_of_neg no, List.dropWhile_cons_of_neg no⟩
  | cons c body inductionHypothesis =>
    rcases List.forall_mem_cons.mp all with ⟨here, later⟩
    rcases inductionHypothesis later with ⟨taken, left⟩
    rw [List.cons_append, List.takeWhile_cons_of_pos here, List.dropWhile_cons_of_pos here, taken,
      left]
    exact ⟨rfl, rfl⟩

/-- A number reaches as far as its characters do, whatever does not prolong it. -/
theorem spanNumber_append {hexadecimal : Bool} {previous : Char} {text taken left : List Char}
    (read : spanNumber hexadecimal previous text = (taken, left)) :
    text = taken ++ left ∧ Stops Char.isAlphanum left ∧ Stops (· = '.') left ∧
      ∀ other, Resumes left other →
        spanNumber hexadecimal previous (taken ++ other) = (taken, other) := by
  induction text generalizing previous taken with
  | nil =>
    cases read
    refine ⟨rfl, fun _ impossible => (nomatch impossible), fun _ impossible => (nomatch impossible), ?_⟩
    rintro other ⟨c, rest, rfl, blank | same⟩
    · rcases blank_notMem blank with ⟨_, noWord, _, _, notPoint, notMinus, notPlus⟩
      simp [spanNumber, noWord, notPoint, notMinus, notPlus]
    · cases same
  | cons c text inductionHypothesis =>
    rw [spanNumber] at read
    split at read
    · rename_i continues
      cases inner : spanNumber hexadecimal c text with
      | mk more behind =>
        rw [inner] at read
        cases read
        rcases inductionHypothesis inner with ⟨same, noWord, noPoint, others⟩
        refine ⟨by rw [same, List.cons_append], noWord, noPoint, fun other resumes => ?_⟩
        rw [List.cons_append, spanNumber, if_pos continues, others other resumes]
    · rename_i ends
      cases read
      have notAny := ends
      simp only [Bool.or_eq_true, not_or, Bool.not_eq_true] at notAny
      refine ⟨rfl, ?_, ?_, ?_⟩
      · intro d isFirst
        cases isFirst
        exact notAny.1.1
      · intro d isFirst
        cases isFirst
        exact notAny.1.2
      · rintro other ⟨d, rest, rfl, blank | same⟩
        · rcases blank_notMem blank with ⟨_, noWord, _, _, notPoint, notMinus, notPlus⟩
          simp [spanNumber, noWord, notPoint, notMinus, notPlus]
        · cases same
          rw [List.nil_append, spanNumber, if_neg ends]

theorem readEscapeDigits_append {base count value code : Nat} {text left : List Char}
    (read : readEscapeDigits base count value text = (code, left)) :
    ∃ body, text = body ++ left ∧ ∀ other, left.head? = other.head? →
      readEscapeDigits base count value (body ++ other) = (code, other) := by
  induction count generalizing value text with
  | zero =>
    cases read
    exact ⟨[], rfl, fun other _ => rfl⟩
  | succ count inductionHypothesis =>
    cases text with
    | nil =>
      cases read
      refine ⟨[], rfl, fun other same => ?_⟩
      rw [List.head?_eq_none_iff.mp same.symm]
      rfl
    | cons c text =>
      rw [readEscapeDigits] at read
      split at read
      · rename_i digit isDigit
        rcases inductionHypothesis read with ⟨body, same, others⟩
        refine ⟨c :: body, by rw [same, List.cons_append], fun other sameHead => ?_⟩
        rw [List.cons_append, readEscapeDigits, isDigit]
        exact others other sameHead
      · rename_i noDigit
        cases read
        refine ⟨[], rfl, fun other sameHead => ?_⟩
        rcases List.head?_eq_some_iff.mp sameHead.symm with ⟨behind, same⟩
        rw [same, List.nil_append, readEscapeDigits, noDigit]

theorem readEscape_append {text left : List Char} {c : Char}
    (read : readEscape text = .ok (c, left)) :
    ∃ body, text = body ++ left ∧ ∀ other, left.head? = other.head? →
      readEscape (body ++ other) = .ok (c, other) := by
  cases text with
  | nil => cases read
  | cons first text =>
    rw [readEscape] at read
    split at read
    · rename_i known
      cases read
      refine ⟨[first], rfl, fun other _ => ?_⟩
      rw [List.cons_append, List.nil_append, readEscape, known]
    · rename_i unknown
      split at read
      · rename_i hexadecimal
        cases inner : readEscapeDigits 16 2 0 text with
        | mk code behind =>
          rw [inner] at read
          dsimp only at read
          split at read
          · cases read
          · rename_i some
            cases read
            rcases readEscapeDigits_append inner with ⟨body, same, others⟩
            refine ⟨first :: body, by rw [same, List.cons_append], fun other sameHead => ?_⟩
            have someToo : ¬ other.length = (body ++ other).length := by
              rw [same, List.length_append] at some
              rw [List.length_append]
              omega
            rw [List.cons_append, readEscape, unknown]
            simp only [if_pos hexadecimal, others other sameHead, if_neg someToo]
      · rename_i notHexadecimal
        split at read
        · rename_i digit octal
          cases inner : readEscapeDigits 8 2 digit text with
          | mk code behind =>
            rw [inner] at read
            cases read
            rcases readEscapeDigits_append inner with ⟨body, same, others⟩
            refine ⟨first :: body, by rw [same, List.cons_append], fun other sameHead => ?_⟩
            rw [List.cons_append, readEscape, unknown]
            simp only [if_neg notHexadecimal, octal, others other sameHead]
        · cases read

theorem readString_escape {quote c : Char} {text left : List Char}
    (read : readEscape text = .ok (c, left)) :
    readString quote ('\\' :: text) =
      (readString quote left).map fun (value, left) => (c :: value, left) := by
  rw [readString, if_neg (by decide), if_pos rfl]
  split
  · rename_i refused
    cases read.symm.trans refused
  · rename_i accepted
    cases read.symm.trans accepted
    rfl

/-- A string ends with its quote, and nothing behind it matters. -/
theorem readString_append {quote : Char} {text value left : List Char}
    (read : readString quote text = .ok (value, left)) :
    ∃ first body, text = first :: body ++ left ∧
      ∀ other, readString quote (first :: body ++ other) = .ok (value, other) := by
  fun_induction readString quote text generalizing value with
  | case1 => cases read
  | case2 => cases read
  | case3 => cases read
  | case4 rest character behind escape _ notLine inductionHypothesis =>
    rcases Outcome.map_eq_ok_iff.mp read with ⟨⟨more, after⟩, inner, same⟩
    cases same
    rcases inductionHypothesis inner with ⟨first, body, isBehind, others⟩
    rcases readEscape_append escape with ⟨escaped, isRest, anyOther⟩
    refine ⟨'\\', escaped ++ (first :: body), ?_, fun other => ?_⟩
    · simp only [isRest, isBehind, List.cons_append, List.append_assoc]
    · have read := anyOther (first :: body ++ other) (by rw [isBehind]; rfl)
      rw [List.cons_append, List.append_assoc, readString_escape read, others other]
      rfl
  | case5 rest notLine notEscape =>
    cases read
    exact ⟨quote, [], rfl, fun other => by
      rw [List.cons_append, List.nil_append, readString, if_neg notLine, if_neg notEscape, if_pos rfl]⟩
  | case6 c rest notLine notEscape notQuote inductionHypothesis =>
    rcases Outcome.map_eq_ok_iff.mp read with ⟨⟨more, after⟩, inner, same⟩
    cases same
    rcases inductionHypothesis inner with ⟨first, body, isRest, others⟩
    refine ⟨c, first :: body, by rw [isRest]; rfl, fun other => ?_⟩
    rw [List.cons_append, readString, if_neg notLine, if_neg notEscape, if_neg notQuote,
      others other]
    rfl

/-! ## A token and what follows it -/

/-- Behind a point a digit, and otherwise the first character alone, makes a number. -/
theorem startsNumber_cons (first : Char) (rest : List Char) :
    startsNumber (first :: rest) = if first = '.' then rest.head?.any Char.isDigit
      else first.isDigit := by
  rw [startsNumber.eq_def]
  split
  · rename_i same
    cases same
    rfl
  · rename_i c after notPoint same
    cases same
    by_cases isPoint : first = '.'
    · subst isPoint
      cases rest with
      | nil => rfl
      | cons c after => exact absurd rfl (notPoint c after rfl)
    · rw [if_neg isPoint]
  · rename_i same
    cases same

/-- Whether a character behind a zero marks a hexadecimal number. -/
def marksHexadecimal (c : Char) : Bool := c = 'x' || c = 'X'

theorem isSome_hexadecimalDigits? (first : Char) (rest : List Char) :
    (hexadecimalDigits? (first :: rest)).isSome =
      (decide (first = '0') && rest.head?.any marksHexadecimal) := by
  rw [hexadecimalDigits?.eq_def]
  split
  · rename_i same
    cases same
    rfl
  · rename_i same
    cases same
    rfl
  · rename_i noLower noUpper
    symm
    refine Bool.eq_false_iff.mpr fun marked => ?_
    rcases Bool.and_eq_true_iff.mp marked with ⟨isZero, isMark⟩
    have zero := of_decide_eq_true isZero
    cases rest with
    | nil => cases isMark
    | cons c after =>
      simp only [List.head?_cons, Option.any_some, marksHexadecimal, Bool.or_eq_true,
        decide_eq_true_eq] at isMark
      subst zero
      rcases isMark with rfl | rfl
      · exact noLower after rfl
      · exact noUpper after rfl

theorem any_head?_eq_false_iff {property : Char → Bool} {text : List Char} :
    text.head?.any property = false ↔ Stops property text := by
  cases text with
  | nil => exact ⟨fun _ _ impossible => (nomatch impossible), fun _ => rfl⟩
  | cons c text =>
    constructor
    · intro no d isFirst
      cases isFirst
      exact no
    · intro stops
      exact stops c rfl

/-- What stands first behind a token is asked of the token if it has more characters, and of what
follows otherwise. -/
theorem any_head?_append {property : Char → Bool} {body left other : List Char}
    (stops : Stops property left) (stopsToo : Stops property other) :
    (body ++ left).head?.any property = (body ++ other).head?.any property := by
  cases body with
  | nil =>
    rw [List.nil_append, List.nil_append, any_head?_eq_false_iff.mpr stops,
      any_head?_eq_false_iff.mpr stopsToo]
  | cons c body => rfl

/-- A number goes as far in front of something else that does not prolong it. -/
theorem spanNumber_append_same {first : Char} {rest taken left : List Char}
    (starts : startsNumber (first :: rest) = true)
    (spanned : spanNumber (hexadecimalDigits? (first :: rest)).isSome first rest = (taken, left)) :
    rest = taken ++ left ∧ ∀ other, Resumes left other →
      startsNumber (first :: (taken ++ other)) = true ∧
        spanNumber (hexadecimalDigits? (first :: (taken ++ other))).isSome first (taken ++ other) =
          (taken, other) := by
  rcases spanNumber_append spanned with ⟨same, noWord, _, others⟩
  refine ⟨same, fun other resumes => ?_⟩
  -- Nothing that is asked of the character behind the first one holds of the end of a number.
  have weaker {property : Char → Bool} (word : ∀ c, c.isAlphanum = false → property c = false) :
      rest.head?.any property = (taken ++ other).head?.any property := by
    rw [same]
    exact any_head?_append (fun c isFirst => word c (noWord c isFirst))
      (resumes.stops (fun c blank => word c (blank_notMem blank).2.1)
        (fun c isFirst => word c (noWord c isFirst)))
  have noDigit (c : Char) (noWord : c.isAlphanum = false) : c.isDigit = false :=
    (Bool.or_eq_false_iff.mp noWord).2
  have noMark (c : Char) (noWord : c.isAlphanum = false) : marksHexadecimal c = false := by
    refine Bool.eq_false_iff.mpr fun marks => ?_
    simp only [marksHexadecimal, Bool.or_eq_true, decide_eq_true_eq] at marks
    rcases marks with rfl | rfl
    · exact absurd noWord (by decide)
    · exact absurd noWord (by decide)
  constructor
  · rw [startsNumber_cons, ← weaker noDigit, ← startsNumber_cons, starts]
  · rw [isSome_hexadecimalDigits?, ← weaker noMark, ← isSome_hexadecimalDigits?]
    exact others other resumes

/-- What begins no number begins none in front of something else. -/
theorem startsNumber_of_resumes {first : Char} {left other : List Char}
    (noNumber : startsNumber (first :: left) = false) (resumes : Resumes left other) :
    startsNumber (first :: other) = false := by
  rw [startsNumber_cons] at noNumber ⊢
  split
  · rename_i isPoint
    rw [if_pos isPoint, any_head?_eq_false_iff] at noNumber
    exact any_head?_eq_false_iff.mpr
      (resumes.stops (fun c blank => (blank_notMem blank).2.2.1) noNumber)
  · rename_i notPoint
    rwa [if_neg notPoint] at noNumber

/-- A quote begins no number, whatever follows it. -/
theorem startsNumber_of_quote {first : Char} {rest : List Char}
    (isQuote : first = '"' ∨ first = '\'') (noNumber : startsNumber (first :: rest) = false)
    (other : List Char) : startsNumber (first :: other) = false := by
  have notPoint : first ≠ '.' := by
    rintro rfl
    exact absurd isQuote (by decide)
  rw [startsNumber_cons, if_neg notPoint] at noNumber ⊢
  exact noNumber

/-- An identifier ends where its characters do. -/
theorem readToken_identifier {first : Char} (starts : isIdentifierStart first = true)
    {rest other : List Char} (resumes : Resumes (rest.dropWhile isIdentifierPart) other) :
    readToken first (rest.takeWhile isIdentifierPart ++ other) =
      .ok (.identifier (String.ofList (first :: rest.takeWhile isIdentifierPart)), other) := by
  have stops : Stops isIdentifierPart (rest.dropWhile isIdentifierPart) := by
    intro c isFirst
    have ended := List.head?_dropWhile_not isIdentifierPart rest
    rw [isFirst] at ended
    exact ended
  rcases takeWhile_append (List.all_eq_true.mp List.all_takeWhile)
    (resumes.stops (fun c blank => (blank_notMem blank).1) stops) with ⟨taken, behind⟩
  rw [readToken, if_pos starts, taken, behind]

/-- A number ends where nothing prolongs it. -/
theorem readToken_number {first : Char} (noIdentifier : ¬ isIdentifierStart first = true)
    {rest behind left : List Char} (starts : startsNumber (first :: rest) = true)
    (spanned : spanNumber (hexadecimalDigits? (first :: rest)).isSome first rest = (behind, left))
    {token : Token} (isNumber : numberToken? (first :: behind) = some token)
    {other : List Char} (resumes : Resumes left other) :
    readToken first (behind ++ other) = .ok (token, other) := by
  rcases (spanNumber_append_same starts spanned).2 other resumes with ⟨startsToo, spannedToo⟩
  rw [readToken, if_neg noIdentifier, if_pos startsToo, spannedToo]
  simp only [isNumber]

/-- A token is read in the same way if something else follows it that does not prolong it. -/
theorem readToken_append {first : Char} {rest left : List Char} {token : Token}
    (read : readToken first rest = .ok (token, left)) :
    ∃ body, rest = body ++ left ∧ ∀ other, Resumes left other →
      readToken first (body ++ other) = .ok (token, other) := by
  unfold readToken at read
  split at read
  · rename_i starts
    cases read
    exact ⟨rest.takeWhile isIdentifierPart, List.takeWhile_append_dropWhile.symm,
      fun other resumes => readToken_identifier starts resumes⟩
  · rename_i noIdentifier
    split at read
    · rename_i starts
      cases spanned :
          spanNumber (hexadecimalDigits? (first :: rest)).isSome first rest with
      | mk behind after =>
        rw [spanned] at read
        dsimp only at read
        split at read
        · rename_i isNumber
          cases read
          exact ⟨behind, (spanNumber_append_same starts spanned).1,
            fun other resumes => readToken_number noIdentifier starts spanned isNumber resumes⟩
        · cases read
    -- What begins neither an identifier nor a number has to begin none in front of the other text.
    · rename_i noNumber
      rw [Bool.not_eq_true] at noNumber
      split at read
      · rename_i isQuote
        rcases Outcome.map_eq_ok_iff.mp read with ⟨⟨value, after⟩, inner, same⟩
        cases same
        rcases readString_append inner with ⟨second, body, isRest, others⟩
        refine ⟨second :: body, isRest, fun other _ => ?_⟩
        have noNumberToo := startsNumber_of_quote isQuote noNumber (second :: body ++ other)
        rw [readToken, if_neg noIdentifier, noNumberToo, if_neg Bool.false_ne_true, if_pos isQuote,
          others other]
        rfl
      · rename_i notQuote
        split at read
        · rename_i isSymbol
          cases read
          refine ⟨[], rfl, fun other resumes => ?_⟩
          rw [List.nil_append, readToken, if_neg noIdentifier,
            startsNumber_of_resumes noNumber resumes, if_neg Bool.false_ne_true, if_neg notQuote,
            if_pos isSymbol]
        · cases read

/-- A text that begins with a token still does if something else follows the token. -/
theorem BeginsToken.append {first : Char} {body left other : List Char}
    (begins : BeginsToken (first :: (body ++ left))) (resumes : Resumes left other) :
    BeginsToken (first :: (body ++ other)) := by
  rcases beginsToken_iff.mp begins with ⟨notBlank, noComment⟩
  exact beginsToken_iff.mpr ⟨notBlank, fun slash =>
    resumes.stops_append (fun c blank => (blank_notMem blank).2.2.2.1) (noComment slash)⟩

/-! ## Lexemes -/

theorem scan_of_token {text first rest left} {token : Token}
    (skipped : skipGap .blank text = .ok (first :: rest))
    (read : readToken first rest = .ok (token, left)) :
    Lexeme.scan text = (Lexeme.scan left).map fun behind => ⟨token, first :: rest⟩ :: behind := by
  rw [Lexeme.scan.eq_def]
  split
  · rename_i refused
    cases skipped.symm.trans refused
  · rename_i nothing
    cases skipped.symm.trans nothing
  · rename_i some
    cases skipped.symm.trans some
    split
    · rename_i refused
      cases read.symm.trans refused
    · rename_i accepted
      cases read.symm.trans accepted
      rfl

/-- The lexemes of a text stand in it, each behind the one before. -/
theorem suffix_of_scan {text : List Char} {lexemes : List Lexeme}
    (scanned : Lexeme.scan text = .ok lexemes) :
    ∀ lexeme ∈ lexemes, lexeme.tail <:+ text ∧ lexeme.tail ≠ [] := by
  fun_induction Lexeme.scan text generalizing lexemes with
  | case1 => cases scanned
  | case2 =>
    cases scanned
    exact fun _ member => nomatch member
  | case3 => cases scanned
  | case4 text first rest skipped token left read _ inductionHypothesis =>
    rcases Outcome.map_eq_ok_iff.mp scanned with ⟨behind, scannedLeft, same⟩
    subst same
    rcases exists_of_skipGap skipped with ⟨front, _, sameText⟩
    rcases readToken_append read with ⟨body, sameRest, _⟩
    intro lexeme member
    rcases List.mem_cons.mp member with rfl | later
    · exact ⟨⟨front, sameText.symm⟩, List.cons_ne_nil _ _⟩
    · rcases inductionHypothesis scannedLeft lexeme later with ⟨suffix, nonempty⟩
      refine ⟨suffix.trans ⟨front ++ first :: body, ?_⟩, nonempty⟩
      rw [sameText, sameRest, List.append_assoc, List.cons_append]

end SchemaRecords.Schema
