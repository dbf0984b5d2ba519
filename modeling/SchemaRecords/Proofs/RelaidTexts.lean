import Mathlib.Logic.Relation
import SchemaRecords.Proofs.Schema.TokenBoundaries
import SchemaRecords.Schema.Registration

/-!
# Texts in another layout

Blanks and comments can be put in front of any token of a schema text.  The tokens stay the same,
and with them all that is declared, so the text is registered with the same result.  Only the
lines and columns in a refusal tell the two texts apart.
-/

namespace SchemaRecords.Schema

open SchemaRecords.Text

/-! ## Layouts -/

/-- What may be put in front of a token: a filler that begins with a blank, so that it is kept
apart from the token before it. -/
structure Layout (run : List Char) : Prop where
  filler : Filler run
  apart : ∃ c rest, run = c :: rest ∧ isBlank c = true

/-- The second text is the first one with some layout in front of one of its tokens. -/
inductive Inserted (text : List Char) : List Char → Prop
  | intro {lexemes : List Lexeme} {lexeme : Lexeme} {front run : List Char}
      (scanned : Lexeme.scan text = .ok lexemes) (member : lexeme ∈ lexemes)
      (place : text = front ++ lexeme.tail) (layout : Layout run) :
      Inserted text (front ++ (run ++ lexeme.tail))

/-- Two texts with the same tokens. -/
def SameTokens (text other : List Char) : Prop :=
  ∃ lexemes others, Lexeme.scan text = .ok lexemes ∧ Lexeme.scan other = .ok others ∧
    others.map Lexeme.token = lexemes.map Lexeme.token

/-- By induction along the scan.  If the token in front of which the layout is put is not the
first one, the first one is read as before, since the layout does not prolong it. -/
theorem sameTokens_insert {text front run : List Char} {lexemes : List Lexeme} {lexeme : Lexeme}
    (scanned : Lexeme.scan text = .ok lexemes) (member : lexeme ∈ lexemes)
    (place : text = front ++ lexeme.tail) (layout : Layout run) :
    SameTokens text (front ++ (run ++ lexeme.tail)) := by
  fun_induction Lexeme.scan text generalizing lexemes front with
  | case1 => cases scanned
  | case2 =>
    cases scanned
    cases member
  | case3 => cases scanned
  | case4 text first rest skipped token left read _ inductionHypothesis =>
    have scan := scan_of_token skipped read
    rcases Outcome.map_eq_ok_iff.mp scanned with ⟨behind, scannedLeft, same⟩
    subst same
    rw [scannedLeft] at scan
    rcases exists_of_skipGap skipped with ⟨filler, isFiller, sameText⟩
    have begins := BeginsToken.of_skipGap skipped
    rcases List.mem_cons.mp member with rfl | later
    · have isFront : front = filler := List.append_cancel_right (place.symm.trans sameText)
      have skippedToo : skipGap .blank (front ++ (run ++ first :: rest)) = .ok (first :: rest) := by
        rw [isFront, isFiller.skipGap_append, layout.filler.skipGap_append]
        exact begins
      have scanToo := scan_of_token skippedToo read
      rw [scannedLeft] at scanToo
      exact ⟨_, _, scan, scanToo, rfl⟩
    · rcases readToken_append read with ⟨body, sameRest, others⟩
      rcases suffix_of_scan scannedLeft lexeme later with ⟨⟨middle, sameLeft⟩, _⟩
      have isFront : front = filler ++ first :: (body ++ middle) := by
        refine List.append_cancel_right (place.symm.trans ?_)
        rw [sameText, sameRest, ← sameLeft]
        simp only [List.append_assoc, List.cons_append]
      rcases inductionHypothesis scannedLeft later sameLeft.symm with
        ⟨lexemesLeft, othersLeft, scannedAgain, scannedOther, sameTokens⟩
      cases scannedLeft.symm.trans scannedAgain
      have resumes : Resumes left (middle ++ (run ++ lexeme.tail)) := by
        cases middle with
        | nil =>
          rcases layout.apart with ⟨c, after, isRun, blank⟩
          rw [isRun]
          exact .of_blank blank _ _
        | cons c middle => exact ⟨c, _, rfl, Or.inr (by rw [← sameLeft]; rfl)⟩
      have skippedToo : skipGap .blank (front ++ (run ++ lexeme.tail)) =
          .ok (first :: (body ++ (middle ++ (run ++ lexeme.tail)))) := by
        rw [isFront]
        simp only [List.append_assoc, List.cons_append]
        rw [isFiller.skipGap_append]
        exact (sameRest ▸ begins).append resumes
      have scanToo := scan_of_token skippedToo (others _ resumes)
      rw [scannedOther] at scanToo
      exact ⟨_, _, scan, scanToo, by rw [List.map_cons, List.map_cons, sameTokens]⟩

/-- By induction on the insertions. -/
theorem sameTokens_of_inserted {text other : List Char} {lexemes : List Lexeme}
    (scanned : Lexeme.scan text = .ok lexemes)
    (inserted : Relation.ReflTransGen Inserted text other) : SameTokens text other := by
  induction inserted with
  | refl => exact ⟨lexemes, lexemes, scanned, scanned, rfl⟩
  | tail _ last inductionHypothesis =>
    rcases inductionHypothesis with ⟨first, second, scannedFirst, scannedSecond, same⟩
    cases last with
    | intro scanned member place layout =>
      rcases sameTokens_insert scanned member place layout with
        ⟨again, third, scannedAgain, scannedThird, sameToo⟩
      cases scannedSecond.symm.trans scannedAgain
      exact ⟨first, third, scannedFirst, scannedThird, sameToo.trans same⟩

/-! ## Refusals without places -/

/-- A cause without the places in it. -/
def CompileCause.unplaced : CompileCause → CompileCause
  | .alreadyRegistered => .alreadyRegistered
  | .unreadable fault => .unreadable ⟨fault.cause, Position.start⟩
  | .unlinkable cause => .unlinkable (cause.map fun _ => 0)

/-- An error without the places in it. -/
def CompileError.unplaced (error : CompileError) : CompileError :=
  ⟨error.unitName, error.cause.unplaced⟩

theorem LinkCause.map_map {α β γ : Type} (f : α → β) (g : β → γ) (cause : LinkCause α) :
    (cause.map f).map g = cause.map (g ∘ f) := by
  cases cause <;> rfl

/-- Texts with the same tokens declare the same, or are refused for the same reason. -/
theorem SameTokens.read {text other : String} (same : SameTokens text.toList other.toList) :
    (∃ schema another, SchemaText.read text = .ok schema ∧ SchemaText.read other = .ok another ∧
        another.file = schema.file) ∨
      ∃ fault another, SchemaText.read text = .error fault ∧
        SchemaText.read other = .error another ∧ another.cause = fault.cause := by
  rcases same with ⟨lexemes, others, scanned, scannedOther, sameTokens⟩
  unfold SchemaText.read
  rw [scanned, scannedOther]
  dsimp only
  rw [sameTokens]
  cases FileDecl.parse (lexemes.map Lexeme.token) with
  | ok file => exact Or.inl ⟨_, _, rfl, rfl, rfl⟩
  | error fault => exact Or.inr ⟨_, _, rfl, rfl, rfl⟩

/-! ## Registration -/

/-- However much layout is put in front of the tokens of a text, it is registered with the same
result, or refused with the same error but for the places in it. -/
theorem addUnit_inserted (pool : Pool) (name : String) {text other : String}
    {lexemes : List Lexeme} (scanned : Lexeme.scan text.toList = .ok lexemes)
    (inserted : Relation.ReflTransGen Inserted text.toList other.toList) :
    (pool.addUnit name other).mapError CompileError.unplaced =
      (pool.addUnit name text).mapError CompileError.unplaced := by
  unfold Pool.addUnit
  split
  · rfl
  · rcases (sameTokens_of_inserted scanned inserted).read with
      ⟨schema, another, read, readOther, sameFile⟩ |
      ⟨fault, another, read, readOther, sameCause⟩
    · rw [read, readOther]
      dsimp only
      rw [sameFile]
      cases link pool name schema.file with
      | ok linked => rfl
      | error cause =>
        change Except.error (CompileError.unplaced _) = Except.error (CompileError.unplaced _)
        simp only [CompileError.unplaced, CompileCause.unplaced, LinkCause.map_map,
          Function.comp_def]
    · rw [read, readOther]
      change Except.error (CompileError.unplaced _) = Except.error (CompileError.unplaced _)
      simp only [CompileError.unplaced, CompileCause.unplaced, sameCause]

/-- A comment in front of a number that no field may have: the refusals name different lines. -/
theorem addUnit_inserted_comment :
    ∃ lexemes, Lexeme.scan "message A\x7boptional int32 b=0;\x7d".toList = .ok lexemes ∧
      Relation.ReflTransGen Inserted "message A\x7boptional int32 b=0;\x7d".toList
        "message A\x7boptional int32 b= // one\n/*/ two */ 0;\x7d".toList ∧
      (Pool.empty.addUnit "a" "message A\x7boptional int32 b= // one\n/*/ two */ 0;\x7d").mapError
          CompileError.unplaced =
        (Pool.empty.addUnit "a" "message A\x7boptional int32 b=0;\x7d").mapError
          CompileError.unplaced := by
  have tails : ((Lexeme.scan "message A\x7boptional int32 b=0;\x7d".toList).toOption.map
      fun lexemes => (lexemes.map Lexeme.tail).contains "0;\x7d".toList) = some true := by
    decide +kernel
  rcases Option.map_eq_some_iff.mp tails with ⟨lexemes, read, contains⟩
  have scanned := Outcome.toOption_eq_some_iff.mp read
  rcases List.mem_map.mp (List.contains_iff_mem.mp contains) with ⟨lexeme, member, isTail⟩
  have filler : Filler " // one\n/*/ two */ ".toList :=
    .blank (by decide) (@Filler.line " one".toList _ (by decide)
      (@Filler.block "/ two ".toList _ (by decide) (.blank (by decide) .nil)))
  have layout : Layout " // one\n/*/ two */ ".toList := ⟨filler, ' ', _, rfl, by decide⟩
  have place : "message A\x7boptional int32 b=0;\x7d".toList =
      "message A\x7boptional int32 b=".toList ++ lexeme.tail := by
    rw [isTail]
    rfl
  have inserted := Inserted.intro scanned member place layout
  rw [isTail] at inserted
  exact ⟨lexemes, scanned, .single inserted, addUnit_inserted _ _ scanned (.single inserted)⟩

end SchemaRecords.Schema
