import SchemaRecords.Proofs.Wire.ConsumedBytes
import SchemaRecords.Proofs.Wire.SpelledValues

/-!
# What is skipped is a value

A value that nobody has a use for is skipped: a single value by its layout, a group by counting off
the start and end tags in it.  The groups that are open are kept on a stack, so nothing there is
recursive.  The grammar of values is recursive: a group is a row of tags with what they announce, up
to the end tag of its number, and what a tag in the row announces may be a group again.

The two agree on every input of less than 2^32 bytes, that is, as long as every length counts in
full.  A value is skipped exactly if the bytes up to where the reader stops are derived by the
grammar with groups nested at most a hundred deep, and no other front part of the bytes is.  An end
tag of another number, an end tag that ends nothing, field number zero and the two kinds that are not
in use have no place in any derivation.
-/

namespace SchemaRecords.Wire

/-! ## The grammar -/

/-- A tag as it is written, and the bytes that it announces. -/
structure Member where
  tag : Tag
  mark : Bytes
  bytes : Bytes

/-- The bytes of a member. -/
def Member.text (member : Member) : Bytes := member.mark ++ member.bytes

/-- The bytes behind a tag that are what it announces, with groups at most `levels` deep.  An end tag
announces nothing. -/
inductive Announced : (levels : Nat) → (tag : Tag) → (bytes : Bytes) → Prop
  | value {levels number : Nat} {layout : Layout} {bytes : Bytes}
      (spelled : Value.Spelled layout bytes) : Announced levels ⟨number, .value layout⟩ bytes
  | group {levels number : Nat} {members : List Member} {mark : Bytes}
      (tags : ∀ member ∈ members, member.tag.Spelled member.mark ∧ member.tag.kind ≠ .endGroup)
      (announced : ∀ member ∈ members, Announced levels member.tag member.bytes)
      (isEnd : Tag.Spelled ⟨number, .endGroup⟩ mark) :
      Announced (levels + 1) ⟨number, .startGroup⟩ (members.flatMap Member.text ++ mark)

namespace Announced

variable {levels number : Nat}

/-- A group without members. -/
theorem finish {mark : Bytes} (isEnd : Tag.Spelled ⟨number, .endGroup⟩ mark) :
    Announced (levels + 1) ⟨number, .startGroup⟩ mark :=
  .group (List.forall_mem_nil _) (List.forall_mem_nil _) isEnd

/-- One more member in front of a group. -/
theorem member {tag : Tag} {mark bytes body : Bytes} (isTag : tag.Spelled mark)
    (goesOn : tag.kind ≠ .endGroup) (announced : Announced levels tag bytes)
    (rest : Announced (levels + 1) ⟨number, .startGroup⟩ body) :
    Announced (levels + 1) ⟨number, .startGroup⟩ (mark ++ (bytes ++ body)) := by
  rcases rest with _ | @⟨_, _, members, last, tags, others, isEnd⟩
  have whole : mark ++ (bytes ++ (members.flatMap Member.text ++ last)) =
      (⟨tag, mark, bytes⟩ :: members).flatMap Member.text ++ last := by
    simp only [List.flatMap_cons, Member.text, List.append_assoc]
  rw [whole]
  exact .group (List.forall_mem_cons.mpr ⟨⟨isTag, goesOn⟩, tags⟩)
    (List.forall_mem_cons.mpr ⟨announced, others⟩) isEnd

end Announced

/-! ## Derived bytes are skipped -/

theorem closeGroups_nil (bytes : Bytes) : closeGroups [] bytes = .ok bytes := by
  rw [closeGroups.eq_def]

/-- One tag inside of a group. -/
theorem closeGroups_tag {number : Nat} {outer : List Nat} {tag : Tag} {mark : Bytes}
    (isTag : tag.Spelled mark) (bytes : Bytes) :
    closeGroups (number :: outer) (mark ++ bytes) = closeBehind number outer tag bytes := by
  rw [closeGroups_cons, Tag.read_eq_ok_iff.mpr ⟨mark, rfl, isTag⟩]
  rfl

/-- A group is passed over if each of its members is. -/
theorem closeGroups_members {number : Nat} {outer : List Nat} {members : List Member} {mark : Bytes}
    (tags : ∀ member ∈ members, member.tag.Spelled member.mark)
    (passed : ∀ member ∈ members, ∀ rest, closeBehind number outer member.tag (member.bytes ++ rest) =
      closeGroups (number :: outer) rest)
    (isEnd : Tag.Spelled ⟨number, .endGroup⟩ mark) (rest : Bytes) :
    closeGroups (number :: outer) (members.flatMap Member.text ++ mark ++ rest) =
      closeGroups outer rest := by
  induction members with
  | nil =>
    rw [List.flatMap_nil, List.nil_append, closeGroups_tag isEnd]
    simp only [closeBehind, if_true]
  | cons member members inductionHypothesis =>
    rw [List.forall_mem_cons] at tags passed
    simp only [List.flatMap_cons, Member.text, List.append_assoc] at inductionHypothesis ⊢
    rw [closeGroups_tag tags.1, passed.1, inductionHypothesis tags.2 passed.2]

/-- The bytes of a value in front of others are read as some value, and nothing of the others is. -/
theorem Value.Spelled.exists_read {layout : Layout} {bytes : Bytes} (spelled : Spelled layout bytes)
    (short : bytes.length < 2 ^ 32) (rest : Bytes) :
    ∃ value, Value.read layout (bytes ++ rest) = .ok (value, rest) := by
  rcases (Value.exists_read_iff short).mpr ⟨bytes, (List.append_nil bytes).symm, spelled⟩ with
    ⟨value, alone⟩
  exact ⟨value, (Value.readsFront layout).append alone rest⟩

/-- What a member announces is no longer than the group. -/
theorem Member.length_bytes_lt {members : List Member} {mark : Bytes} {most : Nat}
    (short : (members.flatMap Member.text ++ mark).length < most) {member : Member}
    (isMember : member ∈ members) : member.bytes.length < most := by
  rcases List.append_of_mem isMember with ⟨before, behind, rfl⟩
  simp only [List.flatMap_append, List.flatMap_cons, Member.text, List.length_append] at short
  omega

namespace Announced

/-- What a tag inside of a group announces is passed over.  By induction on the derivation: a group
takes one level of the derivation and one place on the stack. -/
theorem closeBehind_append {levels : Nat} {tag : Tag} {bytes : Bytes}
    (announced : Announced levels tag bytes) (short : bytes.length < 2 ^ 32) {number : Nat}
    {outer : List Nat} (room : levels + (outer.length + 1) = groupLimit) (rest : Bytes) :
    closeBehind number outer tag (bytes ++ rest) = closeGroups (number :: outer) rest := by
  induction announced generalizing number outer rest with
  | value spelled =>
    rcases spelled.exists_read short rest with ⟨value, read⟩
    simp only [closeBehind, read, Except.bind]
  | @group levels inner members mark tags announced isEnd inductionHypothesis =>
    have inside : levels + ((number :: outer).length + 1) = groupLimit := by
      rw [List.length_cons]
      omega
    have shallow : (number :: outer).length < groupLimit := by omega
    have passed := closeGroups_members (fun member isMember => (tags member isMember).1)
      (fun member isMember rest => inductionHypothesis member isMember
        (Member.length_bytes_lt short isMember) inside rest) isEnd rest
    simp only [closeBehind, if_pos shallow, passed]

/-- The rest of a group is passed over. -/
theorem closeGroups_append {levels number : Nat} {body : Bytes}
    (announced : Announced levels ⟨number, .startGroup⟩ body) (short : body.length < 2 ^ 32)
    {outer : List Nat} (room : levels + outer.length = groupLimit) (rest : Bytes) :
    closeGroups (number :: outer) (body ++ rest) = closeGroups outer rest := by
  rcases announced with _ | ⟨tags, announced, isEnd⟩
  exact closeGroups_members (fun member isMember => (tags member isMember).1)
    (fun member isMember => (announced member isMember).closeBehind_append
      (Member.length_bytes_lt short isMember) (by omega)) isEnd rest

end Announced

/-! ## Skipped bytes are derived -/

/-- The bytes behind several groups that are open, the innermost first: the rest of each group, one
behind the other.  A group inside of another has one level less. -/
def Closing : (unclosed : List Nat) → (bytes : Bytes) → Prop
  | [], bytes => bytes = []
  | number :: outer, bytes => ∃ body behind, bytes = body ++ behind ∧
      Announced (groupLimit - outer.length) ⟨number, .startGroup⟩ body ∧ Closing outer behind

/-- By induction on the bytes, of which every tag takes some. -/
theorem exists_closing_of_closeGroups {unclosed : List Nat} {bytes rest : Bytes}
    (closed : closeGroups unclosed bytes = .ok rest) (room : unclosed.length ≤ groupLimit)
    (short : bytes.length < 2 ^ 32) : ∃ front, bytes = front ++ rest ∧ Closing unclosed front := by
  induction size : bytes.length using Nat.strongRecOn generalizing unclosed bytes with
  | ind size inductionHypothesis =>
  cases unclosed with
  | nil =>
    cases (closeGroups_nil bytes).symm.trans closed
    exact ⟨[], rfl, rfl⟩
  | cons number outer =>
    rw [closeGroups_cons] at closed
    rcases Outcome.bind_eq_ok_iff.mp closed with ⟨⟨⟨inner, kind⟩, after⟩, isTag, closes⟩
    have shorter := Tag.length_of_read isTag
    rcases Tag.read_eq_ok_iff.mp isTag with ⟨mark, rfl, spelled⟩
    have levels : groupLimit - outer.length = groupLimit - (outer.length + 1) + 1 := by
      rw [List.length_cons] at room
      omega
    cases kind with
    | endGroup =>
      simp only [closeBehind] at closes
      split at closes
      · rename_i matching
        subst matching
        rcases inductionHypothesis after.length (by omega) closes (Nat.le_of_succ_le room)
            (by omega) rfl with
          ⟨behind, rfl, closing⟩
        exact ⟨mark ++ behind, by rw [List.append_assoc], mark, behind, rfl,
          levels ▸ .finish spelled, closing⟩
      · cases closes
    | startGroup =>
      simp only [closeBehind] at closes
      split at closes
      · rename_i shallow
        rcases inductionHypothesis after.length (by omega) closes shallow (by omega) rfl with
          ⟨_, rfl, body, _, rfl, isBody, others, behind, rfl, isRest, closing⟩
        rw [List.length_cons] at isBody
        rw [levels] at isRest
        refine ⟨mark ++ (body ++ others) ++ behind, by simp only [List.append_assoc],
          mark ++ (body ++ others), behind, rfl, levels ▸ ?_, closing⟩
        exact .member spelled nofun isBody isRest
      · cases closes
    | value layout =>
      simp only [closeBehind] at closes
      rcases Outcome.bind_eq_ok_iff.mp closes with ⟨⟨value, further⟩, isValue, closesLater⟩
      dsimp only at closesLater
      have less := Value.length_of_read isValue
      rcases (Value.exists_read_iff (by omega)).mp ⟨value, isValue⟩ with ⟨bytes, rfl, isSpelled⟩
      rcases inductionHypothesis further.length (by omega) closesLater room (by omega) rfl with
        ⟨_, rfl, others, behind, rfl, isRest, closing⟩
      rw [levels] at isRest
      refine ⟨mark ++ (bytes ++ others) ++ behind, by simp only [List.append_assoc],
        mark ++ (bytes ++ others), behind, rfl, levels ▸ ?_, closing⟩
      exact .member spelled nofun (.value isSpelled) isRest

/-! ## Skipping -/

/-- What a tag announces is skipped exactly if the grammar derives it. -/
theorem Record.exists_readValue_iff {tag : Tag} {bytes rest : Bytes}
    (short : bytes.length < 2 ^ 32) :
    (∃ value, readValue tag bytes = .ok (value, rest)) ↔
      ∃ front, bytes = front ++ rest ∧ Announced groupLimit tag front := by
  rcases tag with ⟨number, kind⟩
  cases kind with
  | value layout =>
    constructor
    · rintro ⟨value, done⟩
      simp only [readValue] at done
      split at done <;> cases done
      rename_i read
      rcases (Value.exists_read_iff short).mp ⟨_, read⟩ with ⟨front, same, spelled⟩
      exact ⟨front, same, .value spelled⟩
    · rintro ⟨front, rfl, announced⟩
      rcases announced with spelled | _
      rw [List.length_append] at short
      rcases spelled.exists_read (by omega) rest with ⟨value, read⟩
      exact ⟨some value, by simp only [readValue, read]⟩
  | startGroup =>
    constructor
    · rintro ⟨value, done⟩
      simp only [readValue] at done
      split at done <;> cases done
      rename_i closed
      rcases exists_closing_of_closeGroups closed (Nat.succ_le_succ (Nat.zero_le _)) short with
        ⟨_, rfl, body, _, rfl, isBody, rfl⟩
      exact ⟨body, by rw [List.append_nil], isBody⟩
    · rintro ⟨front, rfl, announced⟩
      have room : groupLimit + ([] : List Nat).length = groupLimit := rfl
      rw [List.length_append] at short
      have closed := announced.closeGroups_append (by omega) room rest
      rw [closeGroups_nil] at closed
      exact ⟨none, by simp only [readValue, closed]⟩
  | endGroup =>
    constructor
    · rintro ⟨value, done⟩
      cases done
    · rintro ⟨front, -, announced⟩
      cases announced

/-- Skipping what a tag announces, from one position in the input on, ends at another. -/
def Record.StopsAt (input : Bytes) (tag : Tag) (start stop : Nat) : Prop :=
  start ≤ stop ∧ stop ≤ input.length ∧
    ∃ value, readValue tag (input.drop start) = .ok (value, input.drop stop)

/-- The bytes between two positions in the input are what a tag announces. -/
def AnnouncedAt (input : Bytes) (tag : Tag) (start stop : Nat) : Prop :=
  start ≤ stop ∧ stop ≤ input.length ∧ Announced groupLimit tag (input.extract start stop)

/-- The bytes from a position on are those up to a later position and those behind it. -/
theorem extract_append_drop {input : Bytes} {start stop : Nat} (order : start ≤ stop) :
    input.extract start stop ++ input.drop stop = input.drop start := by
  have behind : input.drop stop = (input.drop start).drop (stop - start) := by
    rw [List.drop_drop, Nat.add_sub_cancel' order]
  rw [List.extract_eq_take_drop, behind, List.take_append_drop]

/-- In an input of less than 2^32 bytes, skipping ends at a position exactly if the bytes up to it
are derived, and at most one position is such. -/
theorem stopsAt_iff_announcedAt {input : Bytes} (short : input.length < 2 ^ 32) (tag : Tag)
    (start : Nat) :
    (∀ stop, Record.StopsAt input tag start stop ↔ AnnouncedAt input tag start stop) ∧
      ∀ stop other, AnnouncedAt input tag start stop → AnnouncedAt input tag start other →
        stop = other := by
  have stops (stop : Nat) :
      Record.StopsAt input tag start stop ↔ AnnouncedAt input tag start stop := by
    refine and_congr_right fun order => and_congr_right fun _ => ?_
    have shortBehind : (input.drop start).length < 2 ^ 32 :=
      Nat.lt_of_le_of_lt (List.drop_sublist _ _).length_le short
    rw [Record.exists_readValue_iff shortBehind, ← extract_append_drop order]
    constructor
    · rintro ⟨front, same, announced⟩
      exact List.append_cancel_right same ▸ announced
    · exact fun announced => ⟨_, rfl, announced⟩
  refine ⟨stops, fun stop other isStop isOther => ?_⟩
  rcases (stops stop).mpr isStop with ⟨-, inside, value, done⟩
  rcases (stops other).mpr isOther with ⟨-, otherInside, otherValue, otherDone⟩
  -- One reader of one input leaves one rest.
  have rests := congrArg (fun pair => pair.2.length) (Except.ok.inj (done.symm.trans otherDone))
  simp only [List.length_drop] at rests
  omega

/-- A group with number two that holds a group with number one, which holds a byte string with a
length in two digits, and a number in front of the next field. -/
theorem stopsAt_iff_announcedAt_group :
    AnnouncedAt [0x13, 0x0B, 0x0A, 0x81, 0x00, 0x07, 0x0C, 0x08, 0x05, 0x14, 0x18, 0x07]
        ⟨2, .startGroup⟩ 1 10 ∧
      ∀ other, AnnouncedAt [0x13, 0x0B, 0x0A, 0x81, 0x00, 0x07, 0x0C, 0x08, 0x05, 0x14, 0x18, 0x07]
        ⟨2, .startGroup⟩ 1 other → 10 = other := by
  have stops : Record.StopsAt
      [0x13, 0x0B, 0x0A, 0x81, 0x00, 0x07, 0x0C, 0x08, 0x05, 0x14, 0x18, 0x07]
      ⟨2, .startGroup⟩ 1 10 := ⟨by decide, by decide, none, by cbv⟩
  have here := ((stopsAt_iff_announcedAt (by decide) _ _).1 10).mp stops
  exact ⟨here, fun other => (stopsAt_iff_announcedAt (by decide) _ _).2 10 other here⟩

end SchemaRecords.Wire
