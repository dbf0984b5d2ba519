import SchemaRecords.Proofs.Outcome
import SchemaRecords.Proofs.Wire.WrittenRecords

/-!
# Bytes that a reader consumes

A reader takes something off the front of its bytes and leaves the rest.  More bytes behind the rest
make no difference to what it takes.  Where bytes are missing at the end, it either finds that the
input has come to its end too early, or what is missing is missing from the rest alone.  So a payload
can be taken apart into records that are each read alone, in front of whatever comes behind.

What a reader consumes is said in front of the rest that it has left, and not in front of any bytes:
from 2^32 on, a length has to be covered by bytes of which a reader takes only some, and then the
rest has to be there although it is left.

Both facts are proved together for each reader, because readers are built from one another by
sequencing, and sequencing keeps the two only together.
-/

namespace SchemaRecords.Wire

/-- The input has come to its end too early. -/
inductive Fault.IsCut : Fault → Prop
  | endOfInput : IsCut .endOfInput
  | lengthOutOfBounds {length remaining : Nat} (beyond : remaining < length) :
      IsCut (.lengthOutOfBounds length remaining)

/-- Bytes that a reader consumes in front of a rest, and what it makes of what stands behind them. -/
structure Consumes {α : Type} (reader : Bytes → Except Fault α) (front rest : Bytes)
    (result : Bytes → α) : Prop where
  whole : ∀ more, reader (front ++ (rest ++ more)) = .ok (result (rest ++ more))
  cut : ∀ part, part <+: front ++ rest →
    (∃ fault, reader part = .error fault ∧ fault.IsCut) ∨
      ∃ left, part = front ++ left ∧ reader part = .ok (result left)

namespace Consumes

variable {α β : Type} {front rest : Bytes}

/-- A reader that needs no bytes. -/
theorem nil {reader : Bytes → Except Fault α} {result : Bytes → α}
    (reads : ∀ bytes, reader bytes = .ok (result bytes)) : Consumes reader [] rest result where
  whole := fun more => reads (rest ++ more)
  cut := fun part _ => .inr ⟨part, rfl, reads part⟩

/-- One reader behind another consumes what the two consume. -/
theorem bind {first : Bytes → Except Fault (α × Bytes)} {value : α} {behind : Bytes}
    (one : Consumes first front (behind ++ rest) fun left => (value, left))
    (next : α → Bytes → Except Fault β) {result : Bytes → β}
    (other : Consumes (next value) behind rest result) {reader : Bytes → Except Fault β}
    (steps : ∀ bytes, reader bytes = (first bytes).bind fun pair => next pair.1 pair.2) :
    Consumes reader (front ++ behind) rest result where
  whole := by
    intro more
    have isFirst := one.whole more
    rw [List.append_assoc] at isFirst
    rw [steps, List.append_assoc, isFirst]
    exact other.whole more
  cut := by
    intro part isPart
    rw [List.append_assoc] at isPart
    rw [steps]
    rcases one.cut part isPart with ⟨fault, refused, isCut⟩ | ⟨left, rfl, isFirst⟩
    · rw [refused]
      exact .inl ⟨fault, rfl, isCut⟩
    · rw [isFirst]
      rcases other.cut left ((List.prefix_append_right_inj front).mp isPart) with
        refused | ⟨last, rfl, isOther⟩
      · exact .inl refused
      · exact .inr ⟨last, (List.append_assoc _ _ _).symm, isOther⟩

end Consumes

/-- Whatever a reader takes off the front of its bytes, it consumes the bytes in front of the rest. -/
def ReadsFront {α : Type} (reader : Bytes → Except Fault (α × Bytes)) : Prop :=
  ∀ bytes value rest, reader bytes = .ok (value, rest) →
    ∃ front, bytes = front ++ rest ∧ Consumes reader front rest fun left => (value, left)

namespace ReadsFront

variable {α β : Type} {first : Bytes → Except Fault (α × Bytes)}
  {reader : Bytes → Except Fault (β × Bytes)}

/-- More bytes at the end are left as they are. -/
theorem append (one : ReadsFront first) {bytes rest : Bytes} {value : α}
    (read : first bytes = .ok (value, rest)) (more : Bytes) :
    first (bytes ++ more) = .ok (value, rest ++ more) := by
  rcases one bytes value rest read with ⟨front, rfl, consumes⟩
  rw [List.append_assoc]
  exact consumes.whole more

theorem bind (one : ReadsFront first) (next : α → Bytes → Except Fault (β × Bytes))
    (other : ∀ value, ReadsFront (next value))
    (steps : ∀ bytes, reader bytes = (first bytes).bind fun pair => next pair.1 pair.2) :
    ReadsFront reader := by
  intro bytes result rest read
  rw [steps] at read
  cases isFirst : first bytes with
  | error fault =>
    rw [isFirst] at read
    cases read
  | ok pair =>
    rcases pair with ⟨value, after⟩
    rw [isFirst] at read
    rcases one bytes value after isFirst with ⟨front, same, consumes⟩
    rcases other value after result rest read with ⟨behind, rfl, goesOn⟩
    exact ⟨front ++ behind, by rw [same, List.append_assoc], consumes.bind next goesOn steps⟩

/-- A reader may change what it has read, or refuse it. -/
theorem map (one : ReadsFront first) (f : α → Except Fault β)
    (steps : ∀ bytes, reader bytes =
      (first bytes).bind fun pair => (f pair.1).map fun value => (value, pair.2)) :
    ReadsFront reader := by
  apply one.bind (fun value rest => (f value).map fun changed => (changed, rest)) ?_ steps
  intro value bytes result rest changed
  cases isChanged : f value with
  | error fault =>
    rw [isChanged] at changed
    cases changed
  | ok other =>
    rw [isChanged] at changed
    cases changed
    refine ⟨[], rfl, .nil fun left => ?_⟩
    rfl

end ReadsFront

/-- A front part of some bytes is shorter than their front, or goes on behind it. -/
theorem length_lt_or_exists_append {part front rest : Bytes} (isPart : part <+: front ++ rest) :
    part.length < front.length ∨ ∃ left, part = front ++ left := by
  rcases Nat.lt_or_ge part.length front.length with early | late
  · exact .inl early
  · rcases List.prefix_of_prefix_length_le (List.prefix_append front rest) isPart late with
      ⟨left, same⟩
    exact .inr ⟨left, same.symm⟩

/-! ## Numbers -/

/-- The last digit is the first byte. -/
theorem Varint.consumes_last {top size : Nat} {byte : UInt8} {rest : Bytes} {value : Nat}
    (isLast : ∀ left, readDigits top (size + 1) (byte :: left) = .ok (value, left)) :
    Consumes (readDigits top (size + 1)) [byte] rest fun left => (value, left) where
  whole := fun more => isLast (rest ++ more)
  cut := by
    intro part isPart
    cases part with
    | nil => exact .inl ⟨.endOfInput, by rw [readDigits], .endOfInput⟩
    | cons other left =>
      cases (List.cons_prefix_cons.mp isPart).1
      exact .inr ⟨left, rfl, isLast left⟩

/-- By induction on the digits that may still come. -/
theorem Varint.readsFront_readDigits (top size : Nat) : ReadsFront (readDigits top size) := by
  intro bytes value rest read
  fun_induction readDigits top size bytes generalizing value rest with
  | case1 => cases read
  | case2 => cases read
  | case3 byte tail small =>
    cases read
    exact ⟨[byte], rfl, consumes_last fun left => by simp only [readDigits, if_pos small]⟩
  | case4 => cases read
  | case5 size byte tail last =>
    cases read
    exact ⟨[byte], rfl, consumes_last fun left => by simp only [readDigits, if_pos last]⟩
  | case6 size byte tail more inner after recursive inductionHypothesis =>
    cases read
    rcases inductionHypothesis _ _ recursive with ⟨front, rfl, consumes⟩
    refine ⟨byte :: front, rfl, fun further => ?_, fun part isPart => ?_⟩
    · simp only [List.cons_append, readDigits, if_neg more, consumes.whole]
    · cases part with
      | nil => exact .inl ⟨.endOfInput, rfl, .endOfInput⟩
      | cons other part =>
        rcases List.cons_prefix_cons.mp isPart with ⟨rfl, isRest⟩
        simp only [readDigits, if_neg more]
        rcases consumes.cut part isRest with ⟨fault, refused, isCut⟩ | ⟨left, rfl, goesOn⟩
        · exact .inl ⟨fault, by rw [refused], isCut⟩
        · exact .inr ⟨left, rfl, by rw [goesOn]⟩
  | case7 => cases read

theorem Varint.readsFront (bound : Bound) : ReadsFront (read bound) :=
  readsFront_readDigits bound.top bound.size

/-! ## Blocks -/

theorem readsFront_readFixed (width : Nat) : ReadsFront (readFixed width) := by
  intro bytes value rest read
  unfold readFixed at read
  split at read
  · rename_i word after parts
    cases read
    rcases Bytes.splitAt?_eq_some_iff.mp parts with ⟨rfl, rfl⟩
    have isWord (left : Bytes) :
        readFixed word.length (word ++ left) = .ok (Bytes.ofLittleEndian word, left) := by
      simp only [readFixed, Bytes.splitAt?_append]
    refine ⟨word, rfl, fun more => isWord _, fun part isPart => ?_⟩
    rcases length_lt_or_exists_append isPart with early | ⟨left, rfl⟩
    · refine .inl ⟨.endOfInput, ?_, .endOfInput⟩
      simp only [readFixed, Bytes.splitAt?_of_lt early]
    · exact .inr ⟨left, rfl, isWord left⟩
  · cases read

/-- A part that does not cover the length is refused; all others begin with the content, since no
more than the length is taken. -/
theorem readsFront_readContent (length : Nat) : ReadsFront (readContent length) := by
  intro bytes content rest read
  rcases readContent_eq_ok_iff.mp read with ⟨rfl, inside, taken⟩
  have less := Nat.mod_le length (2 ^ 32)
  refine ⟨content, rfl, fun more => readContent_eq_ok_iff.mpr ⟨rfl, ?_, taken⟩,
    fun part isPart => ?_⟩
  · rw [← List.append_assoc, List.length_append]
    exact Nat.le_trans inside (Nat.le_add_right _ _)
  · rcases Nat.lt_or_ge part.length length with early | late
    · refine .inl ⟨_, ?_, .lengthOutOfBounds early⟩
      rw [readContent, if_neg (Nat.not_le.mpr early)]
    · rcases length_lt_or_exists_append isPart with short | ⟨left, rfl⟩
      · omega
      · exact .inr ⟨left, rfl, readContent_eq_ok_iff.mpr ⟨rfl, late, taken⟩⟩

theorem readsFront_readDelimited : ReadsFront readDelimited := by
  apply (Varint.readsFront .long).bind _ readsFront_readContent
  intro bytes
  unfold readDelimited
  cases Varint.read .long bytes <;> rfl

/-! ## Values and tags -/

theorem Value.readsFront (layout : Layout) : ReadsFront (read layout) := by
  cases layout with
  | varint =>
    apply (Varint.readsFront .long).map fun word => .ok (.varint (.ofNat word))
    intro bytes
    rw [read]
    cases Varint.read .long bytes <;> rfl
  | fixed64 =>
    apply (readsFront_readFixed 8).map fun word => .ok (.fixed64 (.ofNat word))
    intro bytes
    rw [read]
    cases readFixed 8 bytes <;> rfl
  | fixed32 =>
    apply (readsFront_readFixed 4).map fun word => .ok (.fixed32 (.ofNat word))
    intro bytes
    rw [read]
    cases readFixed 4 bytes <;> rfl
  | delimited =>
    apply readsFront_readDelimited.map fun content => .ok (.delimited content)
    intro bytes
    rw [read]
    cases readDelimited bytes <;> rfl

theorem Tag.readsFront : ReadsFront read := by
  apply (Varint.readsFront .short).map ofCode
  intro bytes
  unfold read
  cases Varint.read .short bytes with
  | error fault => rfl
  | ok pair =>
    dsimp only [Except.bind]
    cases ofCode pair.1 <;> rfl

/-! ## Groups -/

/-- What a tag inside of groups announces: the bytes behind the groups, the innermost first. -/
def closeBehind (number : Nat) (outer : List Nat) (tag : Tag) (rest : Bytes) :
    Except Fault Bytes :=
  match tag.kind with
  | .startGroup =>
    if (number :: outer).length < groupLimit then closeGroups (tag.number :: number :: outer) rest
    else .error .groupTooDeep
  | .endGroup =>
    if tag.number = number then closeGroups outer rest else .error (.unmatchedEnd tag.number)
  | .value layout =>
    (Value.read layout rest).bind fun pair => closeGroups (number :: outer) pair.2

theorem closeGroups_cons (number : Nat) (outer : List Nat) (bytes : Bytes) :
    closeGroups (number :: outer) bytes =
      (Tag.read bytes).bind fun pair => closeBehind number outer pair.1 pair.2 := by
  rw [closeGroups.eq_def]
  dsimp only
  split
  · rename_i fault refused
    rw [refused]
    rfl
  · rename_i tag rest isTag
    rw [isTag]
    dsimp only [Except.bind, closeBehind]
    cases tag.kind with
    | startGroup => rfl
    | endGroup => rfl
    | value layout =>
      dsimp only
      split
      · rename_i fault refused
        rw [refused]
      · rename_i value after isValue
        rw [isValue]

/-- Groups are closed by bytes of their own behind a tag, if that holds of the groups that are open
then. -/
theorem exists_consumed_closeBehind {number : Nat} {outer : List Nat} {tag : Tag}
    {bytes rest : Bytes} (closed : closeBehind number outer tag bytes = .ok rest)
    (nested : ∀ unclosed further, further.length ≤ bytes.length →
      closeGroups unclosed further = .ok rest →
        ∃ front, further = front ++ rest ∧
          Consumes (closeGroups unclosed) front rest fun left => left) :
    ∃ front, bytes = front ++ rest ∧
      Consumes (closeBehind number outer tag) front rest fun left => left := by
  unfold closeBehind at closed ⊢
  split at closed
  · split at closed
    · rename_i shallow
      simp only [if_pos shallow]
      exact nested _ bytes (Nat.le_refl _) closed
    · cases closed
  · split at closed
    · rename_i matching
      simp only [if_pos matching]
      exact nested _ bytes (Nat.le_refl _) closed
    · cases closed
  · rename_i layout _
    rcases Outcome.bind_eq_ok_iff.mp closed with ⟨⟨value, further⟩, content, closed⟩
    have shorter := Value.length_of_read content
    rcases Value.readsFront layout bytes value further content with ⟨front, same, consumes⟩
    rcases nested _ further (Nat.le_of_lt shorter) closed with ⟨behind, rfl, closes⟩
    exact ⟨front ++ behind, by rw [same, List.append_assoc],
      consumes.bind (fun _ => closeGroups (number :: outer)) closes fun _ => rfl⟩

/-- By induction on the bytes, of which every tag takes some. -/
theorem exists_consumed_closeGroups {unclosed : List Nat} {bytes rest : Bytes}
    (closed : closeGroups unclosed bytes = .ok rest) :
    ∃ front, bytes = front ++ rest ∧
      Consumes (closeGroups unclosed) front rest fun left => left := by
  induction size : bytes.length using Nat.strongRecOn generalizing unclosed bytes rest with
  | ind size inductionHypothesis =>
  cases unclosed with
  | nil =>
    have empty (bytes : Bytes) : closeGroups [] bytes = .ok bytes := by rw [closeGroups.eq_def]
    cases (empty bytes).symm.trans closed
    exact ⟨[], rfl, .nil empty⟩
  | cons number outer =>
    rw [closeGroups_cons] at closed
    rcases Outcome.bind_eq_ok_iff.mp closed with ⟨⟨tag, after⟩, isTag, closed⟩
    dsimp only at closed
    have shorter := Tag.length_of_read isTag
    rcases Tag.readsFront bytes tag after isTag with ⟨front, same, consumes⟩
    rcases exists_consumed_closeBehind closed fun unclosed further small closed =>
        inductionHypothesis further.length (by omega) closed rfl with
      ⟨behind, rfl, closes⟩
    exact ⟨front ++ behind, by rw [same, List.append_assoc],
      consumes.bind _ closes (closeGroups_cons number outer)⟩

/-! ## Records -/

namespace Record

theorem readsFront_readValue (tag : Tag) : ReadsFront (readValue tag) := by
  cases kind : tag.kind with
  | value layout =>
    apply (Value.readsFront layout).map fun value => .ok (some value)
    intro bytes
    simp only [readValue, kind]
    cases Value.read layout bytes <;> rfl
  | startGroup =>
    intro bytes value rest done
    simp only [readValue, kind] at done
    split at done
    · rename_i after closed
      cases done
      rcases exists_consumed_closeGroups closed with ⟨front, same, consumes⟩
      refine ⟨front, same, fun more => ?_, fun part isPart => ?_⟩
      · simp only [readValue, kind, consumes.whole]
      · simp only [readValue, kind]
        rcases consumes.cut part isPart with ⟨fault, refused, isCut⟩ | ⟨left, same, goesOn⟩
        · exact .inl ⟨fault, by rw [refused], isCut⟩
        · exact .inr ⟨left, same, by rw [goesOn]⟩
    · cases done
  | endGroup =>
    intro bytes value rest done
    simp only [readValue, kind] at done
    cases done

/-- What a tag announces, as a record. -/
theorem readsFront_record (tag : Tag) :
    ReadsFront fun bytes => (readValue tag bytes).bind fun pair =>
      (Except.ok ⟨tag.number, pair.1⟩ : Except Fault Record).map fun record => (record, pair.2) :=
  (readsFront_readValue tag).map (fun value => .ok ⟨tag.number, value⟩) fun _ => rfl

theorem readsFront : ReadsFront read := by
  apply Tag.readsFront.bind _ readsFront_record
  intro bytes
  unfold read
  cases Tag.read bytes with
  | error fault => rfl
  | ok pair =>
    dsimp only [Except.bind]
    cases readValue pair.1 pair.2 <;> rfl

/-! ## Payloads -/

theorem split_nil : split [] = ([], none) := by
  rw [split.eq_def]

/-- A payload behind bytes that are one record. -/
theorem split_record {block : Bytes} {record : Record} (isRecord : read block = .ok (record, []))
    (behind : Bytes) :
    split (block ++ behind) = (record :: (split behind).1, (split behind).2) :=
  split_of_read (readsFront.append isRecord behind)

/-- A payload of whole records in front of another payload. -/
theorem split_append {before : Bytes} (complete : (split before).2 = none) (behind : Bytes) :
    split (before ++ behind) = ((split before).1 ++ (split behind).1, (split behind).2) := by
  induction size : before.length using Nat.strongRecOn generalizing before with
  | ind size inductionHypothesis =>
  by_cases empty : before = []
  · subst empty
    rw [split_nil]
    rfl
  · cases isRead : read before with
    | error fault =>
      rw [split_of_refused empty isRead] at complete
      cases complete
    | ok pair =>
      rcases pair with ⟨record, rest⟩
      have shorter := length_of_read isRead
      rw [split_of_read isRead] at complete ⊢
      rw [split_of_read (readsFront.append isRead behind), inductionHypothesis rest.length (by omega) complete rfl]
      rfl

end Record
end SchemaRecords.Wire
