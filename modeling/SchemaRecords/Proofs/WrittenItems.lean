import SchemaRecords.Proofs.Wire.ReadVarints
import SchemaRecords.Proofs.Wire.WrittenRecords
import SchemaRecords.Wire.Item

/-!
# Tags and values in a row are read back

Every item delimits itself: whatever stands behind it, the call that matches it takes exactly its
bytes.  So items that were written one after the other are read back one after the other, and the
reader then stands where the writer stopped.

For numbers there is more to say, since a reader accepts superfluous digits.  What is written for a
number, by the writer or pushed onto a buffer, is shorter than anything else that is accepted for it,
and it is never the beginning of what is written for another number.
-/

namespace SchemaRecords.Wire

/-! ## Single items -/

/-- An item that can be read back: its number fits into a tag, its length into 32 bits. -/
def Item.Legal : Item → Prop
  | .tag mark => IsNumber mark.number
  | .value content => content.Fits

/-- The byte string that an item holds; other items hold none. -/
def Item.content : Item → Bytes
  | .value (.delimited content) => content
  | _ => []

theorem Item.legal_value {content : Value}
    (short : (Item.value content).content.length < 2 ^ 32) : (Item.value content).Legal := by
  cases content with
  | delimited bytes => exact short
  | _ => trivial

/-- The call that matches an item takes its bytes and no others. -/
theorem Call.read_encode {item : Item} (legal : item.Legal) (rest : Bytes) :
    item.call.read (item.encode ++ rest) = .ok (item, rest) := by
  cases item with
  | tag mark =>
    have front := Tag.read_encode legal mark.kind rest
    simp only [Item.call, Item.encode, read, front]
  | value content =>
    have front := Value.read_encode legal rest
    simp only [Item.call, Item.encode, read, front]

/-! ## Rows of items -/

theorem Item.writeAll_eq (buffer : Bytes) (items : List Item) :
    writeAll buffer items = buffer ++ items.flatMap encode := by
  induction items generalizing buffer with
  | nil => exact (List.append_nil buffer).symm
  | cons item rest inductionHypothesis =>
    rw [List.flatMap_cons, ← List.append_assoc]
    exact inductionHypothesis (write buffer item)

/-- By induction on the items, each of which is followed by the bytes of the later ones. -/
theorem Call.readAll_encode {items : List Item} (legal : ∀ item ∈ items, item.Legal)
    (behind : Bytes) :
    readAll (items.map Item.call) (items.flatMap Item.encode ++ behind) = .ok (items, behind) := by
  induction items with
  | nil => rfl
  | cons item rest inductionHypothesis =>
    rcases List.forall_mem_cons.mp legal with ⟨first, others⟩
    have front := read_encode first (rest.flatMap Item.encode ++ behind)
    simp only [List.map_cons, List.flatMap_cons, List.append_assoc, readAll, front,
      inductionHypothesis others]

theorem Item.legal_of_total {items : List Item}
    (numbers : ∀ mark, Item.tag mark ∈ items → IsNumber mark.number)
    (short : (items.flatMap Item.content).length < 2 ^ 32) : ∀ item ∈ items, item.Legal := by
  intro item member
  cases item with
  | tag mark => exact numbers mark member
  | value content =>
    have part : (Item.value content).content.length ≤ (items.flatMap Item.content).length :=
      (List.sublist_flatten_of_mem (List.mem_map_of_mem member)).length_le
    exact legal_value (Nat.lt_of_le_of_lt part short)

/-! ## Numbers -/

theorem Varint.push_nil (word : UInt64) : push [] word = encode word.toNat := push_eq [] word

/-- What is read as a word is what would be pushed for it, or longer. -/
theorem Varint.eq_push_or_longer {word : UInt64} {digits : Bytes}
    (accepted : Value.read .varint digits = .ok (.varint word, [])) :
    digits = push [] word ∨ (push [] word).length < digits.length := by
  simp only [Value.read] at accepted
  split at accepted
  · rename_i number rest isNumber
    cases accepted
    rcases exists_digits_of_read isNumber with ⟨front, same, fits, spelled⟩
    have whole : digits = front := by rw [same, List.append_nil]
    have word : (UInt64.ofNat number).toNat = number := UInt64.toNat_ofNat_of_lt' fits
    rw [push_nil, word, whole]
    exact spelled
  · cases accepted

/-! ## Writing and reading -/

/-- Whatever items are appended to a buffer, the matching calls read them back and leave exactly the
bytes behind them, so that the input ends there if nothing is behind.  A pushed number has the bytes
of a written one, all else that is read as the number is longer, and no number is written as the
beginning of another. -/
theorem readAll_writeAll :
    (∀ items : List Item, (∀ mark, .tag mark ∈ items → IsNumber mark.number) →
      (items.flatMap Item.content).length < 2 ^ 32 →
      ∀ buffer behind, ∃ written, Item.writeAll buffer items = buffer ++ written ∧
        Call.readAll (items.map Item.call) (written ++ behind) = .ok (items, behind)) ∧
    (∀ buffer word, Varint.push buffer word = Item.write buffer (.value (.varint word))) ∧
    (∀ word digits, Value.read .varint digits = .ok (.varint word, []) →
      digits = Varint.push [] word ∨ (Varint.push [] word).length < digits.length) ∧
    ∀ word other, Varint.push [] word <+: Varint.push [] other → word = other := by
  refine ⟨fun items numbers short buffer behind => ?_, Varint.push_eq,
    fun word digits => Varint.eq_push_or_longer, fun word other begins => ?_⟩
  · exact ⟨items.flatMap Item.encode, Item.writeAll_eq buffer items,
      Call.readAll_encode (Item.legal_of_total numbers short) behind⟩
  · rw [Varint.push_nil, Varint.push_nil] at begins
    exact UInt64.toNat_inj.mp (Varint.eq_of_encode_prefix word.toNat_lt other.toNat_lt begins)

/-- The greatest number of a field in front of a group, the greatest word, a byte string and two fixed
words; three hundred with a superfluous digit; and three hundred beside itself. -/
theorem readAll_writeAll_greatest :
    (∃ written, Item.writeAll [9] [.tag ⟨536870911, .startGroup⟩,
          .value (.varint 0xFFFFFFFFFFFFFFFF), .value (.delimited [7, 8]), .value (.fixed32 5),
          .value (.fixed64 6)] = [9] ++ written ∧
        Call.readAll [.tag, .value .varint, .value .delimited, .value .fixed32, .value .fixed64]
            (written ++ [3]) =
          .ok ([.tag ⟨536870911, .startGroup⟩, .value (.varint 0xFFFFFFFFFFFFFFFF),
            .value (.delimited [7, 8]), .value (.fixed32 5), .value (.fixed64 6)], [3])) ∧
      Value.read .varint [0xAC, 0x82, 0x00] = .ok (.varint 300, []) ∧
      ([0xAC, 0x82, 0x00] = Varint.push [] 300 ∨
        (Varint.push [] 300).length < [0xAC, 0x82, 0x00].length) ∧
      Varint.push [] 300 = Item.write [] (.value (.varint 300)) ∧ (300 : UInt64) = 300 := by
  have accepted : Value.read .varint [0xAC, 0x82, 0x00] = .ok (.varint 300, []) := rfl
  refine ⟨readAll_writeAll.1 _ ?_ (by decide) [9] [3], accepted,
    readAll_writeAll.2.2.1 300 _ accepted, readAll_writeAll.2.1 [] 300,
    readAll_writeAll.2.2.2 300 300 List.prefix_rfl⟩
  intro mark member
  simp only [List.mem_cons, Item.tag.injEq, reduceCtorEq, List.not_mem_nil, or_false] at member
  rw [member]
  exact ⟨by decide, by decide⟩

end SchemaRecords.Wire
