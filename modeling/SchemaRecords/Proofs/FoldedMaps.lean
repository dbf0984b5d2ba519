import SchemaRecords.Proofs.Payload.ListedDecoding
import SchemaRecords.Proofs.Schema.GivenCharacters
import SchemaRecords.Proofs.Schema.LinkedUnits

/-!
# Maps are lists of their entries

A map field is written like a repeated field of messages with a key and a value, and a schema may
declare it as that.  A payload that both schemas decode shows the same then: the list that one shows
is folded from left to right into the map that the other shows.  That goes for several maps at once,
and for maps inside of the messages in maps.

There is one exception.  The records of a single message are joined, but of the messages that one
entry gives as its value the last one is taken alone.  So the two part ways where an entry gives its
message more than once.
-/

namespace SchemaRecords

open Schema Payload

/-- Whatever was registered in two pools of which one lists maps of the other, a payload that both
decode has documents of which one is folded to the other, unless an entry gives its message more
than once. -/
theorem decode_listed (attempts variantAttempts : List (String × String)) {relocation : Relocation}
    (listed : (Pool.registerAll attempts).Listed relocation (.registerAll variantAttempts))
    {name : String} {message : Message}
    (found : (Pool.registerAll attempts).findMessage? name = some message) {options : Options}
    (own : OwnKeys (.registerAll attempts) options message) {payload : Bytes}
    (once : ValuesOnce (.registerAll attempts) (message, payload))
    {document listedDocument : Json.Value}
    (decoded : decode (.registerAll attempts) options name payload = .ok document)
    (listedDecoded : decode (.registerAll variantAttempts) options name payload =
      .ok listedDocument) :
    document = foldDocument (.registerAll attempts) options message listedDocument := by
  have wellFormed := Pool.wellFormed_registerAll attempts
  have variantWellFormed := Pool.wellFormed_registerAll variantAttempts
  rcases wellFormed.exists_of_findMessage? found with ⟨id, there, notEntry⟩
  rcases listed.exists_findMessage? wellFormed variantWellFormed found there notEntry with
    ⟨other, otherFound, otherThere, _⟩
  simp only [decode, found] at decoded
  simp only [decode, otherFound] at listedDecoded
  rw [foldDocument, wellFormed.places id message there]
  exact foldOf_of_decodeWithin wellFormed variantWellFormed listed there notEntry otherThere
    ⟨own, once⟩ decoded listedDecoded

/-- A schema with a map of messages. -/
def chartAttempts : List (String × String) :=
  [("chart.proto", "syntax=\"proto3\";message Point\x7bint32 x=1;int32 y=2;\x7d"
    ++ "message Chart\x7bmap<string,Point> points=1;\x7d")]

/-- The same schema with a list in place of the map. -/
def listedChartAttempts : List (String × String) :=
  [("chart.proto", "syntax=\"proto3\";message Entry\x7bstring key=1;Point value=2;\x7d"
    ++ "message Point\x7bint32 x=1;int32 y=2;\x7dmessage Chart\x7brepeated Entry points=1;\x7d")]

/-- The entry comes first where it is declared. -/
def chartRelocation : Relocation :=
  ⟨fun id => if id.index = 2 then ⟨0⟩ else ⟨id.index + 1⟩, id, id⟩

/-- Four entries: one of a key that comes again, one without a value and one without a key. -/
def chartPayload : Bytes :=
  [10, 7, 10, 1, 97, 18, 2, 8, 1, 10, 3, 10, 1, 98, 10, 7, 10, 1, 97, 18, 2, 16, 2,
    10, 4, 18, 2, 16, 3]

/-- An entry that gives its point twice, each time with one of the coordinates. -/
def splitChartPayload : Bytes := [10, 11, 10, 1, 97, 18, 2, 8, 1, 18, 2, 16, 2]

/-- The map of the entries. -/
def chartText : String :=
  "\x7b\"points\":\x7b\"a\":\x7b\"y\":2\x7d,\"b\":\x7b\x7d,\"\":\x7b\"y\":3\x7d\x7d\x7d"

/-- The list of the entries. -/
def listedChartText : String :=
  "\x7b\"points\":[\x7b\"key\":\"a\",\"value\":\x7b\"x\":1\x7d\x7d,\x7b\"key\":\"b\"\x7d,"
    ++ "\x7b\"key\":\"a\",\"value\":\x7b\"y\":2\x7d\x7d,"
    ++ "\x7b\"value\":\x7b\"y\":3\x7d\x7d]\x7d"

/-- The descriptors of the schema, those of the other one beside them, and that no entry of the
first payload has two values. -/
theorem chart_descriptors :
    (Pool.registerAll chartAttempts).enumerations = [] ∧
    (∀ message ∈ (Pool.registerAll chartAttempts).messages,
      ((Pool.registerAll listedChartAttempts).message? (chartRelocation.message message.id)).map
        (fun other => decide (
          List.Forall₂ (Field.Listed chartRelocation) message.fields other.fields ∧
          (message.isMapEntry = false →
            other.isMapEntry = false ∧ other.fullName = message.fullName))) = some true) ∧
    ((Pool.registerAll chartAttempts).findMessage? "Chart").map (fun message =>
        (message.isMapEntry, message.fields.map fun field => (field.number, field.shape))) =
      some (false, [(1, .map ⟨2⟩)]) ∧
    ((Pool.registerAll chartAttempts).message? ⟨2⟩).map (fun message =>
        (message.isMapEntry, message.fields)) =
      some (true, [.entryKey .string, .entryValue (.message ⟨0⟩)]) ∧
    ((Pool.registerAll chartAttempts).message? ⟨0⟩).map (fun message =>
        (message.isMapEntry, message.fields.map (·.shape))) =
      some (false, [.singular (.scalar .int32) false, .singular (.scalar .int32) false]) ∧
    ∀ content ∈ contentsNumbered 1 chartPayload, (contentsNumbered 2 content).length ≤ 1 := by
  rw [chartAttempts, listedChartAttempts, ← String.ofList_append, ← String.ofList_append,
    Pool.registerAll_ofList, Pool.registerAll_ofList]
  decide +kernel

/-- What either schema shows of both payloads, and the fold of the second list. -/
theorem chart_documents :
    (decode (.registerAll chartAttempts) .plain "Chart" chartPayload).toOption.map (·.text) =
      some chartText ∧
    (decode (.registerAll listedChartAttempts) .plain "Chart" chartPayload).toOption.map (·.text) =
      some listedChartText ∧
    (decode (.registerAll chartAttempts) .plain "Chart" splitChartPayload).toOption.map (·.text) =
      some "\x7b\"points\":\x7b\"a\":\x7b\"y\":2\x7d\x7d\x7d" ∧
    (decode (.registerAll listedChartAttempts) .plain "Chart" splitChartPayload).toOption.map
        (fun listedDocument => (listedDocument.text,
          ((Pool.registerAll chartAttempts).findMessage? "Chart").map fun chart =>
            (foldDocument (.registerAll chartAttempts) .plain chart listedDocument).text)) =
      some ("\x7b\"points\":[\x7b\"key\":\"a\",\"value\":\x7b\"x\":1,\"y\":2\x7d\x7d]\x7d",
        some "\x7b\"points\":\x7b\"a\":\x7b\"x\":1,\"y\":2\x7d\x7d\x7d") := by
  rw [chartAttempts, listedChartAttempts, ← String.ofList_append, ← String.ofList_append,
    Pool.registerAll_ofList, Pool.registerAll_ofList]
  decide +kernel

theorem chart_listed :
    (Pool.registerAll chartAttempts).Listed chartRelocation (.registerAll listedChartAttempts) := by
  rcases chart_descriptors with ⟨noEnumerations, listed, _⟩
  constructor
  · intro message member
    rcases Option.map_eq_some_iff.mp (listed message member) with ⟨other, found, isListed⟩
    rcases of_decide_eq_true isListed with ⟨fields, named⟩
    exact ⟨other, found, fields, named⟩
  · intro id enumeration found
    have member := List.mem_of_getElem? found
    rw [noEnumerations] at member
    cases member

/-- None of the entries gives its point twice. -/
theorem chart_valuesOnce {chart : Message}
    (found : (Pool.registerAll chartAttempts).findMessage? "Chart" = some chart) :
    ValuesOnce (.registerAll chartAttempts) (chart, chartPayload) := by
  rcases chart_descriptors with ⟨_, _, isChart, isEntry, isPoint, once⟩
  rw [found] at isChart
  rcases Prod.mk.inj (Option.some.inj isChart) with ⟨notEntry, fields⟩
  rcases List.map_eq_singleton_iff.mp fields with ⟨points, isPoints, facts⟩
  rcases Prod.mk.inj facts with ⟨number, shape⟩
  refine .of_parts (fun isEntry => absurd isEntry (by rw [notEntry]; exact Bool.false_ne_true))
    fun inner holds => ?_
  cases holds with
  | element _ member shape' =>
    rw [isPoints, List.mem_singleton] at member
    cases (member ▸ shape').symm.trans shape
  | joined _ member shape' =>
    rw [isPoints, List.mem_singleton] at member
    cases (member ▸ shape').symm.trans shape
  | value isEntry => cases notEntry.symm.trans isEntry
  | entry _ member shape' entryFound there =>
    rw [isPoints, List.mem_singleton] at member
    subst member
    cases shape'.symm.trans shape
    rw [entryFound] at isEntry
    rcases Prod.mk.inj (Option.some.inj isEntry) with ⟨isMapEntry, entryFields⟩
    rw [number] at there
    refine .of_parts (fun _ => once _ there) fun inner holds => ?_
    cases holds with
    | element notEntry => cases notEntry.symm.trans isMapEntry
    | entry notEntry => cases notEntry.symm.trans isMapEntry
    | joined notEntry => cases notEntry.symm.trans isMapEntry
    | value _ valueFields pointFound =>
      cases (List.cons.inj (List.cons.inj (valueFields.symm.trans entryFields)).2).1
      rw [pointFound] at isPoint
      rcases Prod.mk.inj (Option.some.inj isPoint) with ⟨notEntry, shapes⟩
      refine .of_parts (fun isEntry => by cases notEntry.symm.trans isEntry) fun inner holds =>
        absurd holds (not_holds_of_simple (fun field member => ?_) inner)
      have isShape : field.shape ∈ _ := shapes ▸ List.mem_map_of_mem member
      rcases List.mem_pair.mp isShape with shape | shape
      · exact ⟨_, _, shape, rfl⟩
      · exact ⟨_, _, shape, rfl⟩

theorem decode_listed_chart :
    ∃ chart document listedDocument,
      (Pool.registerAll chartAttempts).findMessage? "Chart" = some chart ∧
      decode (.registerAll chartAttempts) .plain "Chart" chartPayload = .ok document ∧
      document.text = chartText ∧
      decode (.registerAll listedChartAttempts) .plain "Chart" chartPayload = .ok listedDocument ∧
      listedDocument.text = listedChartText ∧
      document = foldDocument (.registerAll chartAttempts) .plain chart listedDocument := by
  rcases chart_documents with ⟨isShown, isListed, _⟩
  rcases Option.map_eq_some_iff.mp chart_descriptors.2.2.1 with ⟨chart, found, _⟩
  rcases Option.map_eq_some_iff.mp isShown with ⟨document, isDocument, text⟩
  rcases Option.map_eq_some_iff.mp isListed with ⟨listedDocument, isListedDocument, listedText⟩
  have decoded := Outcome.toOption_eq_some_iff.mp isDocument
  have listedDecoded := Outcome.toOption_eq_some_iff.mp isListedDocument
  exact ⟨chart, document, listedDocument, found, decoded, text, listedDecoded, listedText,
    decode_listed chartAttempts listedChartAttempts chart_listed found
      (fun other _ field _ => .plain other field) (chart_valuesOnce found) decoded listedDecoded⟩

/-- The map shows the last point of such an entry, and the list what both of them make up. -/
theorem decode_listed_split :
    ∃ document listedDocument,
      decode (.registerAll chartAttempts) .plain "Chart" splitChartPayload = .ok document ∧
      document.text = "\x7b\"points\":\x7b\"a\":\x7b\"y\":2\x7d\x7d\x7d" ∧
      decode (.registerAll listedChartAttempts) .plain "Chart" splitChartPayload =
        .ok listedDocument ∧
      listedDocument.text =
        "\x7b\"points\":[\x7b\"key\":\"a\",\"value\":\x7b\"x\":1,\"y\":2\x7d\x7d]\x7d" ∧
      ∃ chart, (Pool.registerAll chartAttempts).findMessage? "Chart" = some chart ∧
        document ≠ foldDocument (.registerAll chartAttempts) .plain chart listedDocument := by
  rcases chart_documents with ⟨_, _, isShown, isListed⟩
  rcases Option.map_eq_some_iff.mp isShown with ⟨document, isDocument, text⟩
  rcases Option.map_eq_some_iff.mp isListed with ⟨listedDocument, isListedDocument, both⟩
  rcases Prod.mk.inj both with ⟨listedText, folded⟩
  rcases Option.map_eq_some_iff.mp folded with ⟨chart, found, foldedText⟩
  refine ⟨document, listedDocument, Outcome.toOption_eq_some_iff.mp isDocument, text,
    Outcome.toOption_eq_some_iff.mp isListedDocument, listedText, chart, found, fun same => ?_⟩
  rw [← same, text] at foldedText
  exact absurd foldedText (by decide)

end SchemaRecords
