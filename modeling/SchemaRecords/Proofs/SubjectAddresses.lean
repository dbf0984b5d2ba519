import SchemaRecords.Proofs.Outcome
import SchemaRecords.Proofs.Url.EncodedSegments

/-!
# Addresses of subjects

A version of a subject is asked for at an address of its own: below the path of the registry stand
four segments, of which the second is the subject in its percent-encoding.  Subjects come from the
references of other schemas and can be any text, so it matters that no two of them share an address.

Two kinds of subjects do.  The dots that would mean another path are left out, and blanks that are
passed over in a URL are passed over in a subject, before it is encoded.  All other subjects are plain,
and the addresses of plain subjects differ as soon as the subjects or the versions do.
-/

namespace SchemaRecords

namespace Url

open Text

/-- A text that becomes a segment as it is: no dots that mean another path, and nothing that is passed
over. -/
structure PlainSegment (segment : String) : Prop where
  noDot : segment ≠ "."
  noDots : segment ≠ ".."
  kept : ∀ c ∈ segment.toList, isIgnored c = false

/-- The path below which segments are added. -/
def stem (url : Url) : List (List Char) :=
  if url.dropEmptyEnd.path = [[]] then [] else url.dropEmptyEnd.path

/-- A plain segment is added in its encoding. -/
theorem addSegment_plain {segment : String} (plain : PlainSegment segment) (url : Url) :
    url.addSegment segment =
      { url with
        path := (if url.path = [[]] then [] else url.path) ++
          [percentEncode (segmentSet url.isSpecial) segment.toList] } := by
  have kept : (segment.toList.filter fun c => !isIgnored c) = segment.toList := by
    rw [List.filter_eq_self]
    intro c member
    rw [plain.kept c member]
    rfl
  have noDot : segment.toList ≠ ['.'] := fun same => plain.noDot (String.toList_inj.mp same)
  have noDots : segment.toList ≠ ['.', '.'] := fun same => plain.noDots (String.toList_inj.mp same)
  rw [addSegment, if_neg (not_or.mpr ⟨plain.noDot, plain.noDots⟩), kept]
  dsimp only
  rw [follow, if_neg (Bool.eq_false_iff.mp (isDoubleDot_percentEncode noDots)),
    if_neg (Bool.eq_false_iff.mp (isSingleDot_percentEncode noDot))]

/-- Behind a path that is more than a slash, a plain segment is appended. -/
theorem addSegment_behind {segment : String} (plain : PlainSegment segment) (url : Url)
    {path : List (List Char)} (more : path ≠ [[]]) :
    { url with path }.addSegment segment =
      { url with path := path ++ [percentEncode (segmentSet url.isSpecial) segment.toList] } := by
  rw [addSegment_plain plain]
  dsimp only
  rw [if_neg more]
  rfl

/-- The first plain segment is added below the stem. -/
theorem addSegment_dropEmptyEnd {segment : String} (plain : PlainSegment segment) (url : Url) :
    url.dropEmptyEnd.addSegment segment =
      { url with path := url.stem ++ [percentEncode (segmentSet url.isSpecial) segment.toList] } := by
  have rest : url.dropEmptyEnd = { url with path := url.dropEmptyEnd.path } := by
    unfold dropEmptyEnd
    split <;> rfl
  rw [addSegment_plain plain, stem, rest]
  rfl

/-! ## Numerals -/

theorem mem_ofInt {value : Int} {c : Char} (member : c ∈ Number.Numeral.ofInt value) :
    c ∈ "-0123456789".toList := by
  cases value with
  | ofNat value => exact List.mem_cons_of_mem _ (Number.Numeral.mem_ofNat member)
  | negSucc value =>
    rcases List.mem_cons.mp member with minus | digit
    · exact minus ▸ List.mem_cons_self
    · exact List.mem_cons_of_mem _ (Number.Numeral.mem_ofNat digit)

/-- The segment of a version. -/
theorem plainSegment_ofInt (value : Int) :
    PlainSegment (String.ofList (Number.Numeral.ofInt value)) := by
  have noDot : '.' ∉ Number.Numeral.ofInt value := fun member => absurd (mem_ofInt member) (by decide)
  have words {word : String} (dot : '.' ∈ word.toList) :
      String.ofList (Number.Numeral.ofInt value) ≠ word := by
    rintro rfl
    rw [String.toList_ofList] at dot
    exact noDot dot
  refine ⟨words (by decide), words (by decide), fun c member => ?_⟩
  rw [String.toList_ofList] at member
  exact eq_false_of_any (by decide) (mem_ofInt member)

theorem segmentSet_of_mem_ofInt {value : Int} {c : Char} (special : Bool)
    (member : c ∈ Number.Numeral.ofInt value) : segmentSet special c = false := by
  have nowhere : ∀ special, "-0123456789".toList.any (segmentSet special) = false := by decide
  exact eq_false_of_any (nowhere special) (mem_ofInt member)

theorem ofInt_injective {first second : Int}
    (same : Number.Numeral.ofInt first = Number.Numeral.ofInt second) : first = second := by
  have read (value : Int) {limit : Nat} (first : value.natAbs ≤ limit) :
      Number.Numeral.readInt limit (Number.Numeral.ofInt value) = .ok value :=
    Number.Numeral.readInt_ofInt (by omega) (by omega)
  have isFirst := read first (Nat.le_max_left first.natAbs second.natAbs)
  rw [same, read second (Nat.le_max_right _ _)] at isFirst
  exact (Except.ok.inj isFirst).symm

/-! ## Addresses -/

/-- The four segments of a version of a subject. -/
def versionSegments (special : Bool) (subject : String) (version : Int) : List (List Char) :=
  ["subjects".toList, percentEncode (segmentSet special) subject.toList, "versions".toList,
    Number.Numeral.ofInt version]

/-- A version of a plain subject is asked for behind four segments below the stem. -/
theorem addSegments_version {subject : String} (plain : PlainSegment subject) (url : Url)
    (version : Int) :
    url.addSegments (Registry.Client.segments (.byVersion subject version)) =
      { url with path := url.stem ++ versionSegments url.isSpecial subject version } := by
  have front : PlainSegment "subjects" := ⟨by decide, by decide, fun _ => eq_false_of_any (by decide)⟩
  have middle : PlainSegment "versions" := ⟨by decide, by decide, fun _ => eq_false_of_any (by decide)⟩
  have numeral := plainSegment_ofInt version
  have frontEncoded : ∀ special,
      percentEncode (segmentSet special) "subjects".toList = "subjects".toList := by decide
  have middleEncoded : ∀ special,
      percentEncode (segmentSet special) "versions".toList = "versions".toList := by decide
  have numeralEncoded : percentEncode (segmentSet url.isSpecial)
      (String.ofList (Number.Numeral.ofInt version)).toList = Number.Numeral.ofInt version := by
    rw [String.toList_ofList]
    exact percentEncode_eq_self fun c member => segmentSet_of_mem_ofInt _ member
  have one (path : List (List Char)) : path ++ ["subjects".toList] ≠ [[]] := by
    intro same
    exact absurd (List.append_eq_singleton_iff.mp same) (by simp)
  have more (path : List (List Char)) (first second : List Char) :
      path ++ [first] ++ [second] ≠ [[]] := by
    intro same
    have lengths := congrArg List.length same
    simp only [List.length_append, List.length_singleton] at lengths
    omega
  simp only [addSegments, Registry.Client.segments, List.foldl_cons, List.foldl_nil]
  rw [addSegment_dropEmptyEnd front, frontEncoded, addSegment_behind plain _ (one _),
    addSegment_behind middle _ (more _ _ _), middleEncoded,
    addSegment_behind numeral _ (more _ _ _), numeralEncoded]
  simp only [versionSegments, List.append_assoc, List.cons_append, List.nil_append]

/-! ## Different addresses -/

/-- A path of segments without slashes is taken apart at its slashes. -/
theorem splitAtChar_flatMap {separator : Char} {segments : List (List Char)}
    (inner : ∀ segment ∈ segments, separator ∉ segment) :
    splitAtChar separator (segments.flatMap (separator :: ·)) = [] :: segments := by
  induction segments with
  | nil => rfl
  | cons segment segments inductionHypothesis =>
    rw [List.forall_mem_cons] at inner
    have later := inductionHypothesis inner.2
    rw [List.flatMap_cons, List.cons_append, splitAtChar, if_pos rfl]
    have behind (part : List Char) (free : separator ∉ part) :
        splitAtChar separator (part ++ segments.flatMap (separator :: ·)) = part :: segments := by
      induction part with
      | nil => exact later
      | cons c part inductionHypothesis =>
        rw [List.mem_cons, not_or] at free
        rw [List.cons_append, splitAtChar, if_neg (Ne.symm free.1), inductionHypothesis free.2]
    rw [behind segment inner.1]

theorem flatMap_cons_injective {separator : Char} {first second : List (List Char)}
    (isFirst : ∀ segment ∈ first, separator ∉ segment)
    (isSecond : ∀ segment ∈ second, separator ∉ segment)
    (same : first.flatMap (separator :: ·) = second.flatMap (separator :: ·)) : first = second := by
  have split := congrArg (splitAtChar separator) same
  rw [splitAtChar_flatMap isFirst, splitAtChar_flatMap isSecond] at split
  exact (List.cons.inj split).2

theorem slash_notMem_versionSegments (special : Bool) (subject : String) (version : Int) :
    ∀ segment ∈ versionSegments special subject version, '/' ∉ segment := by
  have encoded : '/' ∉ percentEncode (segmentSet special) subject.toList := fun member =>
    absurd (endsAuthority_of_mem_percentEncode member) (by cases special <;> decide)
  have numeral : '/' ∉ Number.Numeral.ofInt version := fun member =>
    absurd (mem_ofInt member) (by decide)
  simp only [versionSegments, List.forall_mem_cons]
  exact ⟨by decide, encoded, by decide, numeral, List.forall_mem_nil _⟩

/-- The text of a path ends in the texts of its segments, and what is in front of them depends only on
the segments up to there. -/
theorem exists_renderPath (hasAuthority : Bool) (stem : List (List Char)) (head : List Char) :
    ∃ front, ∀ next more, renderPath hasAuthority (stem ++ head :: next :: more) =
      front ++ (next :: more).flatMap ('/' :: ·) := by
  have whole (next : List Char) (more : List (List Char)) :
      (stem ++ head :: next :: more).flatMap ('/' :: ·) =
        (stem ++ [head]).flatMap ('/' :: ·) ++ (next :: more).flatMap ('/' :: ·) := by
    rw [← List.flatMap_append, List.append_assoc, List.cons_append, List.nil_append]
  -- Two slashes in front are kept apart exactly if the first segment is empty.
  by_cases apart : hasAuthority = false ∧ (stem ++ [head]).head? = some []
  · refine ⟨['/', '.'] ++ (stem ++ [head]).flatMap ('/' :: ·), fun next more => ?_⟩
    rw [List.append_assoc, ← whole]
    rcases apart with ⟨rfl, isEmpty⟩
    cases stem with
    | nil =>
      cases Option.some.inj isEmpty
      rfl
    | cons first stem =>
      cases Option.some.inj isEmpty
      cases stem <;> rfl
  · refine ⟨(stem ++ [head]).flatMap ('/' :: ·), fun next more => ?_⟩
    rw [← whole]
    unfold renderPath
    split
    · rename_i second others same
      refine absurd ⟨rfl, ?_⟩ apart
      cases stem with
      | nil => exact congrArg some (List.cons.inj same).1
      | cons first stem => exact congrArg some (List.cons.inj same).1
    · rfl

/-- The segments behind a common part of the path are found in the text of a URL. -/
theorem flatMap_eq_of_text_eq {url : Url} {stem firstMore secondMore : List (List Char)}
    {head first second : List Char}
    (same : { url with path := stem ++ head :: first :: firstMore }.text =
      { url with path := stem ++ head :: second :: secondMore }.text) :
    (first :: firstMore).flatMap ('/' :: ·) = (second :: secondMore).flatMap ('/' :: ·) := by
  rcases exists_renderPath url.authority.isSome stem head with ⟨front, paths⟩
  have rendered := String.ofList_injective same
  simp only [render, paths, List.append_assoc] at rendered
  simpa only [List.append_cancel_left_eq, List.append_cancel_right_eq, ← List.append_assoc]
    using rendered

/-! ## Subjects that are not plain -/

/-- A blank behind a text that is no dot segment, and none with it, changes nothing. -/
theorem addSegment_push_tab {segment : String} (noDot : segment ≠ ".") (noDots : segment ≠ "..")
    (url : Url) : url.addSegment (segment.push '\t') = url.addSegment segment := by
  have ends {word : String} (other : '\t' ∉ word.toList) : segment.push '\t' ≠ word := by
    rintro rfl
    rw [String.toList_push] at other
    exact other (List.mem_append_right _ List.mem_cons_self)
  have passed : ((segment.push '\t').toList.filter fun c => !isIgnored c) =
      segment.toList.filter fun c => !isIgnored c := by
    rw [String.toList_push, List.filter_append, List.filter_cons_of_neg (by decide), List.filter_nil,
      List.append_nil]
  rw [addSegment, addSegment, if_neg (not_or.mpr ⟨ends (by decide), ends (by decide)⟩),
    if_neg (not_or.mpr ⟨noDot, noDots⟩), passed]

/-- A text that is not plain is added just as some other text is. -/
theorem exists_addSegment_eq {segment : String} (notPlain : ¬ PlainSegment segment) :
    ∃ other, other ≠ segment ∧ ∀ url : Url, url.addSegment segment = url.addSegment other := by
  by_cases dots : segment = "." ∨ segment = ".."
  · have leftOut {word : String} (isDots : word = "." ∨ word = "..") (url : Url) :
        url.addSegment word = url := if_pos isDots
    rcases dots with rfl | rfl
    · exact ⟨"..", by decide, fun url => (leftOut (.inl rfl) url).trans (leftOut (.inr rfl) url).symm⟩
    · exact ⟨".", by decide, fun url => (leftOut (.inr rfl) url).trans (leftOut (.inl rfl) url).symm⟩
  · rw [not_or] at dots
    refine ⟨segment.push '\t', fun same => ?_, fun url => (addSegment_push_tab dots.1 dots.2 url).symm⟩
    have lengths := congrArg (fun text => text.toList.length) same
    simp only [String.toList_push, List.length_append, List.length_singleton] at lengths
    omega

end Url

namespace Registry.Client

open Url

/-- The addresses of the versions of subjects below a registry.  A plain subject stands in its
encoding between the segments around it: nothing there ends a segment or the path, and undoing the
encoding gives the subject.  So the addresses of plain subjects and versions are all different.  Any
other subject shares its addresses with another one. -/
theorem endpoint_byVersion (client : Client) :
    (∀ subject version, PlainSegment subject →
      client.endpoint (.byVersion subject version) =
          { client.base with
            path := client.base.stem ++
              ["subjects".toList, percentEncode (segmentSet client.base.isSpecial) subject.toList,
                "versions".toList, Number.Numeral.ofInt version] } ∧
        (∀ c ∈ percentEncode (segmentSet client.base.isSpecial) subject.toList,
          endsAuthority client.base.isSpecial c = false) ∧
        Text.Utf8.decode? (percentDecode (Text.Utf8.encode (String.ofList
          (percentEncode (segmentSet client.base.isSpecial) subject.toList)))) = some subject) ∧
    (∀ subject version otherSubject otherVersion,
      PlainSegment subject → PlainSegment otherSubject →
      (client.endpoint (.byVersion subject version)).text =
          (client.endpoint (.byVersion otherSubject otherVersion)).text →
        subject = otherSubject ∧ version = otherVersion) ∧
    ∀ subject, ¬ PlainSegment subject → ∃ other, other ≠ subject ∧ ∀ version,
      client.endpoint (.byVersion subject version) = client.endpoint (.byVersion other version) := by
  refine ⟨fun subject version plain => ⟨addSegments_version plain client.base version,
    fun c member => endsAuthority_of_mem_percentEncode member,
    decode?_percentEncode (reversible_segmentSet _) subject⟩, ?_, fun subject notPlain => ?_⟩
  · intro subject version otherSubject otherVersion plain otherPlain same
    rw [endpoint, endpoint, addSegments_version plain, addSegments_version otherPlain] at same
    -- No segment holds a slash as it is written, so a path falls into segments in one way only.
    have slashes := slash_notMem_versionSegments client.base.isSpecial
    have segments := flatMap_cons_injective
      (fun segment member => slashes subject version segment (List.mem_cons_of_mem _ member))
      (fun segment member => slashes otherSubject otherVersion segment
        (List.mem_cons_of_mem _ member))
      (flatMap_eq_of_text_eq same)
    simp only [List.cons.injEq, true_and, and_true] at segments
    exact ⟨String.toList_inj.mp (percentEncode_injective (reversible_segmentSet _) segments.1),
      ofInt_injective segments.2⟩
  · rcases exists_addSegment_eq notPlain with ⟨other, different, alike⟩
    refine ⟨other, different, fun version => ?_⟩
    simp only [endpoint, segments, addSegments, List.foldl_cons, alike]

/-- A subject with slashes, a percent sign and a letter outside ASCII, below a registry with a path
of its own. -/
theorem endpoint_byVersion_slashes : ∃ client,
    Client.connect "https://example.com/registry/?page=1" none = .ok client ∧
      PlainSegment "com/acmé%2F..proto" ∧
      Text.Utf8.decode? (percentDecode (Text.Utf8.encode (String.ofList
        (percentEncode (segmentSet client.base.isSpecial) "com/acmé%2F..proto".toList)))) =
          some "com/acmé%2F..proto" ∧
      (client.endpoint (.byVersion "com/acmé%2F..proto" 3)).text =
        "https://example.com/registry/subjects/com%2Facm%C3%A9%252F..proto/versions/3?page=1" := by
  have plain : PlainSegment "com/acmé%2F..proto" :=
    ⟨by decide, by decide, fun _ => eq_false_of_any (by decide)⟩
  refine ⟨⟨⟨"https".toList, some ⟨[], [], .name "example.com".toList, none⟩,
    ["registry".toList, []], some "page=1".toList, none⟩, none⟩,
    Outcome.toOption_eq_some_iff.mp (by decide +kernel), plain,
    ((endpoint_byVersion _).1 _ 3 plain).2.2, ?_⟩
  rw [((endpoint_byVersion _).1 _ 3 plain).1]
  decide +kernel

/-- The dots are left out, so two subjects share one address, in which there is no segment for them;
and a blank that is passed over makes two subjects one. -/
theorem endpoint_byVersion_dots : ∃ client,
    Client.connect "http://localhost:8081" none = .ok client ∧
      client.endpoint (.byVersion "." 1) = client.endpoint (.byVersion ".." 1) ∧
      (client.endpoint (.byVersion "." 1)).text = "http://localhost:8081/subjects/versions/1" ∧
      client.endpoint (.byVersion "a\tb" 1) = client.endpoint (.byVersion "ab" 1) := by
  refine ⟨⟨⟨"http".toList, some ⟨[], [], .name "localhost".toList, some 8081⟩, [[]], none, none⟩,
    none⟩, Outcome.toOption_eq_some_iff.mp (by decide +kernel), ?_⟩
  decide +kernel

end Registry.Client
end SchemaRecords
