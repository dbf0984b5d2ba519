import SchemaRecords.Proofs.Registry.CompilationRuns
import SchemaRecords.Proofs.Registry.KeptPools
import SchemaRecords.Stream.Reading

/-!
# Streams without a cache

A reader that compiles the schema of every record anew hands over the same lines and counts,
and stops with the same error, as a reader with a cache: every pool that is kept is the one
that would be compiled.
-/

namespace SchemaRecords

open SchemaRecords.Registry
open SchemaRecords.Schema

/-! ## Pools that are kept -/

/-- Every pool that a cache keeps is what its identifier would be compiled to. -/
def Registry.Cache.Fresh (source : Source) (cache : Cache) : Prop :=
  ∀ id pool, cache.find? id = some pool →
    ∃ requests, compile source id = some ⟨requests, .ok pool⟩

namespace Registry.Cache

variable {source : Source} {limit : Option Nat} {inserted : List UInt32} {cache : Cache}
  {id : UInt32} {lookup : Lookup}

theorem fresh_empty (source : Source) (limit : Option Nat) : Fresh source (empty limit) :=
  fun _ _ found => nomatch found

theorem Fresh.get (fresh : Fresh source cache) (asked : cache.get source id = some lookup) :
    Fresh source lookup.cache := by
  rcases get_cases asked with ⟨_, _, rfl⟩ | ⟨_, requests, pool, compiled, rfl⟩ | ⟨_, _, _, _, rfl⟩
  · exact fresh
  · intro other held kept
    rcases find?_of_insert kept with ⟨rfl, rfl⟩ | before
    · exact ⟨requests, compiled⟩
    · exact fresh other held before
  · exact fresh

/-- All questions have to be put to the one source.  Evictions and failures included, by induction on
the questions. -/
theorem Reached.fresh (reached : Reached (· = source) limit inserted cache) :
    Fresh source cache := by
  induction reached with
  | start => exact fresh_empty source limit
  | hit _ same _ asked inductionHypothesis => exact inductionHypothesis.get (same ▸ asked)
  | failure _ same asked _ inductionHypothesis => exact inductionHypothesis.get (same ▸ asked)
  | success _ same _ asked _ inductionHypothesis => exact inductionHypothesis.get (same ▸ asked)

/-- Asking a cache comes to what compiling comes to. -/
theorem Fresh.result_get (fresh : Fresh source cache) (id : UInt32) :
    (cache.get source id).map (·.result) = (compile source id).map (·.result) := by
  cases found : cache.find? id with
  | some pool =>
    rcases fresh id pool found with ⟨requests, compiled⟩
    rw [get_of_hit source found, compiled]
    rfl
  | none =>
    rw [Cache.get, found]
    simp only [Option.map_map]
    congr 1
    funext fetched
    rcases fetched with ⟨requests, result⟩
    cases result <;> rfl

end Registry.Cache

namespace Stream

/-! ## Reading without a cache -/

/-- What a reader hands over: the lines it writes, how many records they are for, how many it
skipped, and the error with which it stops, if any. -/
structure Transcript where
  lines : List String
  records : Nat
  skipped : Nat
  error : Option RecordError

def Report.transcript (report : Report) : Transcript :=
  ⟨report.documents.map (·.text), report.documents.length, report.skipped, report.error⟩

/-- The document of a record whose schema is compiled for it alone. -/
def Record.recompile (source : Source) (options : Payload.Options) (record : Record) :
    Option (Except RecordError Json.Value) :=
  match Frame.decode record.value with
  | .error error => some (.error (.framing error))
  | .ok frame =>
    (compile source frame.schemaId).map fun fetched =>
      match fetched.result with
      | .error error => .error (.registry record.offset error)
      | .ok pool => record.decodeFrame options frame pool

/-- Read records and compile the schema of each of them.  A document is a line.  A record whose
index path or payload is invalid is skipped if that is wanted; any other error ends the reading. -/
def recompileRecords (source : Source) (options : ReadOptions) (fault : Option FramingError) :
    List Record → Option Transcript
  | [] => some ⟨[], 0, 0, fault.map .framing⟩
  | record :: rest => do
    match ← record.recompile source options.decoding with
    | .ok document =>
      let later ← recompileRecords source options fault rest
      return { later with lines := document.text :: later.lines, records := later.records + 1 }
    | .error (.framing error) => return ⟨[], 0, 0, some (.framing error)⟩
    | .error (.registry offset error) => return ⟨[], 0, 0, some (.registry offset error)⟩
    | .error error =>
      if options.skipInvalid then
        let later ← recompileRecords source options fault rest
        return { later with skipped := later.skipped + 1 }
      else return ⟨[], 0, 0, some error⟩

/-- Read a stream and compile the schema of each record. -/
def recompileStream (source : Source) (options : ReadOptions) (bytes : Bytes) :
    Option Transcript :=
  let (records, fault) := Record.readAll bytes
  recompileRecords source options fault records

variable {source : Source} {limit : Option Nat} {inserted : List UInt32} {cache : Cache}

/-- An attempt with a cache comes to what an attempt without one comes to. -/
theorem Record.result_attempt (fresh : cache.Fresh source) (options : Payload.Options)
    (record : Record) :
    (record.attempt source options cache).map (·.result) = record.recompile source options := by
  cases decoded : Frame.decode record.value with
  | error error =>
    simp only [attempt, recompile, decoded]
    rfl
  | ok frame =>
    simp only [attempt, recompile, decoded, Option.map_map]
    have same := fresh.result_get frame.schemaId
    cases asked : cache.get source frame.schemaId with
    | none =>
      rw [asked] at same
      rw [Option.map_eq_none_iff.mp same.symm]
      rfl
    | some lookup =>
      rw [asked] at same
      rcases Option.map_eq_some_iff.mp same.symm with ⟨fetched, compiled, sameResult⟩
      rw [compiled]
      simp only [Option.map_some, Function.comp_apply, sameResult]
      cases lookup.result <;> rfl

theorem Record.fresh_attempt (fresh : cache.Fresh source) {options : Payload.Options}
    {record : Record} {attempt : Attempt}
    (attempted : record.attempt source options cache = some attempt) :
    attempt.cache.Fresh source := by
  unfold Record.attempt at attempted
  split at attempted
  · cases attempted
    exact fresh
  · rcases Option.map_eq_some_iff.mp attempted with ⟨lookup, asked, rfl⟩
    have kept := fresh.get asked
    split <;> exact kept

/-- By induction on the records, each of which leaves the cache as good as it was. -/
theorem readRecords_recompile (fresh : cache.Fresh source) (options : ReadOptions)
    (fault : Option FramingError) (records : List Record) :
    (readRecords source options fault cache records).map Report.transcript =
      recompileRecords source options fault records := by
  induction records generalizing cache with
  | nil => rfl
  | cons record rest inductionHypothesis =>
    have same := Record.result_attempt fresh options.decoding record
    rw [readRecords, recompileRecords, ← same]
    cases attempted : record.attempt source options.decoding cache with
    | none => rfl
    | some attempt =>
      have later := inductionHypothesis (Record.fresh_attempt fresh attempted)
      simp only [Option.bind_eq_bind, Option.bind_some, Option.map_some]
      cases attempt.result with
      | ok document =>
        simp only [← later]
        cases readRecords source options fault attempt.cache rest <;> rfl
      | error error =>
        -- Only an error of the index path or of the payload depends on the options.
        cases error with
        | framing _ | registry _ _ => simp [RecordError.isSkippable, Report.transcript]
        | resolve _ _ | decode _ _ =>
          by_cases skipping : options.skipInvalid = true
          · simp only [RecordError.isSkippable, skipping, ← later]
            cases readRecords source options fault attempt.cache rest <;> rfl
          · simp [RecordError.isSkippable, skipping, Report.transcript]

/-- Whatever a cache was asked for with the source of a reader before, and however little it keeps,
the reader with this cache comes to what a reader without one comes to.  This includes every part of a stream: a reader that
waits for ever for the schema of some record has written the same lines before. -/
theorem readStream_recompile (reached : Cache.Reached (· = source) limit inserted cache)
    (options : ReadOptions) (bytes : Bytes) :
    (readStream source options cache bytes).map Report.transcript =
        recompileStream source options bytes ∧
      ∀ count, (readRecords source options none cache
          ((Record.readAll bytes).1.take count)).map Report.transcript =
        recompileRecords source options none ((Record.readAll bytes).1.take count) :=
  ⟨readRecords_recompile reached.fresh options _ _,
    fun _ => readRecords_recompile reached.fresh options none _⟩

theorem Record.recompile_of_compile {options : Payload.Options} {record : Record} {frame : Frame}
    {requests : List Request} {pool : Pool} (decoded : Frame.decode record.value = .ok frame)
    (compiled : compile source frame.schemaId = some ⟨requests, .ok pool⟩) :
    record.recompile source options = some (record.decodeFrame options frame pool) := by
  rw [recompile, decoded]
  simp only [compiled, Option.map_some]

/-- The schemas of a journal. -/
def journal : Catalog :=
  [(.byId 1, ⟨"message Entry\x7b\x7d", some protobuf, []⟩),
    (.byId 2, ⟨"message Page\x7bint32 day=1;\x7d", some protobuf, []⟩)]

/-- A record of a journal. -/
def page : Record := ⟨"0", "a", [0, 0, 0, 0, 2, 0, 8, 5]⟩

/-- A record whose schema has no second message. -/
def lost : Record := ⟨"1", "b", [0, 0, 0, 0, 1, 2, 2]⟩

/-- A record whose schema nobody has. -/
def strange : Record := ⟨"2", "c", [0, 0, 0, 0, 9, 0]⟩

/-- With room for one schema a cache forgets the first one and has to learn it again. -/
theorem readStream_recompile_journal :
    ∃ cache, Cache.Reached (· = journal.source) (some 1) [1] cache ∧
      (readStream journal.source ⟨.plain, true⟩ cache
          ([page, lost, strange].flatMap Record.encode)).map Report.transcript =
        some ⟨["\x7b\"@offset\":0,\"@key\":\"a\",\"day\":5\x7d"], 1, 1,
          some (.registry "2" (.notFound (.byId 9)))⟩ := by
  have entries : ((compileWithin journal.source 2 1).bind (·.result.toOption)).map
      (fun pool => (lost.decodeFrame .plain ⟨1, [1], []⟩ pool).map (·.text)) =
      some (.error (.resolve "1" (.indexOutOfRange 0))) := by
    decide +kernel
  have pages : ((compileWithin journal.source 2 2).bind (·.result.toOption)).map
      (fun pool => (page.decodeFrame .plain ⟨2, [0], [8, 5]⟩ pool).map (·.text)) =
      some (.ok "\x7b\"@offset\":0,\"@key\":\"a\",\"day\":5\x7d") := by
    decide +kernel
  have records : Record.readAll ([page, lost, strange].flatMap Record.encode) =
      ([page, lost, strange], none) := by
    decide +kernel
  rcases Option.map_eq_some_iff.mp entries with ⟨one, isOne, lostFact⟩
  rcases Option.map_eq_some_iff.mp pages with ⟨two, isTwo, pageFact⟩
  rcases exists_compile_of_compileWithin isOne with ⟨_, first⟩
  rcases exists_compile_of_compileWithin isTwo with ⟨_, second⟩
  rcases Outcome.map_eq_ok_iff.mp pageFact with ⟨document, isDocument, text⟩
  have pageFrame : Frame.decode page.value = .ok ⟨2, [0], [8, 5]⟩ := by decide +kernel
  have lostFrame : Frame.decode lost.value = .ok ⟨1, [1], []⟩ := by decide +kernel
  have pageRead : page.recompile journal.source .plain = some (.ok document) := by
    rw [Record.recompile_of_compile pageFrame second, isDocument]
  have lostRead : lost.recompile journal.source .plain =
      some (.error (.resolve "1" (.indexOutOfRange 0))) := by
    rw [Record.recompile_of_compile lostFrame first, Outcome.map_eq_error_iff.mp lostFact]
  have strangeRead : strange.recompile journal.source .plain =
      some (.error (.registry "2" (.notFound (.byId 9)))) := rfl
  have unasked : Cache.Reached (· = journal.source) (some 1) [] (.empty (some 1)) := .start
  have reached : Cache.Reached (· = journal.source) (some 1) [1]
      ((Cache.empty (some 1)).insert 1 one) :=
    unasked.success rfl rfl (Cache.get_of_compile rfl first) rfl
  refine ⟨_, reached, (readStream_recompile reached _ _).1.trans ?_⟩
  simp only [recompileStream, records, recompileRecords, pageRead, lostRead, strangeRead, ← text]
  rfl

end Stream
end SchemaRecords
