import SchemaRecords.Bytes
import SchemaRecords.Bytes.Base64
import SchemaRecords.Bytes.Hex
import SchemaRecords.Command.Arguments
import SchemaRecords.Command.Duration
import SchemaRecords.Command.Failure
import SchemaRecords.Command.Reader
import SchemaRecords.Command.Run
import SchemaRecords.Command.SchemaFile
import SchemaRecords.Json.Printer
import SchemaRecords.Json.Reader
import SchemaRecords.Json.Tree
import SchemaRecords.Json.Value
import SchemaRecords.Main
import SchemaRecords.Number.Binary
import SchemaRecords.Number.Double
import SchemaRecords.Number.Literal
import SchemaRecords.Number.Numeral
import SchemaRecords.Number.Shortest
import SchemaRecords.Payload.Conversion
import SchemaRecords.Payload.Decoding
import SchemaRecords.Payload.Encoding
import SchemaRecords.Payload.Rendering
import SchemaRecords.Proofs.Bytes.WrittenBase64
import SchemaRecords.Proofs.CachedPools
import SchemaRecords.Proofs.CanonicalPayloads
import SchemaRecords.Proofs.Concatenation
import SchemaRecords.Proofs.CutStreams
import SchemaRecords.Proofs.EncodedPayloads
import SchemaRecords.Proofs.EnumerationNames
import SchemaRecords.Proofs.FrameForms
import SchemaRecords.Proofs.FramedCommands
import SchemaRecords.Proofs.IndexPaths
import SchemaRecords.Proofs.Json.DistinctKeys
import SchemaRecords.Proofs.Json.WrittenDocuments
import SchemaRecords.Proofs.KeyStyles
import SchemaRecords.Proofs.Number.Rounding
import SchemaRecords.Proofs.Number.SingleDigits
import SchemaRecords.Proofs.Number.WrittenNumerals
import SchemaRecords.Proofs.Outcome
import SchemaRecords.Proofs.Payload.CarriedValues
import SchemaRecords.Proofs.Payload.ExactDocuments
import SchemaRecords.Proofs.Payload.GrownDecoding
import SchemaRecords.Proofs.Payload.GrownEncoding
import SchemaRecords.Proofs.Payload.Merging
import SchemaRecords.Proofs.Payload.MessageLevels
import SchemaRecords.Proofs.Payload.PairedDecoders
import SchemaRecords.Proofs.Payload.ReadFields
import SchemaRecords.Proofs.Payload.RenderedIntegers
import SchemaRecords.Proofs.Payload.ShownValues
import SchemaRecords.Proofs.Payload.WritableValues
import SchemaRecords.Proofs.Payload.WrittenFields
import SchemaRecords.Proofs.PrintedDocuments
import SchemaRecords.Proofs.RecompiledStreams
import SchemaRecords.Proofs.ReferenceCycles
import SchemaRecords.Proofs.ReferenceOrder
import SchemaRecords.Proofs.Registration
import SchemaRecords.Proofs.RegistrationOrder
import SchemaRecords.Proofs.Registry.CompilationProgress
import SchemaRecords.Proofs.Registry.CompilationRuns
import SchemaRecords.Proofs.Registry.KeptPools
import SchemaRecords.Proofs.Registry.ReferenceSearch
import SchemaRecords.Proofs.Registry.ReferenceWalk
import SchemaRecords.Proofs.RelaidTexts
import SchemaRecords.Proofs.RoundTrip
import SchemaRecords.Proofs.Schema.DeclaredPaths
import SchemaRecords.Proofs.Schema.FieldKinds
import SchemaRecords.Proofs.Schema.FieldLookups
import SchemaRecords.Proofs.Schema.IndexPositions
import SchemaRecords.Proofs.Schema.LinkedFields
import SchemaRecords.Proofs.Schema.LinkedMessages
import SchemaRecords.Proofs.Schema.LinkedUnits
import SchemaRecords.Proofs.Schema.OutlinePlaces
import SchemaRecords.Proofs.Schema.ParsedDeclarations
import SchemaRecords.Proofs.Schema.ParsedFields
import SchemaRecords.Proofs.Schema.PlainNames
import SchemaRecords.Proofs.Schema.RegularMessages
import SchemaRecords.Proofs.Schema.RelocatedLinking
import SchemaRecords.Proofs.Schema.Relocation
import SchemaRecords.Proofs.Schema.SoundDeclaration
import SchemaRecords.Proofs.Schema.SpelledTokens
import SchemaRecords.Proofs.Schema.SwappedUnits
import SchemaRecords.Proofs.Schema.TokenBoundaries
import SchemaRecords.Proofs.Schema.UnseenUnits
import SchemaRecords.Proofs.Schema.WellFormed
import SchemaRecords.Proofs.Schema.WrittenDeclarations
import SchemaRecords.Proofs.Stream.WrittenFrames
import SchemaRecords.Proofs.Text.WrittenText
import SchemaRecords.Proofs.Wire.ReadVarints
import SchemaRecords.Proofs.Wire.WrittenRecords
import SchemaRecords.Proofs.WrittenSchemas
import SchemaRecords.Registry.Cache
import SchemaRecords.Registry.Client
import SchemaRecords.Registry.Compilation
import SchemaRecords.Registry.RegisteredSchema
import SchemaRecords.Registry.Source
import SchemaRecords.Schema.Declaration
import SchemaRecords.Schema.Declaration.Parser
import SchemaRecords.Schema.Declaration.Reader
import SchemaRecords.Schema.Descriptor
import SchemaRecords.Schema.IndexPath
import SchemaRecords.Schema.Linking
import SchemaRecords.Schema.Outline
import SchemaRecords.Schema.Pool
import SchemaRecords.Schema.Registration
import SchemaRecords.Schema.Scalar
import SchemaRecords.Schema.Scope
import SchemaRecords.Schema.Table
import SchemaRecords.Schema.Token
import SchemaRecords.Schema.Token.Lexer
import SchemaRecords.Stream.Frame
import SchemaRecords.Stream.Reading
import SchemaRecords.Stream.Record
import SchemaRecords.Text.Blank
import SchemaRecords.Text.Quoted
import SchemaRecords.Text.Split
import SchemaRecords.Text.Unseen
import SchemaRecords.Text.Utf8
import SchemaRecords.Url.Host
import SchemaRecords.Url.Percent
import SchemaRecords.Url.Reader
import SchemaRecords.Wire.Fault
import SchemaRecords.Wire.Kind
import SchemaRecords.Wire.Record
import SchemaRecords.Wire.Tag
import SchemaRecords.Wire.Varint
import SchemaRecords.Wire.ZigZag
import SchemaRecords.Proofs.Number.WholeDoubles
import SchemaRecords.Proofs.Payload.OwnRecords
import SchemaRecords.Proofs.ExactIntegers
import SchemaRecords.Proofs.Payload.ConvertedFields
import SchemaRecords.Proofs.MapEntries
import SchemaRecords.Proofs.OmittedDefaults
import SchemaRecords.Proofs.CutPayloads
import SchemaRecords.Proofs.ForeignRecords
import SchemaRecords.Proofs.NestedPayloads
import SchemaRecords.Proofs.FoldedMaps
import SchemaRecords.Proofs.RecordOrder
import SchemaRecords.Proofs.ElementChunks
import SchemaRecords.Proofs.OneofMembers
import SchemaRecords.Proofs.EmittedDefaults
import SchemaRecords.Proofs.KeyOrder
import SchemaRecords.Proofs.AcceptedUnits
import SchemaRecords.Proofs.ReferenceScopes
import SchemaRecords.Proofs.ErrorPlaces
import SchemaRecords.Proofs.Wire.SpelledValues
import SchemaRecords.Proofs.SkippedValues
import SchemaRecords.Proofs.Number.RoundingErrors
import SchemaRecords.Proofs.Number.SeventeenDigits
import SchemaRecords.Proofs.Json.WrittenNumbers
import SchemaRecords.Proofs.Json.WrittenDoubles
import SchemaRecords.Proofs.Json.ScaledDoubles
import SchemaRecords.Proofs.Json.RereadDoubles
import SchemaRecords.Proofs.PrintedDoubles
import SchemaRecords.Proofs.Schema.ReadNames
import SchemaRecords.Proofs.Schema.FieldNames
import SchemaRecords.Proofs.IdentifiedLines
import SchemaRecords.Proofs.Url.EncodedSegments
import SchemaRecords.Proofs.SubjectAddresses
import SchemaRecords.Wire.Item
import SchemaRecords.Proofs.WrittenItems
import SchemaRecords.Proofs.SpelledBytes
