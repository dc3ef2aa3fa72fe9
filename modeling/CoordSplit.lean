import CoordSplit.Assembly.Directive
import CoordSplit.Assembly.Lexeme
import CoordSplit.Assembly.Parser
import CoordSplit.Assembly.Printer
import CoordSplit.Catalog.Basic
import CoordSplit.Catalog.Document
import CoordSplit.Catalog.Listing
import CoordSplit.Catalog.OfNode
import CoordSplit.Catalog.OfToml
import CoordSplit.Catalog.Spec
import CoordSplit.Catalog.Standard
import CoordSplit.Cbor.Basic
import CoordSplit.Cbor.Decode
import CoordSplit.ClassFile
import CoordSplit.Code
import CoordSplit.Command
import CoordSplit.Conversion
import CoordSplit.Descriptor.Basic
import CoordSplit.Descriptor.Parser
import CoordSplit.Diagnostic
import CoordSplit.Expansion
import CoordSplit.Fault
import CoordSplit.Flow.Analysis
import CoordSplit.Flow.Frame
import CoordSplit.Flow.Step
import CoordSplit.Flow.Trace
import CoordSplit.Flow.Value
import CoordSplit.IndexSet
import CoordSplit.Insn.Basic
import CoordSplit.Insn.Effect
import CoordSplit.Insn.Opcode
import CoordSplit.Main
import CoordSplit.Method
import CoordSplit.Number.BinaryFloat
import CoordSplit.Number.FloatText
import CoordSplit.Number.Shortest
import CoordSplit.Pattern
import CoordSplit.Proofs.AssemblyItems
import CoordSplit.Proofs.AssemblyPrinting
import CoordSplit.Proofs.AssemblyReading
import CoordSplit.Proofs.AssemblyRoundTrip
import CoordSplit.Proofs.AssemblyWords
import CoordSplit.Proofs.CallConversions
import CoordSplit.Proofs.CallEdits
import CoordSplit.Proofs.CatalogShape
import CoordSplit.Proofs.ClassOutput
import CoordSplit.Proofs.ClassRecords
import CoordSplit.Proofs.CodeSequences
import CoordSplit.Proofs.ConsumerIndex
import CoordSplit.Proofs.ConvertedCalls
import CoordSplit.Proofs.DescriptorGrammar
import CoordSplit.Proofs.Descriptors
import CoordSplit.Proofs.FailureIsolation
import CoordSplit.Proofs.FiniteSets
import CoordSplit.Proofs.FloatRounding
import CoordSplit.Proofs.FloatTexts
import CoordSplit.Proofs.FlowBound
import CoordSplit.Proofs.FlowEdges
import CoordSplit.Proofs.FlowFaults
import CoordSplit.Proofs.FlowHistory
import CoordSplit.Proofs.FlowOrder
import CoordSplit.Proofs.FlowResults
import CoordSplit.Proofs.FlowSoundness
import CoordSplit.Proofs.FrameDepths
import CoordSplit.Proofs.FrameInvariants
import CoordSplit.Proofs.FrameJoins
import CoordSplit.Proofs.IndexSets
import CoordSplit.Proofs.Kinds
import CoordSplit.Proofs.LinkedCode
import CoordSplit.Proofs.Machine
import CoordSplit.Proofs.MovedCode
import CoordSplit.Proofs.MovedTyping
import CoordSplit.Proofs.ParameterLayout
import CoordSplit.Proofs.PatternMeaning
import CoordSplit.Proofs.PatternRules
import CoordSplit.Proofs.PatternScan
import CoordSplit.Proofs.PatternTyping
import CoordSplit.Proofs.ProducerMeaning
import CoordSplit.Proofs.ProducerTyping
import CoordSplit.Proofs.QuotedText
import CoordSplit.Proofs.RecordRoundTrip
import CoordSplit.Proofs.ReferenceIntegrity
import CoordSplit.Proofs.RoleTyping
import CoordSplit.Proofs.ScanProgress
import CoordSplit.Proofs.SharedProducers
import CoordSplit.Proofs.ShortestDecimals
import CoordSplit.Proofs.SignatureWidth
import CoordSplit.Proofs.SlotAliasing
import CoordSplit.Proofs.SlotClosure
import CoordSplit.Proofs.SlotLimits
import CoordSplit.Proofs.SlotOrigins
import CoordSplit.Proofs.SlotPlaces
import CoordSplit.Proofs.SourceLines
import CoordSplit.Proofs.StackDepths
import CoordSplit.Proofs.StackEffects
import CoordSplit.Proofs.StackOrigins
import CoordSplit.Proofs.StepEffects
import CoordSplit.Proofs.TransformStages
import CoordSplit.Proofs.TransformTyping
import CoordSplit.Proofs.TransformedForms
import CoordSplit.Proofs.TypeOrder
import CoordSplit.Proofs.TypedEdits
import CoordSplit.Proofs.TypingRules
import CoordSplit.Proofs.UnknownCalls
import CoordSplit.Proofs.ValueKeys
import CoordSplit.Proofs.Verification
import CoordSplit.Proofs.WrittenForms
import CoordSplit.Record.Basic
import CoordSplit.Record.Binary
import CoordSplit.Record.OfClass
import CoordSplit.Record.OfNode
import CoordSplit.Record.ToClass
import CoordSplit.Record.Yaml
import CoordSplit.Report
import CoordSplit.Signature
import CoordSplit.SlotMap
import CoordSplit.Sorted
import CoordSplit.StackDepth
import CoordSplit.Storage
import CoordSplit.Text.Base64
import CoordSplit.Text.Basic
import CoordSplit.Text.Numeral
import CoordSplit.Text.Printable
import CoordSplit.Text.Quoted
import CoordSplit.Text.Utf8
import CoordSplit.Toml.Basic
import CoordSplit.Toml.Reader
import CoordSplit.Transform
import CoordSplit.Yaml.Cursor
import CoordSplit.Yaml.Meaning
import CoordSplit.Yaml.Node
import CoordSplit.Yaml.Printer
import CoordSplit.Yaml.Reader
import CoordSplit.Yaml.Scalar
