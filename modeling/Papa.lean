import Papa.Rules.Dependencies
import Papa.Capabilities.Static
import Papa.Library.EcmaRegex
import Papa.Features.Prefilter
import Papa.Capabilities.Program
import Papa.Capabilities.DirectSemantics
import Papa.Util.FromChars
import Papa.Util.Yaml
import Papa.Rules.ComLookup
import Papa.Rules.ScopeConformance
import Papa.Rules.Leaf
import Papa.Rules.Parser
import Papa.Rules.ParserScopes
import Papa.Capabilities.Recorded
import Papa.Capabilities.Unsupported
import Papa.Library.StateMachine
import Papa.Library.MerkleDamgard
import Papa.Util.Hash
import Papa.Util.HashStream
import Papa.Util.HashCompress
import Papa.Library.Json
import Papa.Util.ToChars
import Papa.Util.JsonText
import Papa.Viv.CfContext
import Papa.Viv.CfReports
import Papa.Viv.CfCallbacks
import Papa.Viv.CfFuel
import Papa.Flirt.ByteCursor
import Papa.Flirt.FlirtReader
import Papa.Flirt.FlirtSafety
import Papa.Flirt.FlirtMatcher
import Papa.Flirt.FlirtClassifier
import Papa.Pe.PeImage
import Papa.Pe.PeParser
import Papa.Pe.PeOffsets
import Papa.Pe.PeSafety
import Papa.Pe.SectionTable
import Papa.Emu.Memory
import Papa.Emu.MemoryRuns
import Papa.Emu.Bits
import Papa.Emu.Registers
import Papa.Emu.Operands
import Papa.Emu.Addresses
import Papa.Emu.IntelEmulator
import Papa.Emu.UndefinedArithmetic
import Papa.Emu.Frames
import Papa.Emu.Carry
import Papa.Emu.ResultFlags
import Papa.Emu.Division
import Papa.Emu.Multiplication
import Papa.Emu.WorkspaceEmulator
import Papa.Emu.AddressSpace
import Papa.Emu.RunFunction
import Papa.Viv.CfTermination
import Papa.Viv.CfNoReturn
import Papa.Viv.CodeBlocks
import Papa.Viv.Discovery
import Papa.Features.Hashing
import Papa.Features.FeatureSetInvariant
import Papa.Engine.Locations
import Papa.Rules.LiteralValues
import Papa.Features.ApiSymbols
import Papa.Rules.ApiSpelling
import Papa.Util.YamlQuoted
import Papa.Rules.QuotedLeaf
import Papa.Util.YamlPlain
import Papa.Util.YamlBlock
import Papa.Util.YamlKey
import Papa.Util.YamlCompact
import Papa.Rules.Vacuity
import Papa.Render.MatchTree
import Papa.Capabilities.Feeding
import Papa.Render.Splicing
import Papa.Render.ResultDocument
import Papa.Util.YamlTrailing
import Papa.Util.YamlNesting
import Papa.Library.Search
import Papa.Pe.CappedReaders
import Papa.Emu.SkippedCall
import Papa.Viv.LocationCover
import Papa.Viv.DecodeOnce
import Papa.Viv.BlockPartition
import Papa.Viv.Dispatch
import Papa.Emu.MetaRegisters
import Papa.Extractors.Carve
import Papa.Library.Peeling
import Papa.Extractors.Function
import Papa.Library.Runs
import Papa.Extractors.Strings
import Papa.Library.BreadthFirst
import Papa.Extractors.IndirectCalls
import Papa.Library.Apportion
import Papa.Render.Table
import Papa.Render.TableWidths
import Papa.Render.TableLines
import Papa.Library.Fuelled
import Papa.Viv.CfSimulation
import Papa.Viv.DriverReturns
import Papa.Viv.EntriesDecoded
import Papa.Viv.DiscoveryPasses
import Papa.Viv.Engine
import Papa.Library.ReverseEdges
import Papa.Viv.CallGraph
import Papa.Library.OrderedMap
import Papa.Render.Report
import Papa.Render.Spec
import Papa.Util.JsonDocument
import Papa.Library.JsonMembers
import Papa.Render.JsonReport
import Papa.Render.JsonReading
import Papa.Render.JsonFaithful
import Papa.Emu.Observation
import Papa.Emu.EmuDiscovery
import Papa.Util.YamlProper
import Papa.Extractors.ImportThunks
import Papa.Extractors.StackString
import Papa.Extractors.OperandData
import Papa.Extractors.Insn
import Papa.Extractors.InsnFeatures
import Papa.Extractors.FunctionFeatures
import Papa.Extractors.Pefile
