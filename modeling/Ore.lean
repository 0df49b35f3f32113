import Ore.Loop
import Ore.Worklist
import Ore.Probing
import Ore.HashMapModel
import Ore.HashMapRefinement
import Ore.SyntaxKinds
import Ore.LayoutStream
import Ore.LayoutBalance
import Ore.Tasks
import Ore.EngineModel
import Ore.EngineFacts
import Ore.EngineSteps
import Ore.EngineSound
import Ore.EngineNested
import Ore.EngineDemand
import Ore.EngineRuns
import Ore.EngineDiscipline
import Ore.EngineRecording
import Ore.EngineFailures
import Ore.EngineCalm
import Ore.EngineCancel
import Ore.EngineIncremental
import Ore.EngineTotal
import Ore.EngineReclaim
import Ore.EngineRequests
import Ore.EngineLog
import Ore.EngineInterrupt
import Ore.EngineStamps
import Ore.EngineAcyclic
import Ore.DepDedup
import Ore.RevisionClock
import Ore.WorkspacePaths
import Ore.WorkspaceModel
import Ore.FileSets
import Ore.WorkspaceIdentity
import Ore.FileSetHistory
import Ore.SlotRows
import Ore.RangeCopy
import Ore.PoolCompaction
import Ore.InternKeys
import Ore.InternPool
import Ore.Lexer
import Ore.LexerScans
import Ore.FastScans
import Ore.LexerTiling
import Ore.LayoutCapacity
import Ore.LineTables
import Ore.LayoutColumns
import Ore.Segments
import Ore.ChunkArena
import Ore.StringPoolModel
import Ore.StringPoolNames
import Ore.StringPoolRefinement
import Ore.StringPoolCanonical
import Ore.RoseTree
import Ore.GreenTree
import Ore.RedTree
import Ore.NodePointers
import Ore.RedHandles
import Ore.Preorder
import Ore.TokenNavigation
import Ore.OffsetLookup
import Ore.PersistentEdits
import Ore.MutableEdits
import Ore.Rings
import Ore.SiblingRing
import Ore.TextChunks
import Ore.TextScans
import Ore.TextChars
import Ore.TextSearch
import Ore.TextOps
import Ore.NamespaceItems
import Ore.NamespaceFingerprints
import Ore.RefCounts
import Ore.GreenCache
import Ore.GreenCacheTable
import Ore.GreenCacheSteps
import Ore.GreenDenotes
import Ore.GreenCacheCanonical
import Ore.GreenBuilder
import Ore.GreenBuilderTrees
import Ore.FileAst
import Ore.FileAstFingerprint
import Ore.ParserCursor
import Ore.ParserGrammar
import Ore.ParserRules
import Ore.ParserReads
import Ore.OperatorTrees
import Ore.Regrouping
import Ore.PrattParsing
import Ore.TreeOffsets
import Ore.ParserLossless
import Ore.ErrorRecovery
import Ore.ParserTotal
import Ore.BindingGraph
import Ore.EffectRows
import Ore.EffectRowReads
import Ore.EffectRowUnify
import Ore.EffectRowSoundness
import Ore.EffectRowUnion
import Ore.EffectRowRuns
import Ore.EffectInference
import Ore.EvaluatedCalls
import Ore.EffectVerdicts
import Ore.TypeHoles
import Ore.TypeHoleCycles
import Ore.Coercions
import Ore.CoercionRules
import Ore.RedForest
import Ore.RedForestLinks
import Ore.RedForestEdits
import Ore.RedForestSplices
import Ore.RedForestRuns
import Ore.DemandTables
import Ore.InstanceDemands
import Ore.DeclAstIds
import Ore.DeclAstRuns
import Ore.CoercionOrder
import Ore.TypeSubstitution
import Ore.TypeHoleRuns
import Ore.Instantiation
import Ore.HostInts
import Ore.HostQuotients
import Ore.IntConstants
import Ore.ConstFolding
import Ore.ConstFits
import Ore.ConstComparisons
import Ore.Intervals
import Ore.SwitchCoverage
import Ore.PercentCoding
import Ore.UriPaths
import Ore.FieldPlacement
import Ore.TypeLayout
import Ore.LayoutLaws
import Ore.DecimalText
import Ore.FrameStream
import Ore.LspMarshal
import Ore.LspReplies
import Ore.LspServer
import Ore.LspSession
import Ore.PathStacks
import Ore.PathNormalize
import Ore.SortedSearch
import Ore.Positions
import Ore.HandlerCoverage
import Ore.DeclAstPaths
import Ore.ParentLinks
import Ore.BodyScopes
import Ore.ScopeGrowth
import Ore.BodyConflicts
import Ore.ScopeMarks
import Ore.BodyReferences
import Ore.CallTrees
import Ore.EvalModel
import Ore.EvalContracts
import Ore.EvalTermination
import Ore.NodeTypeFrames
import Ore.HeapLedger
import Ore.DefRows
import Ore.DefRowInvariant
import Ore.DefRowRetyping
import Ore.DefRowOwnership
import Ore.AstIds
import Ore.DefIdentity
import Ore.DefIdentityRuns
import Ore.BuilderCalls
import Ore.GreenLayout
import Ore.BuilderNesting
import Ore.MissingReturn
import Ore.CompileClosure
import Ore.NameResolution
import Ore.TreeOrders
import Ore.PeerTypes
import Ore.DiagTemplates
import Ore.Redefinitions
