import Daf.Incremental
import Daf.WireProtocol
import Daf.WireCodec
import Daf.Cycles
import Daf.Digraph
import Daf.Json
import Daf.GraphNodes
import Daf.GraphDag
import Daf.GraphInvariant
import Daf.GraphStates
import Daf.GraphScheduler
import Daf.GraphExecutor
import Daf.GraphUpdates
import Daf.GraphSafety
import Daf.GraphOutcome
import Daf.GraphConfluence
import Daf.GraphTermination
import Daf.TopicRegistry
import Daf.ChannelPool
import Daf.ChannelSafety
import Daf.ChannelDelivery
import Daf.Waves
import Daf.Interrupted
import Daf.UuidText
import Daf.MissionPlan
import Daf.SlidingWindow
import Daf.Supervision
import Daf.RegistrySweep
import Daf.SpecialistRouting
import Daf.StateStore
import Daf.LoadAccounting
import Daf.MissionRun
import Daf.MissionGate
import Daf.MissionSteps
import Daf.MissionWorker
import Daf.ReviewOutput
import Daf.ReviewRun
import Daf.ReviewState
import Daf.ReviewSafety
import Daf.IdealCrypto
import Daf.KeyRing
import Daf.KeyEnvelope
import Daf.Kahn
import Daf.ProvisionPlan
import Daf.ProvisionApply
import Daf.ProvisionSteps
import Daf.PlanShape
import Daf.ProvisionConvergence
import Daf.ProvisionAgreement
import Daf.ProvisionProtection
import Daf.Fallible
import Daf.CrashLog
import Daf.VaultSecrets
import Daf.SledVault
import Daf.VaultCrash
import Daf.VaultCalls
import Daf.VaultRuns
import Daf.MemoryVault
import Daf.VaultRequests
import Daf.MemoryRuns
import Daf.VaultAudit
import Daf.VaultSealed
import Daf.PrefixCode
import Daf.WriteOnce
import Daf.LedgerKeys
import Daf.LedgerTasks
import Daf.DurableLedger
import Daf.LedgerRuns
import Daf.LedgerOnce
import Daf.LedgerIsolation
import Daf.Runs
import Daf.InProcBus
import Daf.ResourcePool
import Daf.Interleaving
import Daf.RuntimeLifecycle
import Daf.AgentLifecycle
import Daf.LogSinks
import Daf.LogArchive
import Daf.RunPlan
import Daf.RunSchedule
import Daf.RemoteWire
import Daf.RemoteSessions
import Daf.Memories
import Daf.MemoryCalls
import Daf.Consolidation
import Daf.PlanOrder
import Daf.FailedDependencies
import Daf.JsonAccess
import Daf.Topologies
import Daf.Search
import Daf.Expansion
import Daf.OutputReferences
import Daf.ReferenceSyntax
import Daf.OutputMasking
import Daf.DottedPaths
import Daf.Conditions
import Daf.Variables
import Daf.Templates
import Daf.Precedence
import Daf.Wildcards
import Daf.TemplatePieces
import Daf.DepthFirst
import Daf.AgentInventory
import Daf.AgentPatterns
import Daf.GroupVars
import Daf.Handlers
import Daf.Versions
import Daf.VersionOrder
import Daf.VersionRanges
import Daf.VersionText
import Daf.ExpiryRange
import Daf.DecaySchedule
import Daf.OrderedMap
import Daf.TopK
import Daf.LruCache
import Daf.Cuts
import Daf.Absorption
import Daf.MemoryBackends
import Daf.RecallBackends
import Daf.MemoryContext
import Daf.ContextLoading
import Daf.ChangeScans
import Daf.CapabilitySets
import Daf.Discovery
import Daf.ManifestCapabilities
import Daf.Episodes
import Daf.MergeOrder
import Daf.ConsolidationSteps
import Daf.Distillation
import Daf.ImportanceRange
import Daf.LogEntries
import Daf.LogQueries
import Daf.Redaction
import Daf.HealthCounts
import Daf.TextSlices
import Daf.HexText
import Daf.ByteStreams
import Daf.Numerals
import Daf.LogKeys
import Daf.TextLines
import Daf.LogLines
import Daf.IdealSignatures
import Daf.SignedPayloads
import Daf.SecretRotation
import Daf.RotationDue
import Daf.GraceArchive
import Daf.PeerTracker
import Daf.ShutdownSignal
import Daf.RetentionSweep
import Daf.AlternatingRuns
import Daf.PingPong
import Daf.DepthFirstOrder
import Daf.RoleOrder
import Daf.EpisodeRecords
import Daf.ProcessAdapter
import Daf.ProviderEvents
import Daf.Disagreements
import Daf.SimpleTemplates
import Daf.Assignments
import Daf.ConfigModules
import Daf.Buckets
import Daf.RouteTable
import Daf.Rotation
import Daf.GroupSelection
import Daf.ConversationStates
import Daf.Sprints
import Daf.Layers
import Daf.MissionLayers
import Daf.Chunks
import Daf.SprintPlans
import Daf.VaultReferences
import Daf.MiddlewareStacks
import Daf.VaultSafe
import Daf.VaultContents
import Daf.VaultEquivalence
import Daf.WireGrammar
import Daf.WireResync
import Daf.Cascades
import Daf.GraphSkips
import Daf.GraphAssembly
import Daf.WireGraphs
import Daf.Traversals
import Daf.GraphWalker
import Daf.GraphSubgraph
import Daf.LongestPaths
import Daf.CriticalPath
import Daf.WavePlans
import Daf.TaskSlots
import Daf.MessageRouter
import Daf.MissionSlots
