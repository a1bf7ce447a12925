import FluxFast.Theory.OrderedMap
import FluxFast.Theory.Runs
import FluxFast.Core.Protocol
import FluxFast.Core.StoreEntries
import FluxFast.Core.ResourceEpochs
import FluxFast.Core.Transport
import FluxFast.Core.PageCache
import FluxFast.Core.Prefetch
import FluxFast.Core.LiveManager
import FluxFast.Core.Resources
import FluxFast.Core.Router
import FluxFast.Core.System
import FluxFast.Core.Steps
import FluxFast.Core.LiveInvariant
import FluxFast.Core.LiveGap
import FluxFast.Core.Ledger
import FluxFast.Core.Turns
import FluxFast.Core.Calls
import FluxFast.Core.Authority
import FluxFast.Core.Serving
import FluxFast.Core.Coverage
import FluxFast.Core.CoverageSteps
import FluxFast.Core.CoverageStarts
import FluxFast.Core.Orphans
import FluxFast.Core.ResourceSteps
import FluxFast.Core.StoreInvariant
import FluxFast.Theory.Leases
import FluxFast.Theory.Double
import FluxFast.Server.MemoryCache
import FluxFast.Server.MemoryCacheInvariant
import FluxFast.Theory.PercentEncoding
import FluxFast.Server.Scope
import FluxFast.Server.RedisKeyspace
import FluxFast.Server.LiveTopic
import FluxFast.Server.LiveBroker
import FluxFast.Server.LiveIsolation
import FluxFast.Theory.Redis
import FluxFast.Server.RedisCache
import FluxFast.Server.RedisCacheIndex
import FluxFast.Server.RedisCacheHeld
import FluxFast.Server.RedisCacheScripts
import FluxFast.Server.RedisCluster
import FluxFast.Server.RedisCacheCodec
import FluxFast.Server.CacheAgreement
import FluxFast.Theory.WebUrl
import FluxFast.Theory.DotSegments
import FluxFast.Core.BackendTarget
import FluxFast.Core.UriComponent
import FluxFast.Theory.Metered
import FluxFast.Validation.Values
import FluxFast.Validation.Plan
import FluxFast.Validation.Evaluate
import FluxFast.Validation.LargerLimits
import FluxFast.Theory.TextDecoder
import FluxFast.Core.SseParser
import FluxFast.Core.SseFrames
import FluxFast.Core.SseChunks
import FluxFast.Core.PageCacheInvariant
import FluxFast.Server.BrokerDelivery
import FluxFast.Server.BrokerRuns
import FluxFast.Server.PyText
import FluxFast.Server.Headers
import FluxFast.Server.KeyHeaders
import FluxFast.Core.HeldValues
import FluxFast.Core.LoadsUnderWay
import FluxFast.Core.LoadAbort
import FluxFast.Theory.Json
import FluxFast.Theory.Utf16
import FluxFast.Theory.JsonText
import FluxFast.Theory.Base64
import FluxFast.Server.PyJson
import FluxFast.Theory.Utf8
import FluxFast.Core.KnownVersions
import FluxFast.Server.KnownHeader
import FluxFast.Core.JsJson
import FluxFast.Core.LiveProtocol
import FluxFast.Server.LiveWire
import FluxFast.Core.PageProtocol
import FluxFast.Server.PageWire
import FluxFast.Core.EpochHistory
import FluxFast.Theory.Pieces
import FluxFast.Validation.Ipv6
import FluxFast.Core.PrefetchRuns
import FluxFast.Core.Mutation
import FluxFast.Server.MutationWire
import FluxFast.Theory.EcmaRegex
import FluxFast.Validation.PatternGuard
import FluxFast.Server.LiveStream
import FluxFast.Server.LiveStreamBrokers
import FluxFast.Theory.Answerable
import FluxFast.Validation.Reports
import FluxFast.Validation.PlanGraph
import FluxFast.Validation.PlanBounds
import FluxFast.Validation.PlanReading
import FluxFast.Validation.PlanWalks
import FluxFast.Theory.DepthFirst
import FluxFast.Validation.FieldPath
import FluxFast.Server.ValidationLocations
import FluxFast.Theory.Templates
import FluxFast.Codegen.RouteUrls
import FluxFast.Theory.CanonicalJson
import FluxFast.Server.ResourceVersions
import FluxFast.Theory.FileTree
import FluxFast.Codegen.Generate
import FluxFast.Codegen.CleanGeneration
import FluxFast.Codegen.ManifestSnapshot
import FluxFast.Theory.Exceptions
import FluxFast.Codegen.FaithfulSnapshot
import FluxFast.Codegen.SchemaManifest
import FluxFast.Codegen.ManifestFaithful
import FluxFast.Theory.Markers
import FluxFast.Setup.AgentBlock
import FluxFast.React.HydrationDocument
import FluxFast.Theory.Asking
import FluxFast.Server.Supervisor
import FluxFast.Validation.DeepEqual
import FluxFast.Setup.NextConfig
import FluxFast.Theory.JsonChecked
import FluxFast.Theory.JsonNumbers
import FluxFast.Server.RedisCachePayload
import FluxFast.Server.Devtools
import FluxFast.Core.ServerTrace
import FluxFast.Server.TraceHeader
import FluxFast.Server.Engine
import FluxFast.Server.EngineRuns
import FluxFast.Server.EngineFreshness
