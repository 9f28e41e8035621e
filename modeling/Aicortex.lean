import Aicortex.Lib.Ordered
import Aicortex.Lib.Dominance
import Aicortex.Lib.Outcome
import Aicortex.Lib.Tables
import Aicortex.Lib.Paging
import Aicortex.Lib.Tally
import Aicortex.Lib.StaleRuns
import Aicortex.Lib.Json
import Aicortex.Lib.Selection
import Aicortex.Lib.Keyset
import Aicortex.Text
import Aicortex.CivilTime
import Aicortex.Claims
import Aicortex.History
import Aicortex.Windows
import Aicortex.Projection
import Aicortex.ProjectionFacts
import Aicortex.ProjectionStability
import Aicortex.SlotResolution
import Aicortex.Registry
import Aicortex.Walk
import Aicortex.Memories
import Aicortex.CaptureGate
import Aicortex.ClaimGate
import Aicortex.PlainChains
import Aicortex.Overrides
import Aicortex.Schema
import Aicortex.ClaimRepo
import Aicortex.ClaimTables
import Aicortex.ClaimPages
import Aicortex.ClaimPaging
import Aicortex.ClaimResidue
import Aicortex.MemoryRepo
import Aicortex.Erasure
import Aicortex.Store
import Aicortex.DerivedMarks
import Aicortex.ScopeErasure
import Aicortex.ClaimAdmission
import Aicortex.Registration
import Aicortex.RegistryRows
import Aicortex.Lifecycle
import Aicortex.LifecycleFacts
import Aicortex.RecordAgreement
import Aicortex.SupersessionChains
import Aicortex.CounterAccuracy
import Aicortex.Deduplication
import Aicortex.MergedDerivations
import Aicortex.IdText
import Aicortex.Envelope
import Aicortex.EmbeddingTables
import Aicortex.Scan
import Aicortex.ModelRegistry
import Aicortex.ClaimSequence
import Aicortex.ExpiryDeadlines
import Aicortex.Chunking
import Aicortex.Provider
import Aicortex.Pipeline
import Aicortex.PipelineFacts
import Aicortex.ErasureFinality
import Aicortex.DerivativeWholeness
import Aicortex.RevisionDrops
import Aicortex.EmbeddingReadiness
import Aicortex.ErasureAccounts
import Aicortex.ErasureDecisions
import Aicortex.ErasureSettlement
import Aicortex.CivilText
import Aicortex.ClaimWire
import Aicortex.Lib.Delimited
import Aicortex.ScopeIdentity
import Aicortex.Disagreement
import Aicortex.Uncounted
import Aicortex.ExactTimes
import Aicortex.Rescoring
import Aicortex.Cursors
import Aicortex.MemoryListing
import Aicortex.Lib.Lines
import Aicortex.Normalization
import Aicortex.Narrowing
import Aicortex.RepeatMerges
import Aicortex.Storable
import Aicortex.Widening
import Aicortex.WallTimes
import Aicortex.HiddenSecrets
import Aicortex.Lib.Offsets
import Aicortex.ChunkSpans
import Aicortex.ChunkCover
import Aicortex.ChunkOverlap
import Aicortex.Lib.Rekeyed
import Aicortex.Renaming
import Aicortex.IdNeutrality
import Aicortex.Lib.FixedPoint
import Aicortex.NormCheck
import Aicortex.Lib.LongestMatch
import Aicortex.Wordpiece
import Aicortex.Segmentation
import Aicortex.StaticModel
import Aicortex.CaptureApi
import Aicortex.CaptureCalls
import Aicortex.CaptureDecisions
import Aicortex.CaptureReplays
import Aicortex.Lib.Parts
import Aicortex.ScopesAlone
import Aicortex.CaptureProgress
import Aicortex.CaptureOutcomes
import Aicortex.Lib.Framing
import Aicortex.ScopesApart
import Aicortex.Lib.Disks
import Aicortex.Endpoints
import Aicortex.Provisioning
import Aicortex.ProvisionedFiles
import Aicortex.ProvisionedRuns
import Aicortex.Reembedding
import Aicortex.Lib.Broadcast
import Aicortex.EventStreams
import Aicortex.Lib.Capped
import Aicortex.Deployment
import Aicortex.DeploymentFigures
import Aicortex.EmbeddingConfig
import Aicortex.Preflight
import Aicortex.Lib.Attempts
import Aicortex.Drains
import Aicortex.DrainRuns
import Aicortex.AttemptLedger
import Aicortex.AttemptBudgets
