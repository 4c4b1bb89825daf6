import BlessStar.Gate.Proofs.KeyOrder
import BlessStar.Gate.Proofs.RuleEnforcement
import BlessStar.Runtime.Proofs.MemoryPoolSafety
import BlessStar.Runtime.Proofs.PoolSlots
import BlessStar.Runtime.Proofs.PoolTickets
import BlessStar.Runtime.Proofs.PipelineRefs
import BlessStar.Runtime.Proofs.ExecutorJobs
import BlessStar.State.Proofs.Snapshots
import BlessStar.State.Proofs.EventDelivery
import BlessStar.Session.Proofs.WriteWindows
import BlessStar.Session.Proofs.NotifyFlush
import BlessStar.Schema.Proofs.Soundness
import BlessStar.Schema.Proofs.Draft07RoundTrip
import BlessStar.Schema.Proofs.ExpressionMeaning
import BlessStar.Persistence.Proofs.IoFlush
import BlessStar.Persistence.Proofs.ManifestDurability
import BlessStar.Persistence.Proofs.StoreSafety
import BlessStar.Persistence.Proofs.WalTorn
import BlessStar.Persistence.Proofs.ReaderReloads
import BlessStar.Sdk.Proofs.PersistRoundTrip
import BlessStar.Sdk.Proofs.ReaderTransparency
import BlessStar.Sdk.Proofs.EditorWindows
import BlessStar.Sdk.Proofs.CommitHonesty
import BlessStar.Convert.Proofs.JsonRoundTrip
import BlessStar.Convert.Proofs.TomlRoundTrip
import BlessStar.Convert.Proofs.YamlDistinctions
import BlessStar.Convert.Proofs.IniRoundTrip
import BlessStar.Sdk.Proofs.SchemaFollows
import BlessStar.Persistence.Proofs.FailedAppend
import BlessStar.Persistence.Proofs.WalBounds
import BlessStar.Persistence.Proofs.OrphanBatches
import BlessStar.Persistence.Proofs.CommitFailures
import BlessStar.Persistence.Proofs.WatchCompleteness
import BlessStar.Assistant.Proofs.EvidenceBalance
import BlessStar.Blockly.Proofs.VisualEditing
import BlessStar.Business.Proofs.CutManifests
import BlessStar.Persistence.Proofs.PurgeRuns
import BlessStar.Session.Proofs.SnapshotLists
import BlessStar.State.Proofs.WatchModes
import BlessStar.Runtime.AsyncQueue
import BlessStar.Sdk.PathCheckpoint
import BlessStar.Gate.ChainMemory
import BlessStar.Sdk.SessionGates
import BlessStar.Sdk.AgentIndex
import BlessStar.Sdk.MemAuditLog
import BlessStar.Sdk.ReaderHash
import BlessStar.Sdk.PolicyRules
import BlessStar.Sdk.Proofs.SchemaPages
import BlessStar.Orchestration.Proofs.PoolVerdict
import BlessStar.Ir.Resolver
import BlessStar.Registry.Proofs.Subtree
import BlessStar.Runtime.NestedPipeline
import BlessStar.Runtime.Proofs.PluginIndexes
import BlessStar.Sdk.FieldIndex
import BlessStar.Workspace.Build
import BlessStar.Convert.Proofs.DerivedSchema
import BlessStar.Assistant.Intent
import BlessStar.Business.VersionCheck
import BlessStar.Codegen.ConfigNames
import BlessStar.Gate.FactoryBridge
import BlessStar.Assistant.AdaptiveIndex
import BlessStar.UiMap.Proofs.FirstControls
import BlessStar.Persistence.Proofs.DamagedRecords
import BlessStar.Persistence.Proofs.StoreRevisions
import BlessStar.Persistence.Sidecar
import BlessStar.Gate.Proofs.StoredGates
