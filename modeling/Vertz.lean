import Vertz.Proofs.MassWrites
import Vertz.Proofs.Denotation
import Vertz.Proofs.HiddenColumns
import Vertz.Proofs.GraphRuns
import Vertz.Proofs.WalletRuns
import Vertz.Proofs.Availability
import Vertz.Proofs.FailedMutations
import Vertz.Proofs.OptimisticLayers
import Vertz.Proofs.BreakerRuns
import Vertz.Proofs.CachedWallet
import Vertz.Proofs.ClosureRuns
import Vertz.Proofs.Hydration
import Vertz.Proofs.ListRegions
import Vertz.Proofs.QueryOrder
import Vertz.Proofs.AccessSet
import Vertz.Proofs.SchedulerRuns
import Vertz.Proofs.LockfileText
import Vertz.Proofs.NodeLookup
import Vertz.Proofs.Resolution
import Vertz.Proofs.CacheRuns
import Vertz.Proofs.WorkflowRuns
import Vertz.Proofs.StoredHistory
import Vertz.Proofs.LostRows
import Vertz.Proofs.LocalRemoval
import Vertz.Proofs.ModuleRuns
import Vertz.Proofs.EditSlices
import Vertz.Proofs.FlushErrors
import Vertz.Proofs.ThrowingComputeds
import Vertz.Proofs.PropsMeaning
import Vertz.Proofs.EvictionRuns
import Vertz.Proofs.AccessEvents
import Vertz.Proofs.FormFields
import Vertz.Proofs.QueryKeys
import Vertz.Proofs.InFlight
import Vertz.Proofs.RoundTrip
import Vertz.Proofs.RouteMatching
import Vertz.Proofs.Casing
import Vertz.Proofs.ListCounts
import Vertz.Proofs.BatchInserts
import Vertz.Proofs.TaggedText
import Vertz.Proofs.RlsDiffs
import Vertz.Proofs.DialogRuns
import Vertz.Proofs.EffectiveLimits
import Vertz.Proofs.TenantChains
import Vertz.Proofs.WorkspaceCycles
import Vertz.Proofs.AffectedPackages
import Vertz.Proofs.Dedup
import Vertz.Proofs.EncodedSets
import Vertz.Proofs.BillingPeriods
import Vertz.Proofs.CacheEviction
import Vertz.Proofs.CacheKeys
import Vertz.Proofs.Intersections
import Vertz.Proofs.Base32
import Vertz.Proofs.Renumbering
import Vertz.Proofs.ToolConcurrency
import Vertz.Proofs.SharedContexts
