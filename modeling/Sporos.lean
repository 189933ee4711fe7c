import Sporos.Matcher.CheckedRelease
import Sporos.Matcher.Episodes
import Sporos.Matcher.HungarianRuns
import Sporos.Matcher.ManifestPaths
import Sporos.Matcher.PerfectCopy
import Sporos.Matcher.Titles
import Sporos.Service.AcceptedPaths
import Sporos.Service.BackfillRuns
import Sporos.Service.CancelRuns
import Sporos.Service.Config
import Sporos.Service.CrossPlan
import Sporos.Service.Enrichment
import Sporos.Service.EventLog
import Sporos.Service.FinishedInjection
import Sporos.Service.FullUpdates
import Sporos.Service.Lease
import Sporos.Service.ListingRuns
import Sporos.Service.MainDataStream
import Sporos.Service.ManifestRefresh
import Sporos.Service.ObserveLoop
import Sporos.Service.Padding
import Sporos.Service.PathRewrites
import Sporos.Service.PlanLinks
import Sporos.Service.Preflight
import Sporos.Service.ProjectionRepair
import Sporos.Service.RateLimit
import Sporos.Service.ReconcileRequests
import Sporos.Service.Retry
import Sporos.Service.SearchSummaries
import Sporos.Service.TemplateOutput
import Sporos.Service.TorrentPaths
import Sporos.Service.TorznabOrder
import Sporos.Vendor.BencodeWalkers
import Sporos.Vendor.Deliveries
import Sporos.Vendor.ProviderQueues
import Sporos.Vendor.ProviderValues
import Sporos.Vendor.Replays
