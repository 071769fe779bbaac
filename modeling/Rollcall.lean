import Rollcall.Channel
import Rollcall.Fleet
import Rollcall.Json.Reader
import Rollcall.Json.Writer
import Rollcall.Proofs.Balance.Conservation
import Rollcall.Proofs.Balance.Proportion
import Rollcall.Proofs.Balance.Streams
import Rollcall.Proofs.Catalog.RoundTrip
import Rollcall.Proofs.Channel.Convergence
import Rollcall.Proofs.Channel.Difference
import Rollcall.Proofs.Channel.Usable
import Rollcall.Proofs.Client.Addressing
import Rollcall.Proofs.Client.Discovery
import Rollcall.Proofs.Client.Failure
import Rollcall.Proofs.Client.Patience
import Rollcall.Proofs.Client.Renewal
import Rollcall.Proofs.Client.Retention
import Rollcall.Proofs.Client.TimeToLive
import Rollcall.Proofs.Directory.History
import Rollcall.Proofs.Directory.Lifecycle
import Rollcall.Proofs.Directory.Notices
import Rollcall.Proofs.Directory.Results
import Rollcall.Proofs.Endpoint
import Rollcall.Proofs.Feed.Freshness
import Rollcall.Proofs.Fleet.Desertion
import Rollcall.Proofs.Registry.History
import Rollcall.Proofs.Registry.Lifecycle
import Rollcall.Proofs.Registry.Mirror
import Rollcall.Proofs.Registry.Notices
import Rollcall.Proofs.Registry.Recording
import Rollcall.Proofs.Registry.Resume
import Rollcall.Proofs.Resolver.Custody
import Rollcall.Proofs.Resolver.Refinement
import Rollcall.Proofs.Resolver.Script
import Rollcall.Proofs.Ring.Canonical
import Rollcall.Proofs.Ring.Cardinality
import Rollcall.Proofs.Ring.Churn
import Rollcall.Proofs.Ring.Indexed
import Rollcall.Proofs.Ring.Lookup
import Rollcall.Proofs.Ring.Removal
import Rollcall.Proofs.Ring.Selection
import Rollcall.Proofs.Ring.Subset
import Rollcall.Proofs.Selector.Filtering
import Rollcall.Proofs.Selector.Reapplying
import Rollcall.Proofs.Target
import Rollcall.Proofs.Uri.Rejoining
import Rollcall.Registry
import Rollcall.Settings
import Rollcall.Target
