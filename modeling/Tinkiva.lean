import Tinkiva.Manager.Leases
import Tinkiva.Manager.Capacity
import Tinkiva.Manager.Coherence
import Tinkiva.Manager.Idle
import Tinkiva.Manager.Unlinking
import Tinkiva.Manager.Victims
import Tinkiva.Manager.Refusals
import Tinkiva.Manager.Rollback
import Tinkiva.Manager.Shutdown
import Tinkiva.Manager.OpenPools
import Tinkiva.Manager.Lifecycle
import Tinkiva.Manager.Progress
import Tinkiva.Manager.CallSteps
import Tinkiva.Manager.Counters
import Tinkiva.Manager.Tenants
import Tinkiva.Manager.Resources
import Tinkiva.Manager.Stats
import Tinkiva.Environment
import Tinkiva.Metrics.Cumulative
import Tinkiva.Metrics.Render
import Tinkiva.Api.Batch
import Tinkiva.Api.Autocommit
import Tinkiva.Api.ReadOnly
import Tinkiva.Api.Effects
import Tinkiva.Api.Format
import Tinkiva.Api.RoundTrip
import Tinkiva.Api.Auth
import Tinkiva.Api.Observe
import Tinkiva.Api.Serial
