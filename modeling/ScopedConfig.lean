import ScopedConfig.Settings.Json
import ScopedConfig.Store.Chain
import ScopedConfig.Proofs.Scopes
import ScopedConfig.Proofs.Sessions
import ScopedConfig.Proofs.RoundTrip
import ScopedConfig.Proofs.Ledger
import ScopedConfig.Proofs.Depiction
import ScopedConfig.Proofs.Staging
import ScopedConfig.Proofs.Catalogs
import ScopedConfig.Proofs.Reads
import ScopedConfig.Proofs.Attempts
import ScopedConfig.Proofs.Isolation
import ScopedConfig.Proofs.Calls
import ScopedConfig.Proofs.System
import ScopedConfig.Proofs.Linearization
import ScopedConfig.Proofs.Coherence
import ScopedConfig.Proofs.Invariants
import ScopedConfig.Proofs.Parameters
import ScopedConfig.Proofs.Lookups
import ScopedConfig.Proofs.Batches
import ScopedConfig.Proofs.Execution
import ScopedConfig.Proofs.Permanence
import ScopedConfig.Proofs.Histories
import ScopedConfig.Proofs.Snapshots
import ScopedConfig.Proofs.SingleCommits
import ScopedConfig.Proofs.Failures
import ScopedConfig.Proofs.Contention
import ScopedConfig.Proofs.Visibility
import ScopedConfig.Proofs.LateFailures
import ScopedConfig.Proofs.Visits
import ScopedConfig.Proofs.Phases
import ScopedConfig.Proofs.ByteOrder
import ScopedConfig.Proofs.KeyLayout
import ScopedConfig.Proofs.ScopeSameness
import ScopedConfig.Proofs.StoredForms
import ScopedConfig.Proofs.Transactions
import ScopedConfig.Proofs.Writes
import ScopedConfig.Proofs.Fallbacks
import ScopedConfig.Proofs.Publication
import ScopedConfig.Proofs.CommittedSets
import ScopedConfig.Proofs.PrefixReads
import ScopedConfig.Proofs.Chains
import ScopedConfig.Proofs.Filters
import ScopedConfig.Proofs.Inclusion
import ScopedConfig.Proofs.Listings
import ScopedConfig.Proofs.Foresight
import ScopedConfig.Proofs.Rehearsal
import ScopedConfig.Proofs.Commuting
import ScopedConfig.Proofs.AlikeSessions
import ScopedConfig.Proofs.Respelling
import ScopedConfig.Proofs.StrayKeys
import ScopedConfig.Proofs.Backoff
import ScopedConfig.Proofs.Groups
import ScopedConfig.Proofs.ChainResults
