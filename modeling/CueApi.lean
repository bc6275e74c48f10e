import CueApi.Library.ReadCommitted
import CueApi.Library.Interleaving
import CueApi.Library.Trace
import CueApi.Library.Recorded
import CueApi.Library.Noted
import CueApi.Library.Blind
import CueApi.Library.Expiring
import CueApi.Library.Solo
import CueApi.Library.Always
import CueApi.Library.Guarded
import CueApi.Library.Machine
import CueApi.Library.Paging
import CueApi.Library.Pending
import CueApi.Library.Session
import CueApi.Library.Snapshot
import CueApi.Library.Bulk
import CueApi.Library.JsonText
import CueApi.Library.Batching
import CueApi.Library.SlidingWindow
import CueApi.Library.CircuitBreaker
import CueApi.Library.Dictionary
import CueApi.Library.TextColumns
import CueApi.Library.Pages
import CueApi.Library.Separated
import CueApi.Library.FixedWindow
import CueApi.Scheduler.Tables
import CueApi.Scheduler.World
import CueApi.Scheduler.Poller
import CueApi.Scheduler.Tasks
import CueApi.Scheduler.Requests
import CueApi.Scheduler.System
import CueApi.Scheduler.History
import CueApi.Scheduler.Growth
import CueApi.Scheduler.Effects
import CueApi.Scheduler.Invariants
import CueApi.Scheduler.Cues
import CueApi.Scheduler.Statements
import CueApi.Scheduler.JobProofs
import CueApi.Scheduler.RequestProofs
import CueApi.Scheduler.PollerProofs
import CueApi.Scheduler.SweepProofs
import CueApi.Scheduler.Refinement
import CueApi.Scheduler.Transport
import CueApi.Scheduler.Status
import CueApi.Scheduler.Lease
import CueApi.Scheduler.Delivery
import CueApi.Scheduler.Attempts
import CueApi.Scheduler.Schedule
import CueApi.Scheduler.Outcome
import CueApi.Scheduler.Alone
import CueApi.Scheduler.Backoff
import CueApi.Scheduler.Triggers
import CueApi.Scheduler.Footprint
import CueApi.Scheduler.Window
import CueApi.Scheduler.Enforcement
import CueApi.Scheduler.Edits
import CueApi.Scheduler.EditProofs
import CueApi.Scheduler.Announced
import CueApi.Scheduler.Quota
import CueApi.Scheduler.Tending
import CueApi.Scheduler.Closing
import CueApi.Scheduler.Zombies
import CueApi.Scheduler.Leader
import CueApi.Scheduler.LiveClaim
import CueApi.Scheduler.Verification
import CueApi.Scheduler.WorkerAlerts
import CueApi.Scheduler.ScheduleChecks
import CueApi.Scheduler.Listings
import CueApi.Scheduler.Claimable
import CueApi.Scheduler.FailureAlerts
import CueApi.Accounts.SignIn
import CueApi.Accounts.KeyRotation
import CueApi.Accounts.RateLimit
import CueApi.Agents.Reconcile
import CueApi.Agents.Reported
import CueApi.Outbound.Signing
import CueApi.Outbound.VerifySignature
import CueApi.Outbound.Addresses
import CueApi.Outbound.Headers
import CueApi.Outbound.BlockedAddresses
import CueApi.Usage.ExecutionLimit
import CueApi.Usage.MonthlyCount
import CueApi.Usage.MessageQuota
import CueApi.Messages.Tables
import CueApi.Messages.Calls
import CueApi.Messages.World
import CueApi.Messages.Tasks
import CueApi.Messages.Slots
import CueApi.Messages.Service
import CueApi.Messages.Sending
import CueApi.Messages.Events
import CueApi.Messages.System
import CueApi.Messages.Terminal
import CueApi.Messages.History
import CueApi.Messages.BestEffort
import CueApi.Messages.Growth
import CueApi.Messages.Effects
import CueApi.Messages.Statements
import CueApi.Messages.PushProofs
import CueApi.Messages.InboxProofs
import CueApi.Messages.SweepProofs
import CueApi.Messages.SendProofs
import CueApi.Messages.ReaderProofs
import CueApi.Messages.Refinement
import CueApi.Messages.Lifecycle
import CueApi.Messages.Marks
import CueApi.Messages.Retries
import CueApi.Messages.Idempotency
import CueApi.Messages.SentOnce
import CueApi.Messages.Privacy
import CueApi.Messages.Reports
import CueApi.Messages.Scheduled
import CueApi.Messages.PushAddresses
import CueApi.Messages.Polling
import CueApi.Messages.Listings
import CueApi.Messages.Columns
import CueApi.Events.Stream
import CueApi.Events.Steps
import CueApi.Events.Cycles
import CueApi.Events.Order
import CueApi.Events.Dispatch
import CueApi.Events.Acks
import CueApi.Events.Once
import CueApi.Events.Walks
import CueApi.Events.Isolation
import CueApi.Events.Starvation
import CueApi.Events.Digests
import CueApi.Events.DigestProofs
import CueApi.Events.Partition
import CueApi.Events.Bodies
import CueApi.Events.Breaker
import CueApi.Events.DeliveryIds
import CueApi.Accounts.Limiters
import CueApi.Accounts.Counters
import CueApi.Messages.AuthorizationHook
import CueApi.Scheduler.PayloadChecks
import CueApi.Scheduler.Drain
import CueApi.Agents.DefaultFlip
import CueApi.Agents.Roster
import CueApi.Agents.Attachments
import CueApi.Messages.RetryAfter
import CueApi.Messages.Retention
import CueApi.Middleware.Transparent
import CueApi.Middleware.BodyLimit
import CueApi.Accounts.Entered
import CueApi.Accounts.Revocation
