import HullCi.Base.Table
import HullCi.Base.Run
import HullCi.Proto.Text
import HullCi.Proto.Contract
import HullCi.Control.Model
import HullCi.Control.Timeouts
import HullCi.Control.Graph
import HullCi.Control.Aggregate
import HullCi.Control.Phases
import HullCi.Control.Verdicts
import HullCi.Base.Gap
import HullCi.Control.Fairshare
import HullCi.Control.FairRuns
import HullCi.Control.FairSelection
import HullCi.Control.FairService
import HullCi.Control.Claims
import HullCi.Control.Journal
import HullCi.Control.Store
import HullCi.System.Control
import HullCi.System.World
import HullCi.System.Sections
import HullCi.System.StepClaims
import HullCi.System.Effects
import HullCi.System.Acks
import HullCi.System.Debt
import HullCi.System.Senders
import HullCi.System.LastReads
import HullCi.System.Orphans
import HullCi.System.ReadyPlaces
import HullCi.Proxy.Brokered
import HullCi.Secrets.Vouching
import HullCi.Secrets.Interrupted
import HullCi.Secrets.Masking
import HullCi.Proxy.Desk
import HullCi.Proxy.Visits
import HullCi.Proxy.Glass
import HullCi.Proxy.Slots
import HullCi.Control.Progress
import HullCi.Base.Walk
import HullCi.Base.Wildcard
import HullCi.Control.FairBooks
import HullCi.Control.FairCaps
import HullCi.Control.Eviction
import HullCi.Control.FairRefusals
import HullCi.Control.LogKeys
import HullCi.Fetch.Contained
import HullCi.Fetch.Collisions
import HullCi.Fetch.Digest
import HullCi.Fetch.Globs
import HullCi.Fetch.Addresses
import HullCi.Fetch.Digester
import HullCi.Fetch.Segments
import HullCi.Fetch.Redaction
import HullCi.Fetch.Links
import HullCi.Fetch.Bounds
import HullCi.Fetch.Order
import HullCi.Fetch.Pins
import HullCi.Fetch.Retention
import HullCi.Fetch.Reclaim
import HullCi.Fetch.Shelter
import HullCi.Fetch.Sweeps
import HullCi.Server.LocalRefines
import HullCi.Server.Workspaces
import HullCi.Server.Accounting
import HullCi.Fetch.SharingRuns
import HullCi.Plan.Dag
import HullCi.Plan.Timeouts
import HullCi.Plan.Nesting
import HullCi.Plan.Statements
import HullCi.Plan.Ladders
import HullCi.Secrets.Binding
import HullCi.Secrets.Rotation
import HullCi.Secrets.Delivery
import HullCi.Secrets.Replicas
import HullCi.Proxy.Hops
import HullCi.Proxy.Doors
import HullCi.Proxy.Refusals
import HullCi.Proxy.Leases
import HullCi.Proxy.Rates
import HullCi.Proxy.Covering
import HullCi.Proxy.Config
import HullCi.Proxy.Contexts
import HullCi.Node.Delivered
import HullCi.Node.Pool
import HullCi.Node.Capture
import HullCi.Node.Adopt
import HullCi.Node.Runners
import HullCi.Node.Reports
import HullCi.Server.Materialize
import HullCi.Server.Membership
import HullCi.Server.Admin
import HullCi.System.OneTree
import HullCi.Control.Fate
import HullCi.Control.Memo
import HullCi.Control.MemoStore
import HullCi.Control.Renames
import HullCi.Control.Turns
import HullCi.Control.LeaseClock
import HullCi.Control.Reasons
import HullCi.Control.Summaries
import HullCi.Proto.Lines
import HullCi.Secrets.KeyRuns
import HullCi.Secrets.KeyRefines
import HullCi.Base.Disk
import HullCi.Server.FileJournal
import HullCi.Server.JournalRuns
import HullCi.Control.MemoWorld
import HullCi.Control.MemoRuns
