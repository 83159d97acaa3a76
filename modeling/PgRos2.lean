import PgRos2.Lib.Edges
import PgRos2.Lib.Ensures
import PgRos2.Lib.Json
import PgRos2.Lib.JsonParse
import PgRos2.Lib.JsonPlain
import PgRos2.Lib.Ledger
import PgRos2.Lib.Mirror
import PgRos2.Lib.Newest
import PgRos2.Lib.Register
import PgRos2.Lib.Rounding
import PgRos2.Lib.Run
import PgRos2.Lib.Streak
import PgRos2.Lib.Table
import PgRos2.Message
import PgRos2.Serde
import PgRos2.Encode
import PgRos2.Decode
import PgRos2.Tree
import PgRos2.Overlay
import PgRos2.Numbers
import PgRos2.Database
import PgRos2.Naming
import PgRos2.Publish
import PgRos2.Graph
import PgRos2.Parameters
import PgRos2.Messages
import PgRos2.Receive
import PgRos2.Worker
import PgRos2.Registry
import PgRos2.Log
import PgRos2.Reference
import PgRos2.Proofs.Encode
import PgRos2.Proofs.Payload
import PgRos2.Proofs.Receive
import PgRos2.Proofs.Decode
import PgRos2.Proofs.Serde
import PgRos2.Proofs.Numbers
import PgRos2.Proofs.RoundTrip
import PgRos2.Proofs.Publish
import PgRos2.Proofs.Database
import PgRos2.Proofs.Worker
import PgRos2.Proofs.Saved
import PgRos2.Proofs.Graph
import PgRos2.Proofs.Refresh
import PgRos2.Proofs.Parameters
import PgRos2.Proofs.Reconcile
import PgRos2.Proofs.Registry
import PgRos2.Proofs.Agreement
import PgRos2.Proofs.Expiry
import PgRos2.Proofs.Cached
import PgRos2.Proofs.Blind
import PgRos2.Proofs.Limit
import PgRos2.Proofs.Distinct
import PgRos2.Proofs.Polling
import PgRos2.Proofs.Topics
import PgRos2.Proofs.Messaging
import PgRos2.Proofs.Text
import PgRos2.Proofs.Newest
import PgRos2.Proofs.Naming
import PgRos2.Proofs.Nesting
import PgRos2.Proofs.Sightings
import PgRos2.Proofs.Interval
import PgRos2.Proofs.InForce
import PgRos2.Proofs.Frame
import PgRos2.Proofs.Statuses
import PgRos2.Proofs.Log
import PgRos2.Proofs.Pace
import PgRos2.Proofs.PollPace
import PgRos2.Proofs.Mailbox
import PgRos2.Proofs.Survival
import PgRos2.Proofs.Preserved
import PgRos2.Proofs.Rows
import PgRos2.Proofs.Republish
import PgRos2.Proofs.Faults
import PgRos2.Proofs.Notifications
import PgRos2.Proofs.Dated
import PgRos2.Proofs.Told
import PgRos2.Proofs.Succeeds
import PgRos2.Proofs.LastError
