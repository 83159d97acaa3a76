import PgRos2.Lib.Table
import PgRos2.Serde

/-!
# The extension's tables

What `CREATE EXTENSION` makes and `DROP EXTENSION` takes away: the rows of one installation, under
the OID it was given. Time is one clock in microseconds, for statement timestamps and for instants.
-/

namespace PgRos2

open Lib

abbrev Time := ℤ

def millis (n : ℕ) : Time := n * 1000

def seconds (n : ℕ) : Time := n * 1000000

abbrev Oid := ℕ

/-- A row of `worker_status` or `parameter_status`, under its only key. -/
structure Status where
  workerPid : ℕ
  lastChecked : Time
  lastRefreshed : Option Time
  lastError : Option String
  deriving DecidableEq

/-- The upsert both status tables are written with. -/
def upsertStatus (status : Option Status) (pid : ℕ) (now : Time) (changed : Bool)
    (error : Option String) : Status where
  workerPid := pid
  lastChecked := now
  lastRefreshed := if changed then some now else status.bind Status.lastRefreshed
  lastError := error

/-- A row of `nodes` or `topics`, its first two columns. -/
abbrev Name := String × String

/-- A row of `ros2.subscriptions` but for its topic. `keepaliveAt` is none at an infinity. -/
structure Subscription where
  requestedType : Option String
  messageType : Option String
  registeredAt : Time
  keepaliveAt : Option Time
  lastMessageAt : Option Time
  lastError : Option String
  deriving DecidableEq

/-- A row of `ros2.messages` but for its topic. -/
structure Message where
  sequence : ℕ
  receivedAt : Time
  message : Value

/-- A parameter as the worker read it, and a row of `ros2.parameters` but for its time. -/
structure Parameter where
  node : String
  namespaceName : String
  name : String
  kind : String
  value : Value

/-- The primary key of `ros2.parameters`. -/
def Parameter.key (p : Parameter) : String × String × String := (p.node, p.namespaceName, p.name)

/-- `==` on parameters. -/
def Parameter.eq (p p' : Parameter) : Bool :=
  p.key = p'.key && p.kind = p'.kind && p.value.eq p'.value

/-- `==` on slices of parameters. -/
def Parameter.eqAll : List Parameter → List Parameter → Bool
  | [], [] => true
  | p :: ps, p' :: ps' => p.eq p' && eqAll ps ps'
  | _, _ => false

/-- One installation of the extension. -/
structure Extension where
  oid : Oid
  nodes : List (Name × Time)
  topics : List (Name × Time)
  workerStatus : Option Status
  parameters : List (Parameter × Time)
  parameterStatus : Option Status
  subscriptions : Table String Subscription
  messages : Table String Message

namespace Extension

/-- What `CREATE EXTENSION` makes. -/
def new (oid : Oid) : Extension := ⟨oid, [], [], none, [], none, ∅, ∅⟩

/-! ## Statements of clients -/

/-- `INSERT INTO subscriptions`; a topic that is there is a conflict. -/
def insertSubscription (ext : Extension) (topic : String) (requestedType : Option String)
    (registeredAt : Time) (keepaliveAt : Option Time) : Extension :=
  if topic ∈ ext.subscriptions then ext
  else { ext with
    subscriptions := ext.subscriptions.insert topic
      ⟨requestedType, none, registeredAt, keepaliveAt, none, none⟩ }

def deleteSubscription (ext : Extension) (topic : String) : Extension :=
  { ext with subscriptions := ext.subscriptions.erase topic }

/-- `UPDATE subscriptions SET keepalive_at`. -/
def updateKeepalive (ext : Extension) (topic : String) (keepaliveAt : Option Time) : Extension :=
  { ext with
    subscriptions := ext.subscriptions.update topic fun row => { row with keepaliveAt } }

/-! ## Statements of the worker -/

/-- `SET message_type = $2, last_error = NULL`. -/
def setMessageType (ext : Extension) (topic kind : String) : Extension :=
  { ext with
    subscriptions := ext.subscriptions.update topic fun row =>
      { row with messageType := some kind, lastError := none } }

/-- `SET last_error = $2`. -/
def setLastError (ext : Extension) (topic error : String) : Extension :=
  { ext with
    subscriptions := ext.subscriptions.update topic fun row =>
      { row with lastError := some error } }

/-- `SET last_message_at = statement_timestamp(), last_error = NULL`. -/
def setLastMessage (ext : Extension) (topic : String) (now : Time) : Extension :=
  { ext with
    subscriptions := ext.subscriptions.update topic fun row =>
      { row with lastMessageAt := some now, lastError := none } }

def deleteMessage (ext : Extension) (topic : String) : Extension :=
  { ext with messages := ext.messages.erase topic }

/-- The upsert into `messages`; an SQL error where `jsonb` refuses the value. -/
def upsertMessage (ext : Extension) (topic : String) (sequence : ℕ) (now : Time) (value : Value) :
    Option Extension :=
  value.jsonb.map fun message =>
    { ext with messages := ext.messages.insert topic ⟨sequence, now, message⟩ }

/-- `INSERT INTO parameters`; an SQL error where the key is there or the index refuses it, or where
`jsonb` refuses the value. -/
def insertParameter [Postgres] (ext : Extension) (now : Time) (p : Parameter) : Option Extension :=
  if (p.key ∈ ext.parameters.map fun row => row.1.key) ∨ Postgres.indexes p.key = false then none
  else p.value.jsonb.map fun value =>
    { ext with parameters := ext.parameters ++ [({ p with value }, now)] }

end Extension

end PgRos2
