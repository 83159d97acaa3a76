import PgRos2.Database
import PgRos2.Encode

/-!
# Table-backed subscriptions

`messages.rs`: the live map is made to match `ros2.subscriptions` in two transactions, one that
reads the table and one that writes back, and the newest message of each mailbox goes into
`ros2.messages`. What ROS answers to a subscribe is an argument.
-/

namespace PgRos2

open Lib

/-- One topic's desired state. The idle time is none where `keepalive_at` is an infinity. -/
structure Desired where
  topic : String
  requestedType : Option String
  idle : Option Time

/-- The newest message a subscription produced and has not stored yet. -/
structure Mailbox where
  sequence : ℕ
  pending : Option (ℕ × String)
  error : Option String
  deriving DecidableEq

namespace Mailbox

def empty : Mailbox := ⟨0, none, none⟩

end Mailbox

/-- A live subscription, the byte limit its callback was given and the mailbox it fills. -/
structure Live where
  messageType : String
  limit : ℕ
  mailbox : Mailbox
  deriving DecidableEq

abbrev LiveMap := Table String Live

/-- What ROS answers to a subscribe: the graph as it is when a topic is looked up, whether a type
name parses, and whether the subscription can be created. -/
structure SubscribeAnswers where
  topics : String → Except String (List (String × List String))
  parse : String → Except String Unit
  create : String → String → Except String Unit

/-- Resolve a topic's message type from one graph snapshot. -/
def resolve (answers : SubscribeAnswers) (topic : String) : Except String String := do
  let topics ← answers.topics topic
  match topics.lookup topic with
  | some [kind] => return kind
  | some _ => throw "topic has multiple message types; set requested_type"
  | none => throw s!"topic {topic} has no advertised message type yet"

def subscribe (answers : SubscribeAnswers) (topic : String) (requestedType : Option String)
    (limit : ℕ) : Except String Live := do
  let messageType ← match requestedType with
    | some kind => if kind ≠ "" then .ok kind else resolve answers topic
    | none => resolve answers topic
  answers.parse messageType
  match answers.create topic messageType with
  | .ok _ => return ⟨messageType, limit, .empty⟩
  | .error error => throw (s!"{error} (message packages are resolved from the database server's "
      ++ "AMENT_PREFIX_PATH; start the server with the ROS environment sourced)")

/-- Read the desired subscriptions. -/
def readDesired (ext : Option Extension) (now : Time) : List Desired :=
  match ext with
  | none => []
  | some ext => ext.subscriptions.entries.map fun row =>
    ⟨row.1, row.2.requestedType, row.2.keepaliveAt.map (now - ·)⟩

/-- Whether an entry has been idle for longer than a positive ttl. -/
def Desired.isExpired (ttl : ℕ) (entry : Desired) : Bool :=
  match entry.idle with
  | none => false
  | some idle => 0 < ttl && seconds ttl < idle

/-- What `reconcile` holds between its two transactions: the ttl it read, the topics it wants, the
types and errors of this pass, and the topics that expired or lost their row. -/
structure Pass where
  ttl : ℕ
  wanted : List String
  metadata : List (String × Except String String)
  expired : List String
  removed : List String

/-- The loop over the desired entries. -/
def reconcileEntries (answers : SubscribeAnswers) (ttl limit : ℕ) :
    List Desired → LiveMap → Pass → LiveMap × Pass
  | [], topics, pass => (topics, pass)
  | entry :: desired, topics, pass =>
    if entry.isExpired ttl then
      reconcileEntries answers ttl limit desired (topics.erase entry.topic)
        { pass with expired := pass.expired ++ [entry.topic] }
    else
      let pass := { pass with wanted := pass.wanted ++ [entry.topic] }
      if entry.topic ∈ topics then reconcileEntries answers ttl limit desired topics pass
      else
        match subscribe answers entry.topic entry.requestedType limit with
        | .ok live => reconcileEntries answers ttl limit desired (topics.insert entry.topic live)
            { pass with metadata := pass.metadata ++ [(entry.topic, .ok live.messageType)] }
        | .error error => reconcileEntries answers ttl limit desired topics
            { pass with metadata := pass.metadata ++ [(entry.topic, .error error)] }

/-- `reconcile` up to its write-back: the live map it leaves and what is to be written. -/
def reconcile (answers : SubscribeAnswers) (ttl limit : ℕ) (desired : List Desired)
    (topics : LiveMap) : LiveMap × Pass :=
  let (topics, pass) := reconcileEntries answers ttl limit desired topics ⟨ttl, [], [], [], []⟩
  (topics.retain fun topic _ => pass.wanted.contains topic,
    { pass with removed := topics.keys.filter fun topic => !pass.wanted.contains topic })

/-- Whether the pass has nothing to write. -/
def Pass.isEmpty (pass : Pass) : Bool :=
  pass.metadata.isEmpty && pass.expired.isEmpty && pass.removed.isEmpty

/-- The metadata updates of the write-back. -/
def writeMetadata : List (String × Except String String) → Extension → Extension
  | [], ext => ext
  | (topic, .ok kind) :: metadata, ext => writeMetadata metadata (ext.setMessageType topic kind)
  | (topic, .error error) :: metadata, ext => writeMetadata metadata (ext.setLastError topic error)

/-- The second transaction of `reconcile`. -/
def writeBack (pass : Pass) (ext : Extension) : Extension :=
  let ext := writeMetadata pass.metadata ext
  let ext := (pass.removed ++ pass.expired).foldl Extension.deleteMessage ext
  pass.expired.foldl Extension.deleteSubscription ext

/-- The whole of `reconcile`, when nothing happens between its transactions. A failed read changes
nothing. -/
def reconcileWhole (answers : Except String SubscribeAnswers) (ttl limit : ℕ) (now : Time)
    (ext : Option Extension) (topics : LiveMap) : LiveMap × Option Extension :=
  match answers with
  | .error _ => (topics, ext)
  | .ok answers =>
    let (topics, pass) := reconcile answers ttl limit (readDesired ext now) topics
    (topics, if pass.isEmpty then ext else ext.map (writeBack pass))

variable [Rclrs]

/-- The callback of a subscription to a topic, run on a message. -/
def Live.callback {T : MessageType} (live : Live) (topic : String) (message : T.Val) : Live :=
  let sequence := live.mailbox.sequence + 1
  match payload topic live.messageType sequence message live.limit with
  | .ok text =>
    { live with mailbox := { live.mailbox with sequence, pending := some (sequence, text) } }
  | .error error => { live with mailbox := { live.mailbox with sequence, error := some error } }

/-- A mailbox with what it had to write taken out. -/
def Live.drained (live : Live) : Live :=
  { live with mailbox := { live.mailbox with pending := none, error := none } }

/-- The messages `flush` writes: every pending payload that parses. -/
def flushMessages (topics : LiveMap) : List (String × ℕ × Value) :=
  topics.entries.filterMap fun entry => do
    let (sequence, text) ← entry.2.mailbox.pending
    let value ← Value.fromStrLimited text
    return (entry.1, sequence, value)

/-- The errors a mailbox contributes: that its payload does not parse, and that a message could
not be encoded. -/
def Live.errors (live : Live) : List String :=
  (match live.mailbox.pending with
    | some (_, text) =>
      match Value.fromStrLimited text with
      | some _ => []
      | none => [Rclrs.parseError text]
    | none => []) ++ live.mailbox.error.toList

def flushErrors (topics : LiveMap) : List (String × String) :=
  topics.entries.flatMap fun entry => entry.2.errors.map fun error => (entry.1, error)

/-- The message writes of a flush; `none` when one of them is an SQL error. -/
def writeMessages (now : Time) : List (String × ℕ × Value) → Extension → Option Extension
  | [], ext => some ext
  | (topic, sequence, value) :: messages, ext =>
    (ext.upsertMessage topic sequence now value).bind fun ext =>
      writeMessages now messages (ext.setLastMessage topic now)

def writeErrors : List (String × String) → Extension → Extension
  | [], ext => ext
  | (topic, error) :: errors, ext => writeErrors errors (ext.setLastError topic error)

/-- The transaction of `flush`; `none` is an aborted one. -/
def flush (topics : LiveMap) (now : Time) (ext : Option Extension) : Option (Option Extension) :=
  match ext with
  | none => some none
  | some ext => do
    let ext ← writeMessages now (flushMessages topics) ext
    return some (writeErrors (flushErrors topics) ext)

end PgRos2
