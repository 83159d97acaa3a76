import PgRos2.Messages
import PgRos2.Naming

/-!
# Caller-owned subscriptions

The loop of `receive` as steps, cut after the spin, after discovery, after each item taken from
the channel, after the commit and after the report, and the callback, which fills the channel and
can run between any two of them. A CALL that is cancelled is a run that ends where it is. The
atomic counters are natural numbers.
-/

namespace PgRos2

open Lib

/-- PostgreSQL's bound on the bytes of a name and its terminator. -/
def nameDataLen : ℕ := 64

/-- A notification of the open transaction: the channel it goes to and its payload. -/
structure Notification where
  channel : String
  payload : String
  deriving DecidableEq

/-- The warning of a report. -/
structure Warning where
  topic : String
  queueDrops : ℕ
  encodingDrops : ℕ
  lastError : String
  deriving DecidableEq

/-- Capacity of the channel between the callback and the loop. -/
def channelCapacity : ℕ := 256

/-- Most items of one drain. -/
def drainLimit : ℕ := 256

namespace Receive

/-- The topic is also the name of the notification channel. -/
def validateTopic (topic : String) : Except String Unit :=
  if topic.utf8ByteSize ≥ nameDataLen then
    .error "topic exceeds PostgreSQL's 63-byte notification channel limit"
  else PgRos2.validateTopic topic

/-- Where the loop stands: `drain` counts the items taken, and `over` is an error it returned. -/
inductive Phase where
  | spin
  | discover
  | drain (taken : ℕ)
  | commit
  | report
  | over (error : String)
  deriving DecidableEq

/-- The subscription: the type name its callback was given and the callback's counter. -/
structure Subscription where
  messageType : String
  sequence : ℕ
  deriving DecidableEq

/-- The locals of `receive`, with what it did to the database: the notifications of the open
transaction, those of each transaction it committed, and its warnings. -/
structure State where
  phase : Phase
  subscription : Option Subscription
  channel : List (Except String String)
  dropped : ℕ
  nextDiscovery : Time
  nextReport : Time
  encodingErrors : ℕ
  lastEncodingError : Option String
  notified : Bool
  batch : List Notification
  committed : List (List Notification)
  warnings : List Warning

def start (now : Time) : State :=
  ⟨.spin, none, [], 0, now, now, 0, none, false, [], [], []⟩

/-- The checks of `subscribe` before it starts to receive. Outside a CALL `atomic` is none. -/
def subscribe (topic : String) (atomic : Option Bool) (now : Time) : Except String State := do
  validateTopic topic
  match atomic with
  | some false => return start now
  | _ => throw "subscribe must be invoked with a top-level CALL outside a transaction block"

/-- How many messages reached the callback. -/
def State.sequence (s : State) : ℕ :=
  match s.subscription with
  | none => 0
  | some subscription => subscription.sequence

/-- The message type of the topic to subscribe to, if it is advertised. -/
def findType (answers : SubscribeAnswers) (topic : String) : Except String (Option String) := do
  let topics ← answers.topics topic
  match topics.lookup topic with
  | none => return none
  | some [messageType] =>
    answers.parse messageType
    match answers.create topic messageType with
    | .ok _ => return some messageType
    | .error error => throw (s!"{error} (message packages are resolved from the database server's "
        ++ "AMENT_PREFIX_PATH; start the server with the ROS environment sourced)")
  | some _ => throw "topic has multiple message types; a unique type is required"

/-- The discovery of an iteration, which looks at the clock at `now` and again at `after`. -/
def State.discover (s : State) (topic : String) (answers : SubscribeAnswers)
    (now after : Time) : State :=
  let s := { s with notified := false }
  if s.subscription.isNone ∧ s.nextDiscovery ≤ now then
    match findType answers topic with
    | .error error => { s with phase := .over error }
    | .ok none => { s with phase := .drain 0, nextDiscovery := after + seconds 1 }
    | .ok (some messageType) =>
      { s with
        phase := .drain 0
        subscription := some ⟨messageType, 0⟩
        nextDiscovery := after + seconds 1 }
  else { s with phase := .drain 0 }

/-- Send without waiting: a full channel counts a drop. -/
def State.trySend (s : State) (payload : Except String String) : State :=
  if s.channel.length < channelCapacity then { s with channel := s.channel ++ [payload] }
  else { s with dropped := s.dropped + 1 }

/-- `pg_notify` in the open transaction. -/
def State.notify (s : State) (topic payload : String) : State :=
  { s with batch := s.batch ++ [⟨topic, payload⟩] }

/-- What PostgreSQL delivers of a transaction's notifications: identical ones once. -/
def delivered (batch : List Notification) : List Notification := batch.eraseDups

/-- One item of the drain, or its end. -/
def State.take (s : State) (topic : String) (taken : ℕ) : State :=
  if taken < drainLimit then
    match s.channel with
    | [] => { s with phase := .commit }
    | .ok payload :: channel =>
      { s.notify topic payload with channel, notified := true, phase := .drain (taken + 1) }
    | .error error :: channel =>
      { s with
        channel
        encodingErrors := s.encodingErrors + 1
        lastEncodingError := some error
        phase := .drain (taken + 1) }
  else { s with phase := .commit }

/-- The commit of a drain that notified. -/
def State.commit (s : State) : State :=
  if s.notified then
    { s with batch := [], committed := s.committed ++ [s.batch], phase := .report }
  else { s with phase := .report }

/-- Whether a report has something to warn of. -/
def State.Warns (s : State) : Prop := 0 < s.dropped ∨ 0 < s.encodingErrors

instance (s : State) : Decidable s.Warns := inferInstanceAs (Decidable (_ ∨ _))

/-- The report, which resets both counters once a second. -/
def State.report (s : State) (topic : String) (now after : Time) : State :=
  if s.nextReport ≤ now then
    { s with
      dropped := 0
      warnings := if s.Warns then s.warnings ++ [⟨topic, s.dropped, s.encodingErrors,
        s.lastEncodingError.getD "none"⟩] else s.warnings
      encodingErrors := 0
      lastEncodingError := none
      nextReport := after + seconds 1
      phase := .spin }
  else { s with phase := .spin }

/-- What can happen next: a message reaches the callback, or the loop goes on. -/
inductive Act [Bounds] where
  | callback (T : MessageType) (message : T.Val)
  | spun (outcome : Except String Unit)
  | discover (answers : SubscribeAnswers) (now after : Time)
  | take
  | commit
  | report (now after : Time)

variable [Rclrs]

/-- What the callback sends for a message. -/
def Subscription.encode (subscription : Subscription) (topic : String) {T : MessageType}
    (message : T.Val) : Except String String :=
  payload topic subscription.messageType subscription.sequence message notifyLimit

/-- The callback of the subscription. -/
def State.callback (s : State) (topic : String) {T : MessageType} (message : T.Val) :
    Option State :=
  match s.subscription with
  | none => none
  | some subscription =>
    some ({ s with
      subscription := some { subscription with sequence := subscription.sequence + 1 } }.trySend
        (subscription.encode topic message))

/-- One step of a subscription to a topic, where it can happen. -/
def step (topic : String) (s : State) (a : Act) : Option State :=
  match a, s.phase with
  | _, .over _ => none
  | .callback _ message, _ => s.callback topic message
  | .spun (.ok _), .spin => some { s with phase := .discover }
  | .spun (.error error), .spin => some { s with phase := .over error }
  | .discover answers now after, .discover => some (s.discover topic answers now after)
  | .take, .drain taken => some (s.take topic taken)
  | .commit, .commit => some s.commit
  | .report now after, .report => some (s.report topic now after)
  | _, _ => none

end Receive

end PgRos2
