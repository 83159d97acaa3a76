import PgRos2.Database
import PgRos2.Decode
import PgRos2.Naming
import PgRos2.Lib.Run

/-!
# Publishing

`publish.rs`: a backend builds a context and a node at its first publish, and keeps them with a
publisher for each topic and type it has published to. What ROS answers to a call stands in the
call, for each turn of a loop with the clock and the outcome of its spin; the answers end where the
statement is cancelled.
-/

namespace PgRos2

open Lib

/-- A publisher ROS created for a topic and a type. -/
structure Publisher where
  topic : String
  kind : String
  deriving DecidableEq

/-- A publisher that later publishes in the same backend reuse. -/
structure CachedPublisher where
  publisher : Publisher

/-- The ROS resources a backend builds on its first publish and reuses after. -/
structure PublisherSession where
  publishers : Table (String × String) CachedPublisher

/-- One turn of a loop: what ROS answered, the clock after it and how the spin ended. -/
structure Turn (α : Type) where
  answer : Except String α
  now : Time
  spin : Except String Unit

/-- What ROS answers to a call, and the clock where a loop starts: a context and a node for a new
session, the graph, whether a type name parses, the type it loads, whether the publisher can be
created, the subscriptions it matches, and whether it takes the sample. -/
structure PublishAnswers where
  context : Except String Unit
  node : Except String Unit
  discovering : Time
  graph : List (Turn (List (String × List String)))
  parse : String → Except String Unit
  load : String → Except String MessageType
  create : String → String → Except String Unit
  matching : Time
  subscriptions : List (Turn ℕ)
  publish : Except String Unit
  flushing : Time
  flushes : List (Time × Except String Unit)

/-- A call of `publish`. -/
structure PublishCall where
  topic : String
  messageType : Option String
  message : Value
  answers : PublishAnswers

/-- `check_for_interrupts` when the statement was cancelled. -/
def canceled : Failure := .panic "canceling statement due to user request"

/-- An error of ROS as the error of the call. -/
def described {α : Type} (answer : Except String α) : Except Failure α := answer.mapError .error

/-- Wait for the graph to advertise a unique type for the topic. -/
def discoverType (topic : String) (deadline : Time) :
    List (Turn (List (String × List String))) → Except Failure String
  | [] => .error canceled
  | turn :: turns => do
    let topics ← described turn.answer
    match topics.lookup topic with
    | some [kind] => return kind
    | some _ => throw (.error "topic has multiple message types; a unique type is required")
    | none =>
      if turn.now ≥ deadline then
        throw (.error (s!"topic {topic} has no unique advertised message type; "
          ++ "pass the message type explicitly"))
      described turn.spin
      discoverType topic deadline turns

/-- Spin until at least one subscription matches, or the short deadline passes. -/
def waitForSubscriber (deadline : Time) : List (Turn ℕ) → Except Failure Unit
  | [] => .error canceled
  | turn :: turns => do
    let matched ← described turn.answer
    if matched > 0 ∨ turn.now ≥ deadline then return
    described turn.spin
    waitForSubscriber deadline turns

/-- Keep draining the executor until the deadline: the clock before each spin, and its outcome. -/
def flushExecutor (deadline : Time) : List (Time × Except String Unit) → Except Failure Unit
  | [] => .error canceled
  | (now, spin) :: turns => do
    if deadline ≤ now then return
    described spin
    flushExecutor deadline turns

section Calls

variable [Rclrs]

/-- A sample that was handed to a publisher. -/
structure Sample where
  publisher : Publisher
  type : MessageType
  message : type.Val

/-- A backend: its session, and the samples it has handed over. -/
structure Backend where
  session : Option PublisherSession
  handed : List Sample

/-- A call in a backend: an error ends it, and what it did to the backend stays. -/
abbrev PublishM := EStateM Failure Backend

/-- The publishers of the session. -/
def Backend.publishers (b : Backend) : Table (String × String) CachedPublisher :=
  match b.session with
  | none => ∅
  | some session => session.publishers

def Backend.insert (b : Backend) (key : String × String) (cached : CachedPublisher) : Backend :=
  { b with session := b.session.map fun session =>
      { session with publishers := session.publishers.insert key cached } }

/-- Decode the message over the default of its type. -/
def buildMessage (answers : PublishAnswers) (kind : String) (message : Value) :
    Except Failure ((T : MessageType) × T.Val) := do
  let T ← described (answers.load kind)
  let dynamic ← decode T.default message
  return ⟨T, dynamic⟩

def createPublisher (answers : PublishAnswers) (topic kind : String) : Except Failure Publisher :=
  match answers.create topic kind with
  | .ok _ => .ok ⟨topic, kind⟩
  | .error error => .error (.error (s!"{error} (message packages are resolved from the database "
      ++ "server's AMENT_PREFIX_PATH; start the server with the ROS environment sourced)"))

/-- `publisher.publish`. -/
def Publisher.publish (publisher : Publisher) (answers : PublishAnswers)
    (dynamic : (T : MessageType) × T.Val) : PublishM Unit := do
  ofExcept (described answers.publish)
  modify fun b => { b with handed := b.handed ++ [⟨publisher, dynamic.1, dynamic.2⟩] }

def publishWithSession (answers : PublishAnswers) (topic : String) (messageType : Option String)
    (message : Value) : PublishM String := do
  let resolved ← (match messageType with
    | some messageType => pure messageType
    | none => ofExcept (discoverType topic (answers.discovering + seconds 5) answers.graph))
  ofExcept (described (answers.parse resolved))
  let key := (topic, resolved)
  match (← get).publishers.lookup key with
  | some cached =>
    let dynamic ← ofExcept (buildMessage answers resolved message)
    ofExcept (waitForSubscriber (answers.matching + seconds 2) answers.subscriptions)
    cached.publisher.publish answers dynamic
    ofExcept (flushExecutor (answers.flushing + millis 10) answers.flushes)
    return resolved
  | none =>
    let dynamic ← ofExcept (buildMessage answers resolved message)
    let publisher ← ofExcept (createPublisher answers topic resolved)
    ofExcept (waitForSubscriber (answers.matching + seconds 2) answers.subscriptions)
    publisher.publish answers dynamic
    ofExcept (flushExecutor (answers.flushing + millis 100) answers.flushes)
    modify fun b => b.insert key ⟨publisher⟩
    return resolved

/-- `PublisherSession::new`. -/
def PublisherSession.new (answers : PublishAnswers) : Except Failure PublisherSession := do
  described answers.context
  described answers.node
  return ⟨∅⟩

def withSession (answers : PublishAnswers) (action : PublishM String) : PublishM String := do
  if (← get).session.isNone then
    let session ← ofExcept (PublisherSession.new answers)
    modify fun b => { b with session := some session }
  action

/-- `run` of a call. -/
def PublishCall.run (call : PublishCall) : PublishM String := do
  ofExcept (described (validateTopic call.topic))
  withSession call.answers
    (publishWithSession call.answers call.topic call.messageType call.message)

namespace Backend

/-- A backend that has not published. -/
def initial : Backend := ⟨none, []⟩

/-- The result of a call, and the backend after it. -/
def call (b : Backend) (c : PublishCall) : Except Failure String × Backend :=
  match c.run.run b with
  | .ok kind b => (.ok kind, b)
  | .error e b => (.error e, b)

def step (b : Backend) (c : PublishCall) : Option Backend := some (b.call c).2

end Backend

end Calls

end PgRos2
