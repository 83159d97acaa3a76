import PgRos2.Messages
import PgRos2.Parameters
import PgRos2.Lib.Run

/-!
# The graph worker

`run_observer` and `run_session` as steps of one system with the database, its clients, the
settings and the clock. An iteration of the session's loop is cut where it leaves the process: a
transaction is one step, what a client commits falls between two of them, and a transaction of
several statements is several client steps with nothing in between. What ROS answers stands in the
event.
-/

namespace PgRos2

open Lib

/-- The settings the worker reads, in their own units. -/
structure Settings where
  rosReinitAfter : ℕ
  messagePollMs : ℕ
  subscriptionPollMs : ℕ
  messageMaxBytes : ℕ
  subscriptionTtl : ℕ
  deriving DecidableEq

/-- The settings the worker starts with. -/
def Settings.default : Settings := ⟨30, 10, 250, 1048576, 0⟩

/-- The configured rebuild interval, or none when rebuilding is disabled. -/
def configuredReinitAfter (settings : Settings) : Option Time :=
  if settings.rosReinitAfter > 0 then some (seconds settings.rosReinitAfter) else none

def maxReinitAfter : Time := seconds 600

/-- Grow the backoff while discovery keeps coming back empty. -/
def nextReinitAfter (settings : Settings) (current : Option Time) (sawGraph : Bool) :
    Option Time := do
  let configured ← configuredReinitAfter settings
  if sawGraph then return configured
  match current with
  | some value => return min (value * 2) maxReinitAfter
  | none => return configured

/-- Where the loop of a session stands. `flush` and `read` carry the instant the spin ended at,
`write` what `reconcile` holds between its transactions, `start` the nodes of the snapshot a
parameter poll starts from, and `over` the outcome. -/
inductive Phase where
  | spin
  | flush (now : Time)
  | read (now : Time)
  | write (pass : Pass)
  | poll
  | graph
  | start (nodes : List Name)
  | decide
  | over (sawGraph : Bool)

/-- The locals of `run_session`, those only the log reads left out. -/
structure Session where
  phase : Phase
  startup : Time
  dirty : Bool
  nextParameters : Time
  parameterPoll : Option Poll
  emptySince : Option Time
  sawGraph : Bool
  nextMessageFlush : Time
  nextSubscriptionPoll : Time

/-- The locals of `run_observer`, which outlive a session, in the process `pid`. -/
structure Observer where
  pid : ℕ
  previous : Option GraphSnapshot
  extensionOid : Option Oid
  previousParameters : Option (List Parameter)
  parameterExtension : Option Oid
  subscriptions : LiveMap
  reinitAfter : Option Time
  session : Option Session

/-- The database with its clock, the settings and the worker, if one runs. -/
structure World where
  now : Time
  settings : Settings
  nextOid : Oid
  extension : Option Extension
  worker : Option Observer

/-- A database without the extension, and no worker yet. -/
def World.initial (settings : Settings) : World := ⟨0, settings, 1, none, none⟩

/-- What happens. A message is one ROS delivers to the live subscription of a topic. An insert
carries the time its statement gives the row, by default that of its start, which is before it
commits. In `abort` PostgreSQL refuses a statement of the worker's next transaction for reasons of
its own, such as a lock timeout. -/
inductive Event [Bounds] where
  | advance (d : ℕ)
  | reload (settings : Settings)
  | insert (topic : String) (requestedType : Option String) (registeredAt : Time)
    (keepaliveAt : Option Time)
  | delete (topic : String)
  | keepalive (topic : String) (keepaliveAt : Option Time)
  | createExtension
  | dropExtension
  | startWorker (pid : ℕ)
  | crash
  | fail (error : String)
  | beginSession
  | abort
  | terminate
  | message (topic : String) (type : MessageType) (message : type.Val)
  | graphChange
  | spun
  | flush
  | readDesired (answers : Except String SubscribeAnswers)
  | writeBack
  | tick (answers : TickAnswers)
  | observe (graph : Except String RosGraph)
  | startPoll (answers : StartAnswers)
  | decide

/-- The name of the worker's own node. -/
def Observer.name (o : Observer) : Name := (s!"pg_ros2_worker_{o.pid}", "/")

/-- The locals `run_observer` starts with. -/
def Observer.start (pid : ℕ) (settings : Settings) : Observer :=
  ⟨pid, none, none, none, none, ∅, configuredReinitAfter settings, none⟩

/-- The locals `run_session` starts its loop with. -/
def Session.start (now : Time) : Session :=
  ⟨.spin, now + seconds 1, true, now + seconds 1, none, none, false, now, now⟩

namespace World

/-- A change of the installed extension, if there is one. -/
def onExtension (w : World) (f : Extension → Extension) : World :=
  { w with extension := w.extension.map f }

/-- The worker's loop moves on. -/
def resume (w : World) (o : Observer) (s : Session) : World :=
  { w with worker := some { o with session := some s } }

/-- The end of a poll, by its outcome: the transaction of `persist`, and what is kept of it. An
aborted transaction ends the worker. -/
def completePoll [Postgres] (w : World) (o : Observer) (s : Session)
    (result : Except String (List Parameter)) : World :=
  match persist w.extension o.pid w.now result o.previousParameters o.parameterExtension with
  | none => { w with worker := none }
  | some (extension, persisted) =>
    { w with extension }.resume
      { o with
        parameterExtension := persisted
        previousParameters :=
          match result with
          | .ok snapshot => some snapshot
          | .error _ => o.previousParameters }
      { s with
        phase := .graph, parameterPoll := none, nextParameters := w.now + seconds 5 }

/-- The parameter step of an iteration. -/
def tick [Postgres] (w : World) (o : Observer) (s : Session) (answers : TickAnswers) : World :=
  match s.parameterPoll with
  | none => w.resume o { s with phase := .graph }
  | some poll =>
    match poll.tick w.now answers with
    | .ok (poll, none) => w.resume o { s with phase := .graph, parameterPoll := some poll }
    | .ok (_, some snapshot) => w.completePoll o s (.ok snapshot)
    | .error error => w.completePoll o s (.error error)

/-- The graph step of an iteration, up to a parameter poll it starts. `previous` and
`extension_oid` are assigned here: nothing reads them before the iteration ends. -/
def observe (w : World) (o : Observer) (s : Session) (graph : Except String RosGraph) : World :=
  if w.now < s.startup ∨ s.dirty = false then w.resume o { s with phase := .spin }
  else
    let snapshot := graph.map (GraphSnapshot.read o.name)
    let (extension, installed) :=
      persistSnapshot w.extension o.pid w.now snapshot o.previous o.extensionOid
    let s := { s with dirty := false }
    match installed, snapshot with
    | some oid, .ok value =>
      let s := if value.nodes.isEmpty ∧ value.topics.isEmpty then
          { s with emptySince := some (s.emptySince.getD w.now) }
        else { s with emptySince := none, sawGraph := true }
      { w with extension }.resume { o with previous := some value, extensionOid := some oid }
        { s with
          phase := if s.parameterPoll.isNone ∧ w.now ≥ s.nextParameters then .start value.nodes
            else .decide }
    | some oid, .error _ =>
      { w with extension }.resume { o with extensionOid := some oid }
        { s with phase := .decide, emptySince := none }
    | none, _ =>
      { w with extension }.resume
        { o with
          previous := none, extensionOid := none
          previousParameters := none, parameterExtension := none }
        { s with phase := .decide, emptySince := none, parameterPoll := none }

/-- The start of a parameter poll; a failed one is persisted in a transaction of its own. -/
def startPoll [Postgres] (w : World) (o : Observer) (s : Session) (nodes : List Name)
    (answers : StartAnswers) : World :=
  match Poll.start w.now nodes answers with
  | .ok poll => w.resume o { s with phase := .decide, parameterPoll := some poll }
  | .error error =>
    match persist w.extension o.pid w.now (.error error) o.previousParameters
        o.parameterExtension with
    | none => { w with worker := none }
    | some (extension, persisted) =>
      { w with extension }.resume { o with parameterExtension := persisted }
        { s with phase := .decide, nextParameters := w.now + seconds 5 }

/-- The end of an iteration: a graph that stayed empty for the interval ends the session. -/
def decide (w : World) (o : Observer) (s : Session) : World :=
  let blind := s.emptySince.bind fun since =>
    o.reinitAfter.map fun threshold => Decidable.decide (w.now - since ≥ threshold)
  w.resume o { s with phase := if blind = some true then .over s.sawGraph else .spin }

/-- The first transaction of `reconcile` and the pass over what it read, when a poll is due. A
failed read changes nothing. -/
def readDesired (w : World) (o : Observer) (s : Session) (now : Time)
    (answers : Except String SubscribeAnswers) : World :=
  if now < s.nextSubscriptionPoll then w.resume o { s with phase := .poll }
  else
    let next := w.now + millis (max w.settings.subscriptionPollMs 1)
    match answers with
    | .error _ => w.resume o { s with phase := .poll, nextSubscriptionPoll := next }
    | .ok answers =>
      let (subscriptions, pass) := reconcile answers w.settings.subscriptionTtl
        (max w.settings.messageMaxBytes 1) (PgRos2.readDesired w.extension w.now) o.subscriptions
      let o := { o with subscriptions }
      if pass.isEmpty then w.resume o { s with phase := .poll, nextSubscriptionPoll := next }
      else w.resume o { s with phase := .write pass }

/-- The write-back of `reconcile`. -/
def writeBack (w : World) (o : Observer) (s : Session) (pass : Pass) : World :=
  (w.onExtension (PgRos2.writeBack pass)).resume o
    { s with
      phase := .poll
      nextSubscriptionPoll := w.now + millis (max w.settings.subscriptionPollMs 1) }

variable [Rclrs]

/-- The flush of an iteration, when messages may flow and one is due. -/
def flush (w : World) (o : Observer) (s : Session) (now : Time) : World :=
  if o.subscriptions.entries = [] ∨ now < s.nextMessageFlush then
    w.resume o { s with phase := .read now }
  else
    match PgRos2.flush o.subscriptions w.now w.extension with
    | none => { w with worker := none }
    | some extension =>
      { w with extension }.resume
        { o with subscriptions := o.subscriptions.mapVals fun _ live => live.drained }
        { s with
          phase := .read now
          nextMessageFlush := w.now + millis (max w.settings.messagePollMs 1) }

/-- Whether the next step of the session runs a transaction, or may run one, depending on what ROS
answers. -/
def transacts (w : World) (o : Observer) (s : Session) : Bool :=
  match s.phase with
  | .flush now => !o.subscriptions.entries.isEmpty && s.nextMessageFlush ≤ now
    && !((flushMessages o.subscriptions).isEmpty && (flushErrors o.subscriptions).isEmpty)
  | .read now => s.nextSubscriptionPoll ≤ now
  | .write _ => true
  | .poll => s.parameterPoll.isSome
  | .graph => s.startup ≤ w.now && s.dirty
  | .start _ => true
  | _ => false

/-- Steps of the session in its phase. -/
def sessionStep (w : World) (o : Observer) (s : Session) : Event → Option World
  | .abort => if w.transacts o s then some { w with worker := none } else none
  | .terminate =>
    match s.phase with
    | .spin => some { w with worker := none }
    | _ => none
  | .message topic _ message =>
    match s.phase with
    | .spin =>
      if topic ∈ o.subscriptions then
        some (w.resume
          { o with subscriptions := o.subscriptions.update topic fun live =>
              live.callback topic message } s)
      else none
    | _ => none
  | .graphChange => some (w.resume o { s with dirty := true })
  | .spun =>
    match s.phase with
    | .spin => some (w.resume o { s with phase := .flush w.now })
    | _ => none
  | .flush =>
    match s.phase with
    | .flush now => some (w.flush o s now)
    | _ => none
  | .readDesired answers =>
    match s.phase with
    | .read now => some (w.readDesired o s now answers)
    | _ => none
  | .writeBack =>
    match s.phase with
    | .write pass => some (w.writeBack o s pass)
    | _ => none
  | .tick answers =>
    match s.phase with
    | .poll => some (w.tick o s answers)
    | _ => none
  | .observe graph =>
    match s.phase with
    | .graph => some (w.observe o s graph)
    | _ => none
  | .startPoll answers =>
    match s.phase with
    | .start nodes => some (w.startPoll o s nodes answers)
    | _ => none
  | .decide =>
    match s.phase with
    | .decide => some (w.decide o s)
    | _ => none
  | _ => none

/-- Steps of a running worker. A session begins when the worker has none yet, or rebuilds the
context after one that is over: its live map is cleared first. -/
def workerStep (w : World) (o : Observer) : Event → Option World
  | .crash => some { w with worker := none }
  | .fail error =>
    some { w with
      worker := none
      extension := (persistSnapshot w.extension o.pid w.now (.error error) none none).1 }
  | .beginSession =>
    match o.session with
    | none => some (w.resume { o with subscriptions := ∅ } (.start w.now))
    | some s =>
      match s.phase with
      | .over sawGraph =>
        some (w.resume
          { o with
            subscriptions := ∅, reinitAfter := nextReinitAfter w.settings o.reinitAfter sawGraph }
          (.start w.now))
      | _ => none
  | event =>
    match o.session with
    | none => none
    | some s => sessionStep w o s event

/-- One step of the system, where it can happen. -/
def step (w : World) : Event → Option World
  | .advance d => some { w with now := w.now + d }
  | .reload settings => some { w with settings }
  | .insert topic requestedType registeredAt keepaliveAt =>
    some (w.onExtension fun ext =>
      ext.insertSubscription topic requestedType registeredAt keepaliveAt)
  | .delete topic => some (w.onExtension fun ext => ext.deleteSubscription topic)
  | .keepalive topic keepaliveAt =>
    some (w.onExtension fun ext => ext.updateKeepalive topic keepaliveAt)
  | .createExtension =>
    match w.extension with
    | some _ => none
    | none => some { w with extension := some (.new w.nextOid), nextOid := w.nextOid + 1 }
  | .dropExtension => some { w with extension := none }
  | .startWorker pid =>
    match w.worker with
    | some _ => none
    | none => some { w with worker := some (.start pid w.settings) }
  | event =>
    match w.worker with
    | none => none
    | some o => workerStep w o event

end World

end PgRos2
