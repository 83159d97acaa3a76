import PgRos2.Worker
import Mathlib.Data.Set.Insert

/-!
# The registry

What table-backed subscriptions are about, topic by topic: the registrations that clients make and
refresh, the types of the live subscriptions that serve them, the topics with a cached message and
those with a pending one, and the pass of a reconcile between its two transactions. `World.registry`
is the registry of a state of the system and `World.act` is what an event is to it.
-/

namespace PgRos2

open Lib

/-- A row of `ros2.subscriptions`, as far as reconcile goes by it. -/
structure Registration where
  requestedType : Option String
  messageType : Option String
  keepaliveAt : Option Time

structure Registry where
  now : Time
  rows : String → Option Registration
  cached : Set String
  live : String → Option String
  pending : Set String
  pass : Option Pass

/-- What an event is to the registry. -/
inductive Act where
  | quiet
  | insert (topic : String) (requestedType : Option String) (keepaliveAt : Option Time)
  | delete (topic : String)
  | keepalive (topic : String) (keepaliveAt : Option Time)
  | drop
  | lose
  | receive (topic : String)
  | flush (stored : List String)
  | read (answers : SubscribeAnswers) (ttl limit : ℕ)
  | write

namespace Registration

/-- Whether the registration has been idle for longer than a positive ttl. -/
def IsExpired (ttl : ℕ) (now : Time) (r : Registration) : Prop :=
  0 < ttl ∧ ∃ keepaliveAt ∈ r.keepaliveAt, seconds ttl < now - keepaliveAt

instance (ttl : ℕ) (now : Time) (r : Registration) : Decidable (r.IsExpired ttl now) :=
  inferInstanceAs (Decidable (_ ∧ ∃ keepaliveAt ∈ r.keepaliveAt, _))

/-- What the result of a subscribe makes of the registration. -/
def settle : Except String String → Registration → Registration
  | .ok kind, r => { r with messageType := some kind }
  | .error _, r => r

end Registration

/-- What a read finds of a topic. -/
inductive Verdict where
  | absent
  | expired
  | kept (kind : String)
  | subscribed (kind : String)
  | failed (error : String)

namespace Verdict

/-- The type of the live subscription the read leaves. -/
def live : Verdict → Option String
  | kept kind => some kind
  | subscribed kind => some kind
  | _ => none

/-- The result of the subscribe, if there was one. -/
def result : Verdict → Option (Except String String)
  | subscribed kind => some (.ok kind)
  | failed error => some (.error error)
  | _ => none

end Verdict

namespace Registry

def verdict (R : Registry) (answers : SubscribeAnswers) (ttl limit : ℕ) (topic : String) :
    Verdict :=
  match R.rows topic with
  | none => .absent
  | some r =>
    if r.IsExpired ttl R.now then .expired
    else
      match R.live topic with
      | some kind => .kept kind
      | none =>
        match subscribe answers topic r.requestedType limit with
        | .ok live => .subscribed live.messageType
        | .error error => .failed error

/-- What a read leaves: the live subscriptions and the pass, topic by topic. -/
structure Reads (R : Registry) (answers : SubscribeAnswers) (ttl limit : ℕ)
    (live : String → Option String) (pass : Pass) : Prop where
  ttl_eq : pass.ttl = ttl
  live_eq : ∀ topic, live topic = (R.verdict answers ttl limit topic).live
  mem_expired : ∀ topic, topic ∈ pass.expired ↔ R.verdict answers ttl limit topic = .expired
  mem_removed : ∀ topic, topic ∈ pass.removed
    ↔ R.verdict answers ttl limit topic = .absent ∧ (R.live topic).isSome
  mem_metadata : ∀ topic result, (topic, result) ∈ pass.metadata
    ↔ (R.verdict answers ttl limit topic).result = some result

/-- What the metadata of a pass makes of the registration of a topic. -/
def settled (pass : Pass) (topic : String) (r : Registration) : Registration :=
  pass.metadata.foldl (fun r m => if topic = m.1 then r.settle m.2 else r) r

/-- What the write-back of a pass leaves. -/
def written (R : Registry) (pass : Pass) : Registry where
  now := R.now
  rows topic := if topic ∈ pass.expired then none else (R.rows topic).map (settled pass topic)
  cached := {topic ∈ R.cached | topic ∉ pass.removed ∧ topic ∉ pass.expired}
  live := R.live
  pending := R.pending
  pass := none

/-- The steps of the registry. -/
def Step (R : Registry) : Act → Registry → Prop
  | .quiet, R' => ∃ now, R.now ≤ now ∧ R' = { R with now }
  | .insert topic requestedType keepaliveAt, R' => R.rows topic = none ∧ R' = { R with
      rows := Function.update R.rows topic (some ⟨requestedType, none, keepaliveAt⟩) }
  | .delete topic, R' => R' = { R with rows := Function.update R.rows topic none }
  | .keepalive topic keepaliveAt, R' => R' = { R with
      rows := Function.update R.rows topic
        ((R.rows topic).map fun r => { r with keepaliveAt }) }
  | .drop, R' => R' = { R with rows := fun _ => none, cached := ∅ }
  | .lose, R' => R' = { R with live := fun _ => none, pending := ∅, pass := none }
  | .receive topic, R' => R.pass = none ∧ (R.live topic).isSome
    ∧ ∃ pending, R.pending ⊆ pending ∧ pending ⊆ insert topic R.pending
      ∧ R' = { R with pending }
  | .flush stored, R' => R.pass = none ∧ (∀ topic ∈ stored, topic ∈ R.pending)
    ∧ R' = { R with cached := R.cached ∪ {topic | topic ∈ stored}, pending := ∅ }
  | .read answers ttl limit, R' => R.pass = none ∧ ∃ live pass,
    R.Reads answers ttl limit live pass ∧ R' = { R with
      live
      pending := {topic ∈ R.pending | ∃ kind, R.verdict answers ttl limit topic = .kept kind}
      pass := if pass.isEmpty then none else some pass }
  | .write, R' => ∃ pass, R.pass = some pass ∧ R' = R.written pass

end Registry

/-! ## The registry of the system -/

def Subscription.registration (row : Subscription) : Registration :=
  ⟨row.requestedType, row.messageType, row.keepaliveAt⟩

namespace Phase

/-- The instant of a flush step. -/
def flushing : Phase → Option Time
  | flush now => some now
  | _ => none

/-- The instant of a reconcile step. -/
def reading : Phase → Option Time
  | read now => some now
  | _ => none

/-- The pass of a write-back. -/
def writing : Phase → Option Pass
  | write pass => some pass
  | _ => none

end Phase

namespace World

/-- The row of a topic in `ros2.subscriptions`. -/
def row (w : World) (topic : String) : Option Subscription :=
  w.extension.bind fun ext => ext.subscriptions.lookup topic

/-- The row of a topic in `ros2.messages`. -/
def cached (w : World) (topic : String) : Option Message :=
  w.extension.bind fun ext => ext.messages.lookup topic

/-- The live subscription of a topic. -/
def live (w : World) (topic : String) : Option Live :=
  w.worker.bind fun o => o.subscriptions.lookup topic

/-- The message a topic's mailbox holds. -/
def pending (w : World) (topic : String) : Option (ℕ × String) :=
  (w.live topic).bind fun live => live.mailbox.pending

/-- The pass of a reconcile that has not written back yet. -/
def pass (w : World) : Option Pass := do
  let o ← w.worker
  let s ← o.session
  s.phase.writing

def registry (w : World) : Registry where
  now := w.now
  rows topic := (w.row topic).map Subscription.registration
  cached := {topic | (w.cached topic).isSome}
  live topic := (w.live topic).map Live.messageType
  pending := {topic | (w.pending topic).isSome}
  pass := w.pass

/-- The flush step writes: messages may flow and one is due. -/
def Flushes (w : World) : Prop :=
  ∃ o ∈ w.worker, ∃ s ∈ o.session, ∃ now ∈ s.phase.flushing,
    ¬ (o.subscriptions.entries = [] ∨ now < s.nextMessageFlush)

/-- The reconcile step reads the table: a poll is due. -/
def Reads (w : World) : Prop :=
  ∃ o ∈ w.worker, ∃ s ∈ o.session, ∃ now ∈ s.phase.reading, ¬ now < s.nextSubscriptionPoll

instance (w : World) : Decidable w.Flushes := inferInstanceAs (Decidable (∃ o ∈ w.worker, _))

instance (w : World) : Decidable w.Reads := inferInstanceAs (Decidable (∃ o ∈ w.worker, _))

variable [Rclrs]

/-- The topics a flush stores a message of. -/
def stored (w : World) : List String :=
  match w.extension, w.worker with
  | some _, some o => (flushMessages o.subscriptions).map Prod.fst
  | _, _ => []

/-- The step ends the worker. -/
def Ends (w : World) (e : Event) : Prop := ∃ w' ∈ w.step e, w'.worker = none

instance (w : World) (e : Event) : Decidable (w.Ends e) :=
  inferInstanceAs (Decidable (∃ w' ∈ w.step e, _))

/-- When an event stores a message of a topic: at a flush that finds one and does not abort. -/
def stores (t : String) (w : World) : Event → Option Time
  | .flush => if w.Flushes ∧ ¬ w.Ends .flush ∧ t ∈ w.stored then some w.now else none
  | _ => none

/-- What an event is to the registry. A step that aborts its transaction ends the worker. -/
def act (w : World) : Event → Act
  | .insert topic requestedType _ keepaliveAt =>
    if w.extension.isSome ∧ w.row topic = none then .insert topic requestedType keepaliveAt
    else .quiet
  | .delete topic => .delete topic
  | .keepalive topic keepaliveAt => .keepalive topic keepaliveAt
  | .dropExtension => .drop
  | .crash | .fail _ | .abort | .terminate | .beginSession => .lose
  | .message topic _ _ => .receive topic
  | .flush => if w.Ends .flush then .lose else if w.Flushes then .flush w.stored else .quiet
  | .readDesired (.ok answers) =>
    if w.Reads then .read answers w.settings.subscriptionTtl (max w.settings.messageMaxBytes 1)
    else .quiet
  | .writeBack => .write
  | .tick answers => if w.Ends (.tick answers) then .lose else .quiet
  | .startPoll answers => if w.Ends (.startPoll answers) then .lose else .quiet
  | _ => .quiet

end World

end PgRos2
