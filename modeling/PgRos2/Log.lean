import PgRos2.Worker
import PgRos2.Lib.Edges

/-!
# The worker's log

What `graph_worker_main`, `run_observer` and `run_session` write to the server's log, by the step
of the system they write it in, and the locals that only the log reads. A status is written when it
changes, so the log of a step depends on what was written before.
-/

namespace PgRos2

open Lib

inductive Level where
  | log
  | warning
  | error
  deriving DecidableEq

/-- A line of the log, `pg_ros2 event=` and the fields after it. -/
structure Entry where
  level : Level
  event : String
  fields : List (String × String)
  deriving DecidableEq

/-- What the server process fixes: the configured database, the DDS domain a context joins and the
RMW implementation it resolves. -/
structure Server where
  database : String
  domainId : ℕ
  rmw : String

/-- The locals of `run_session` that only the log reads. -/
structure Reporter where
  lastError : Option String
  waitingLogged : Bool
  lastSubscriptionError : Option String

namespace Reporter

/-- The locals a session starts with. -/
def start : Reporter := ⟨none, false, none⟩

/-- A discovery, which failed with the error or succeeded. -/
def discovered (r : Reporter) (error : Option String) : Reporter × List Entry :=
  ({ r with lastError := error },
    if error ≠ r.lastError then
      match error with
      | some message => [⟨.warning, "discovery_failed", [("error", message)]⟩]
      | none => [⟨.log, "discovery_recovered", []⟩]
    else [])

/-- The discovery was persisted where the extension is installed. -/
def persisted (r : Reporter) (installed : Bool) : Reporter × List Entry :=
  if installed then ({ r with waitingLogged := false }, [])
  else if r.waitingLogged then (r, [])
  else ({ r with waitingLogged := true }, [⟨.log, "waiting_for_extension",
    [("hint", "run_CREATE_EXTENSION_pg_ros2_in_configured_database")]⟩])

/-- The result of a reconcile. -/
def reconciled (r : Reporter) : Except String Unit → Reporter × List Entry
  | .error error =>
    if r.lastSubscriptionError ≠ some error then
      ({ r with lastSubscriptionError := some error },
        [⟨.warning, "subscription_read_failed", [("error", error)]⟩])
    else (r, [])
  | .ok _ =>
    ({ r with lastSubscriptionError := none },
      if r.lastSubscriptionError.isSome then [⟨.log, "subscription_read_recovered", []⟩] else [])

end Reporter

/-- `Duration::as_secs`. -/
def asSecs (d : Time) : ℤ := d / 1000000

/-- The subscriptions a reconcile made. -/
def Pass.subscribed (pass : Pass) : List Entry :=
  pass.metadata.filterMap fun m =>
    match m.2 with
    | .ok kind => some ⟨.log, "subscribed", [("topic", m.1), ("type", kind)]⟩
    | .error _ => none

/-- A session that is over gives way to one with another context. -/
def World.rebuilding (w : World) (o : Observer) : List Entry :=
  match o.session with
  | none => []
  | some s =>
    match s.phase with
    | .over sawGraph => [⟨.log, "ros_context_rebuilding",
      [("blind_for", s!"{asSecs (o.reinitAfter.getD 0)}s"),
        ("next_after",
          s!"{asSecs ((nextReinitAfter w.settings o.reinitAfter sawGraph).getD 0)}s")]⟩]
    | _ => []

/-- The first lines of a session. -/
def ready (server : Server) (settings : Settings) : List Entry :=
  [⟨.log, "ros_context_ready", [("domain_id", s!"{server.domainId}"), ("rmw", server.rmw)]⟩,
    ⟨.log, "subscription_poller_ready",
      [("poll_ms", s!"{max settings.subscriptionPollMs 1}"),
        ("max_bytes", s!"{max settings.messageMaxBytes 1}"),
        ("ttl_seconds", s!"{settings.subscriptionTtl}")]⟩]

/-- What the steps of a worker write. The lines of a context that was made for a session that failed
to begin are left out. -/
def Observer.logs [Bounds] (server : Server) (w : World) (o : Observer) (r : Reporter) :
    Event → Reporter × List Entry
  | .terminate => (r, [⟨.log, "worker_stopped", [("database", server.database)]⟩])
  | .fail error => (r, w.rebuilding o ++ [⟨.error, "observer_failed", [("error", error)]⟩])
  | .beginSession => (.start, w.rebuilding o ++ ready server w.settings)
  | .readDesired answers =>
    match o.session with
    | none => (r, [])
    | some s =>
      match s.phase with
      | .read now =>
        if now < s.nextSubscriptionPoll then (r, [])
        else
          match answers with
          | .error error => r.reconciled (.error error)
          | .ok answers =>
            let (_, pass) := reconcile answers w.settings.subscriptionTtl
              (max w.settings.messageMaxBytes 1) (readDesired w.extension w.now) o.subscriptions
            -- a reconcile that has something to write is over with its write-back
            let (r, entries) := if pass.isEmpty then r.reconciled (.ok ()) else (r, [])
            (r, pass.subscribed ++ entries)
      | _ => (r, [])
  | .writeBack => r.reconciled (.ok ())
  | .tick answers =>
    match o.session.bind Session.parameterPoll with
    | none => (r, [])
    | some poll =>
      match poll.tick w.now answers with
      | .ok _ => (r, [])
      | .error error => (r, [⟨.warning, "parameter_discovery_failed", [("error", error)]⟩])
  | .observe graph =>
    match o.session with
    | none => (r, [])
    | some s =>
      if w.now < s.startup ∨ s.dirty = false then (r, [])
      else
        let (r, entries) := r.discovered (match graph with | .ok _ => none | .error e => some e)
        let (r, entries') := r.persisted w.extension.isSome
        (r, entries ++ entries')
  | _ => (r, [])

/-- What a step writes. -/
def World.logs [Bounds] (server : Server) (w : World) (r : Reporter) :
    Event → Reporter × List Entry
  | .startWorker _ => (r, [⟨.log, "worker_started", [("database", server.database)]⟩])
  | event =>
    match w.worker with
    | none => (r, [])
    | some o => o.logs server w r event

/-- The system with what the log needs to know. -/
structure Logged where
  world : World
  reporter : Reporter

variable [Rclrs]

def Logged.step (server : Server) (l : Logged) (e : Event) : Option Logged :=
  (l.world.step e).map fun world => ⟨world, (l.world.logs server l.reporter e).1⟩

/-- The log of a run. -/
def Logged.log (server : Server) (l : Logged) (es : List Event) : List Entry :=
  lines (Logged.step server) (fun l e => (l.world.logs server l.reporter e).2) l es

end PgRos2
