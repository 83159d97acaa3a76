import PgRos2.Log
import PgRos2.Lib.Register
import PgRos2.Proofs.Blind

/-!
# What the log tells

Discovery, the reads of `ros2.subscriptions` and the presence of the extension are reported where
they change (`logs_spec`). So over a whole session, however often they are tried, their lines are
the changes of what the session found, and the last line is how things stand.
-/

namespace PgRos2

open Lib

/-- The result of a reconcile that a step ends. -/
def World.readResult [Bounds] (w : World) : Event → Option (Except String Unit)
  | .readDesired answers => do
    let o ← w.worker
    let s ← o.session
    match s.phase with
    | .read now =>
      if now < s.nextSubscriptionPoll then none
      else
        match answers with
        | .error error => some (.error error)
        | .ok answers =>
          if (w.reconciled answers w.settings.subscriptionTtl (max w.settings.messageMaxBytes 1)
            o).2.isEmpty then some (.ok ()) else none
    | _ => none
  | .writeBack => some (.ok ())
  | _ => none

def discoveryEvents : List String := ["discovery_failed", "discovery_recovered"]

def readEvents : List String := ["subscription_read_failed", "subscription_read_recovered"]

def waitingEvents : List String := ["waiting_for_extension"]

/-- The events that report a status. -/
def statusEvents : List String := discoveryEvents ++ readEvents ++ waitingEvents

@[simp]
theorem mem_statusEvents {event : String} : event ∈ statusEvents ↔ event = "discovery_failed"
    ∨ event = "discovery_recovered" ∨ event = "subscription_read_failed"
    ∨ event = "subscription_read_recovered" ∨ event = "waiting_for_extension" := by
  simp [statusEvents, discoveryEvents, readEvents, waitingEvents]

/-- The lines of some events. -/
def Entry.isOf (events : List String) (entry : Entry) : Bool := events.contains entry.event

/-- What a step within a session writes: the status it finds, or nothing about any. -/
inductive LogSpec [Bounds] (w : World) (r : Reporter) (e : Event) : Reporter × List Entry → Prop
  | quiet (entries : List Entry) (ho : w.observed e = none) (hr : w.readResult e = none)
    (h : ∀ entry ∈ entries, entry.event ∉ statusEvents) : LogSpec w r e (r, entries)
  | observed (o : Observer) (graph : Except String RosGraph)
    (ho : w.observed e = some (o, graph)) (hr : w.readResult e = none) :
    LogSpec w r e
      (((r.discovered (Register.errorOf graph)).1.persisted w.extension.isSome).1,
        (r.discovered (Register.errorOf graph)).2
          ++ ((r.discovered (Register.errorOf graph)).1.persisted w.extension.isSome).2)
  | reconciled (result : Except String Unit) (entries : List Entry)
    (ho : w.observed e = none) (hr : w.readResult e = some result)
    (h : ∀ entry ∈ entries, entry.event ∉ statusEvents) :
    LogSpec w r e ((r.reconciled result).1, entries ++ (r.reconciled result).2)

section

variable [Bounds] {w : World} {o : Observer} {s : Session} {r : Reporter}

omit [Bounds] in
theorem subscribed_event (pass : Pass) : ∀ entry ∈ pass.subscribed,
    entry.event ∉ statusEvents := by
  intro entry h
  obtain ⟨m, -, hm⟩ := List.mem_filterMap.mp h
  split at hm
  · cases hm
    simp
  · cases hm

theorem logs_worker (server : Server) (ho : w.worker = some o) {e : Event}
    (he : ∀ pid, e ≠ .startWorker pid) : w.logs server r e = o.logs server w r e := by
  cases e with
  | startWorker pid => exact absurd rfl (he pid)
  | _ => simp [World.logs, ho]

theorem observe_logSpec (server : Server) (h : w.InPhase o s .graph)
    (graph : Except String RosGraph) :
    LogSpec w r (.observe graph) (w.logs server r (.observe graph)) := by
  obtain ⟨ho, hs, hp⟩ := id h
  rw [logs_worker (e := .observe graph) server ho nofun]
  by_cases hdue : w.Due s
  · have hobs := observed_of_due h hdue graph
    have hlog := LogSpec.observed (r := r) o graph hobs rfl
    simp only [Observer.logs, hs]
    rw [if_neg hdue]
    rcases graph with error | graph
    · exact hlog
    · exact hlog
  · have hnone : w.observed (.observe graph) = none := by
      simp only [World.observed, ho, hs, hp, Option.bind_eq_bind, Option.bind_some]
      exact if_pos (not_not.mp hdue)
    simp only [Observer.logs, hs]
    rw [if_pos (not_not.mp hdue)]
    exact .quiet [] hnone rfl (by simp)

theorem readDesired_logSpec (server : Server) {now : Time} (h : w.InPhase o s (.read now))
    (answers : Except String SubscribeAnswers) :
    LogSpec w r (.readDesired answers) (w.logs server r (.readDesired answers)) := by
  obtain ⟨ho, hs, hp⟩ := h
  rw [logs_worker (e := .readDesired answers) server ho nofun]
  by_cases hlt : now < s.nextSubscriptionPoll
  · have hnone : w.readResult (.readDesired answers) = none := by
      simp [World.readResult, ho, hs, hp, hlt]
    simp only [Observer.logs, hs, hp, if_pos hlt]
    exact .quiet [] rfl hnone (by simp)
  · simp only [Observer.logs, hs, hp, if_neg hlt]
    rcases answers with error | answers
    · have hres : w.readResult (.readDesired (.error error)) = some (.error error) := by
        simp [World.readResult, ho, hs, hp, hlt]
      exact .reconciled _ [] rfl hres (by simp)
    · have hres : w.readResult (.readDesired (.ok answers))
          = if (w.reconciled answers w.settings.subscriptionTtl (max w.settings.messageMaxBytes 1)
            o).2.isEmpty then some (.ok ()) else none := by
        simp [World.readResult, ho, hs, hp, hlt]
      have hsub := subscribed_event (w.reconciled answers w.settings.subscriptionTtl
        (max w.settings.messageMaxBytes 1) o).2
      rcases he : (w.reconciled answers w.settings.subscriptionTtl
        (max w.settings.messageMaxBytes 1) o).2.isEmpty with _ | _
      · rw [he] at hres
        have hlog := LogSpec.quiet (r := r) _ rfl hres hsub
        unfold World.reconciled at he hlog
        simp only [he, Bool.false_eq_true, ↓reduceIte, List.append_nil]
        exact hlog
      · rw [he] at hres
        have hlog := LogSpec.reconciled (r := r) _ _ rfl hres hsub
        unfold World.reconciled at he hlog
        simp only [he, ↓reduceIte]
        exact hlog

omit [Bounds] in
theorem rebuilding_event (w : World) (o : Observer) : ∀ entry ∈ w.rebuilding o,
    entry.event ∉ statusEvents := by
  intro entry h
  unfold World.rebuilding at h
  split at h
  · cases h
  · split at h
    · obtain rfl := List.mem_singleton.mp h
      simp
    · cases h

/-- A failed poll is the only thing the parameter step writes of. -/
theorem tick_logSpec (server : Server) (ho : w.worker = some o) (answers : TickAnswers) :
    LogSpec w r (.tick answers) (w.logs server r (.tick answers)) := by
  rw [logs_worker (e := .tick answers) server ho nofun]
  simp only [Observer.logs]
  split
  · exact .quiet [] rfl rfl (by simp)
  · split
    · exact .quiet [] rfl rfl (by simp)
    · exact .quiet _ rfl rfl (by simp)

end

section

variable [Rclrs] {w w' : World} {e : Event} {r : Reporter}

/-- What a step writes, but where a session begins. -/
theorem logs_spec (server : Server) (h : w.step e = some w') (hb : e ≠ .beginSession) :
    LogSpec w r e (w.logs server r e) := by
  have hs := step_spec h
  have hquiet (ho : w.observed e = none) (hr : w.readResult e = none)
      (hl : w.logs server r e = (r, [])) : LogSpec w r e (w.logs server r e) := by
    rw [hl]
    exact .quiet [] ho hr (by simp)
  have hfree (hl : ∀ o : Observer, o.logs server w r e = (r, []))
      (he : ∀ pid, e ≠ .startWorker pid) : w.logs server r e = (r, []) := by
    rcases ho : w.worker with _ | o
    · cases e with
      | startWorker pid => exact absurd rfl (he pid)
      | _ => simp [World.logs, ho]
    · rw [logs_worker server ho he, hl o]
  cases e with
  | startWorker pid => exact .quiet _ rfl rfl (by simp)
  | beginSession => exact absurd rfl hb
  | terminate =>
    rcases ho : w.worker with _ | o
    · exact hquiet rfl rfl (by simp [World.logs, ho])
    · rw [logs_worker (e := .terminate) server ho nofun]
      exact .quiet _ rfl rfl (by simp)
  | fail error =>
    obtain ⟨o, ho, -⟩ := hs
    rw [logs_worker (e := .fail error) server ho nofun]
    refine .quiet _ rfl rfl fun entry hmem => ?_
    rcases List.mem_append.mp hmem with hmem | hmem
    · exact rebuilding_event w o entry hmem
    · obtain rfl := List.mem_singleton.mp hmem
      simp
  | readDesired answers =>
    obtain ⟨o, s, now, hp, -⟩ := hs
    exact readDesired_logSpec server hp answers
  | writeBack =>
    obtain ⟨o, s, pass, ⟨ho, -⟩, -⟩ := hs
    rw [logs_worker (e := .writeBack) server ho nofun]
    exact .reconciled (.ok ()) [] rfl rfl (by simp)
  | tick answers =>
    obtain ⟨o, s, ⟨ho, -⟩, -⟩ := hs
    exact tick_logSpec server ho answers
  | observe graph =>
    obtain ⟨o, s, hp, -⟩ := hs
    exact observe_logSpec server hp graph
  | _ => exact hquiet rfl rfl (hfree (fun _ => rfl) nofun)

end

/-! ## The lines of a status -/

/-- The line of a discovery, by its error. -/
def discoveryEntry : Option String → Entry
  | some message => ⟨.warning, "discovery_failed", [("error", message)]⟩
  | none => ⟨.log, "discovery_recovered", []⟩

/-- The line of a read of the subscriptions, by its error. -/
def readEntry : Option String → Entry
  | some error => ⟨.warning, "subscription_read_failed", [("error", error)]⟩
  | none => ⟨.log, "subscription_read_recovered", []⟩

/-- The line of an iteration that does not find the extension. -/
def waitingEntry : Entry :=
  ⟨.log, "waiting_for_extension",
    [("hint", "run_CREATE_EXTENSION_pg_ros2_in_configured_database")]⟩

section Lines

variable {r : Reporter}

/-- Lines about no status are none of a status. -/
theorem filter_isOf_quiet {events : List String} (hevents : ∀ event ∈ events, event ∈ statusEvents)
    {entries : List Entry} (h : ∀ entry ∈ entries, entry.event ∉ statusEvents) :
    entries.filter (Entry.isOf events) = [] := by
  rw [List.filter_eq_nil_iff]
  intro entry hmem hof
  exact h entry hmem (hevents _ (List.contains_iff_mem.mp hof))

theorem isOf_discoveryEntry (error : Option String) :
    (discoveryEntry error).isOf discoveryEvents = true
      ∧ (discoveryEntry error).isOf readEvents = false
      ∧ (discoveryEntry error).isOf waitingEvents = false := by
  cases error <;> simp [discoveryEntry, Entry.isOf, discoveryEvents, readEvents, waitingEvents]

theorem isOf_readEntry (error : Option String) :
    (readEntry error).isOf discoveryEvents = false ∧ (readEntry error).isOf readEvents = true
      ∧ (readEntry error).isOf waitingEvents = false := by
  cases error <;> simp [readEntry, Entry.isOf, discoveryEvents, readEvents, waitingEvents]

theorem isOf_waitingEntry :
    waitingEntry.isOf discoveryEvents = false ∧ waitingEntry.isOf readEvents = false
      ∧ waitingEntry.isOf waitingEvents = true := by
  simp [waitingEntry, Entry.isOf, discoveryEvents, readEvents, waitingEvents]

/-- The line of an iteration, where it finds the extension and where it does not. -/
def waitingLine (installed : Bool) : List Entry := if installed then [] else [waitingEntry]

/-- The status of one kind leaves what was written of the others. -/
theorem persisted_others (r : Reporter) (installed : Bool) :
    (r.persisted installed).1.lastError = r.lastError
      ∧ (r.persisted installed).1.lastSubscriptionError = r.lastSubscriptionError := by
  unfold Reporter.persisted
  split_ifs <;> exact ⟨rfl, rfl⟩

theorem reconciled_others (r : Reporter) (result : Except String Unit) :
    (r.reconciled result).1.lastError = r.lastError
      ∧ (r.reconciled result).1.waitingLogged = r.waitingLogged := by
  unfold Reporter.reconciled
  split
  · split_ifs <;> exact ⟨rfl, rfl⟩
  · exact ⟨rfl, rfl⟩

theorem discovered_lines (r : Reporter) (error : Option String) :
    (r.discovered error).2 = (changes r.lastError [error]).map discoveryEntry := by
  by_cases h : error = r.lastError
  · simp [Reporter.discovered, changes_cons, h]
  · cases error <;> simp [Reporter.discovered, changes_cons, discoveryEntry, h]

theorem persisted_lines (r : Reporter) (installed : Bool) :
    (r.persisted installed).2 = (changes (!r.waitingLogged) [installed]).flatMap waitingLine
      ∧ (r.persisted installed).1.waitingLogged = !installed := by
  rcases h : r.waitingLogged with _ | _ <;> cases installed <;>
    simp [Reporter.persisted, changes_cons, waitingLine, waitingEntry, h]

theorem reconciled_lines (r : Reporter) (result : Except String Unit) :
    (r.reconciled result).2
        = (changes r.lastSubscriptionError [Register.errorOf result]).map readEntry
      ∧ (r.reconciled result).1.lastSubscriptionError = Register.errorOf result := by
  rcases result with error | _
  · by_cases h : r.lastSubscriptionError = some error
    · simp [Reporter.reconciled, changes_cons, Register.errorOf, h]
    · simp [Reporter.reconciled, changes_cons, Register.errorOf, readEntry, h, ne_comm.mp h]
  · rcases h : r.lastSubscriptionError with _ | error <;>
      simp [Reporter.reconciled, changes_cons, Register.errorOf, readEntry, h]

theorem filter_map_entry {α : Type} {f : α → Entry} {events : List String} (xs : List α)
    (hf : ∀ x, (f x).isOf events = false) : (xs.map f).filter (Entry.isOf events) = [] := by
  simp [List.filter_eq_nil_iff, hf]

theorem filter_map_entry_self {α : Type} {f : α → Entry} {events : List String} (xs : List α)
    (hf : ∀ x, (f x).isOf events = true) :
    (xs.map f).filter (Entry.isOf events) = xs.map f := by
  simp [List.filter_eq_self, hf]

theorem filter_waitingLine {events : List String} (xs : List Bool)
    (h : waitingEntry.isOf events = false) :
    (xs.flatMap waitingLine).filter (Entry.isOf events) = [] := by
  rw [List.filter_eq_nil_iff]
  intro entry hmem hof
  obtain ⟨installed, -, hin⟩ := List.mem_flatMap.mp hmem
  unfold waitingLine at hin
  split_ifs at hin
  · cases hin
  · rw [List.mem_singleton.mp hin, h] at hof
    cases hof

theorem filter_waitingLine_self {events : List String} (xs : List Bool)
    (h : waitingEntry.isOf events = true) :
    (xs.flatMap waitingLine).filter (Entry.isOf events) = xs.flatMap waitingLine := by
  rw [List.filter_eq_self]
  intro entry hmem
  obtain ⟨installed, -, hin⟩ := List.mem_flatMap.mp hmem
  unfold waitingLine at hin
  split_ifs at hin
  · cases hin
  · rw [List.mem_singleton.mp hin, h]

end Lines

/-! ## Sessions -/

section Runs

variable [Rclrs] {server : Server} {l l' l₀ l₁ : Logged} {e : Event} {es : List Event}

/-- What the discoveries of a run failed with, one after the other. -/
def World.discoveries (w₀ : World) (es : List Event) : List (Option String) :=
  history World.step (fun w e => (w.observed e).map fun p => Register.errorOf p.2) w₀ es

/-- What the reconciles of a run failed with. -/
def World.readErrors (w₀ : World) (es : List Event) : List (Option String) :=
  history World.step (fun w e => (w.readResult e).map Register.errorOf) w₀ es

/-- Whether the discoveries of a run were made with the extension installed. -/
def World.presences (w₀ : World) (es : List Event) : List Bool :=
  history World.step (fun w e => (w.observed e).map fun _ => w.extension.isSome) w₀ es

theorem logged_project (l : Logged) (e : Event) :
    (l.step server e).map Logged.world = l.world.step e := by
  simp [Logged.step, Function.comp_def]

theorem logged_spec (h : l.step server e = some l') (hb : e ≠ .beginSession) :
    LogSpec l.world l.reporter e (l'.reporter, (l.world.logs server l.reporter e).2) := by
  obtain ⟨w', hw, rfl⟩ := Option.map_eq_some_iff.mp h
  exact logs_spec server hw hb

/-- The lines of a status over a session: `last` is what was reported of it, `status` what a step
finds and `f` what is written of a change. -/
theorem status_log {α : Type} [DecidableEq α] {events : List String} (last : Reporter → α)
    {status : World → Event → Option α} {f : α → List Entry}
    (hspec : ∀ w r e r' entries, LogSpec w r e (r', entries) →
      entries.filter (Entry.isOf events) = (changes (last r) (status w e).toList).flatMap f
        ∧ last r' = (status w e).getD (last r))
    (hb : l.step server .beginSession = some l₀) (hes : .beginSession ∉ es)
    (hr : run (Logged.step server) l₀ es = some l₁) :
    (l₀.log server es).filter (Entry.isOf events)
      = (changes (last .start) (history World.step status l₀.world es)).flatMap f := by
  have hstart : l₀.reporter = .start := by
    obtain ⟨w', hw, rfl⟩ := Option.map_eq_some_iff.mp hb
    obtain ⟨o, reinitAfter, ho, -⟩ := step_spec hw
    simp [World.logs, Observer.logs, ho]
  have hg : Along (Logged.step server) (fun _ e => e ≠ .beginSession) l₀ es :=
    along_of_forall fun _ he => ne_of_mem_of_not_mem he hes
  have hstep : ∀ l e l', e ≠ .beginSession → Logged.step server l e = some l' →
      (l.world.logs server l.reporter e).2.filter (Entry.isOf events)
          = (changes (last l.reporter) (status l.world e).toList).flatMap f
        ∧ last l'.reporter = (status l.world e).getD (last l.reporter) :=
    fun l e l' hb h => hspec _ _ _ _ _ (logged_spec h hb)
  obtain ⟨h, -⟩ := run_changes hstep hg hr
  rw [history_project logged_project status, hstart] at h
  rw [Logged.log, filter_lines, h]

theorem discovery_spec {w : World} {r r' : Reporter} {entries : List Entry}
    (h : LogSpec w r e (r', entries)) :
    entries.filter (Entry.isOf discoveryEvents)
        = (changes r.lastError ((w.observed e).map fun p =>
          Register.errorOf p.2).toList).flatMap (fun error => [discoveryEntry error])
      ∧ r'.lastError = ((w.observed e).map fun p => Register.errorOf p.2).getD r.lastError := by
  have hevents : ∀ event ∈ discoveryEvents, event ∈ statusEvents := by simp [discoveryEvents]
  rw [← List.map_eq_flatMap]
  cases h with
  | quiet _ ho hr h => exact ⟨by rw [ho, filter_isOf_quiet hevents h]; rfl, by rw [ho]; rfl⟩
  | observed o graph ho hr =>
    rw [ho, List.filter_append, discovered_lines, (persisted_lines _ _).1,
      filter_map_entry_self _ fun error => (isOf_discoveryEntry error).1]
    rw [filter_waitingLine _ isOf_waitingEntry.1, List.append_nil]
    exact ⟨rfl, (persisted_others _ _).1⟩
  | reconciled result entries ho hr h =>
    rw [ho, List.filter_append, filter_isOf_quiet hevents h, (reconciled_lines _ _).1,
      filter_map_entry _ fun error => (isOf_readEntry error).1]
    exact ⟨rfl, (reconciled_others _ _).1⟩

theorem read_spec {w : World} {r r' : Reporter} {entries : List Entry}
    (h : LogSpec w r e (r', entries)) :
    entries.filter (Entry.isOf readEvents)
        = (changes r.lastSubscriptionError
          ((w.readResult e).map Register.errorOf).toList).flatMap (fun error => [readEntry error])
      ∧ r'.lastSubscriptionError
        = ((w.readResult e).map Register.errorOf).getD r.lastSubscriptionError := by
  have hevents : ∀ event ∈ readEvents, event ∈ statusEvents := by simp [readEvents]
  rw [← List.map_eq_flatMap]
  cases h with
  | quiet _ ho hr h => exact ⟨by rw [hr, filter_isOf_quiet hevents h]; rfl, by rw [hr]; rfl⟩
  | observed o graph ho hr =>
    rw [hr, List.filter_append, discovered_lines, (persisted_lines _ _).1,
      filter_map_entry _ fun error => (isOf_discoveryEntry error).2.1,
      filter_waitingLine _ isOf_waitingEntry.2.1]
    exact ⟨rfl, (persisted_others _ _).2⟩
  | reconciled result entries ho hr h =>
    rw [hr, List.filter_append, filter_isOf_quiet hevents h, (reconciled_lines _ _).1,
      filter_map_entry_self _ fun error => (isOf_readEntry error).2.1]
    exact ⟨rfl, (reconciled_lines _ _).2⟩

theorem waiting_spec {w : World} {r r' : Reporter} {entries : List Entry}
    (h : LogSpec w r e (r', entries)) :
    entries.filter (Entry.isOf waitingEvents)
        = (changes (!r.waitingLogged)
          ((w.observed e).map fun _ => w.extension.isSome).toList).flatMap waitingLine
      ∧ (!r'.waitingLogged)
        = ((w.observed e).map fun _ => w.extension.isSome).getD (!r.waitingLogged) := by
  have hevents : ∀ event ∈ waitingEvents, event ∈ statusEvents := by simp [waitingEvents]
  cases h with
  | quiet _ ho hr h => exact ⟨by rw [ho, filter_isOf_quiet hevents h]; rfl, by rw [ho]; rfl⟩
  | observed o graph ho hr =>
    rw [ho, List.filter_append, discovered_lines, (persisted_lines _ _).1, (persisted_lines _ _).2,
      filter_map_entry _ fun error => (isOf_discoveryEntry error).2.2,
      filter_waitingLine_self _ isOf_waitingEntry.2.2]
    exact ⟨rfl, Bool.not_not _⟩
  | reconciled result entries ho hr h =>
    rw [ho, List.filter_append, filter_isOf_quiet hevents h, (reconciled_lines _ _).1,
      (reconciled_others _ _).2, filter_map_entry _ fun error => (isOf_readEntry error).2.2]
    exact ⟨rfl, rfl⟩

/-- Over a session, discovery and the reads of the subscriptions are reported where their error is
another one than the last time, and a missing extension where it was there the last time. -/
theorem session_log (hb : l.step server .beginSession = some l₀) (hes : .beginSession ∉ es)
    (hr : run (Logged.step server) l₀ es = some l₁) :
    (l₀.log server es).filter (Entry.isOf discoveryEvents)
        = (changes none (l₀.world.discoveries es)).map discoveryEntry
      ∧ (l₀.log server es).filter (Entry.isOf readEvents)
        = (changes none (l₀.world.readErrors es)).map readEntry
      ∧ (l₀.log server es).filter (Entry.isOf waitingEvents)
        = (changes true (l₀.world.presences es)).flatMap waitingLine := by
  rw [List.map_eq_flatMap, List.map_eq_flatMap]
  exact ⟨status_log Reporter.lastError (fun _ _ _ _ _ => discovery_spec) hb hes hr,
    status_log Reporter.lastSubscriptionError (fun _ _ _ _ _ => read_spec) hb hes hr,
    status_log (fun r => !r.waitingLogged) (fun _ _ _ _ _ => waiting_spec) hb hes hr⟩

end Runs

section Witness

open Reference

def server : Server := ⟨"postgres", 0, "rmw_fastrtps_cpp"⟩

/-- Two iterations that cannot read the subscriptions. A client drops the extension when the second
has tried. -/
def failedReads : List Event :=
  .advance 1000000 :: toGraph .idle ++ [.observe (.ok talker), .startPoll .refused, .decide]
    ++ [.advance 1000000, .graphChange] ++ toGraph .idle
    ++ [.dropExtension, .observe (.error "timeout"), .decide]

theorem failedReads_one : .beginSession ∉ failedReads := by
  simp [failedReads, toGraph]

/-- The table that could not be read twice is reported once. -/
theorem session_log_failedReads : ∃ l₀ l₁,
    run (Logged.step server) l₀ failedReads = some l₁
      ∧ (l₀.log server failedReads).filter (Entry.isOf readEvents)
        = [readEntry (some "SPI error: Connect")]
      ∧ (l₀.log server failedReads).filter (Entry.isOf waitingEvents) = [waitingEntry] := by
  have h : ((run World.step (.initial .default) [.createExtension, .startWorker 1]).any fun w =>
      (Logged.step server ⟨w, .start⟩ .beginSession).any fun l₀ =>
        (run (Logged.step server) l₀ failedReads).any fun l₁ => decide
          (l₀.world.readErrors failedReads
              = [some "SPI error: Connect", some "SPI error: Connect"]
            ∧ l₀.world.presences failedReads = [true, false])) = true := by
    decide +kernel
  simp only [Option.any_eq_true, decide_eq_true_eq] at h
  obtain ⟨w, -, l₀, hb, l₁, hr, hreads, hpresent⟩ := h
  obtain ⟨-, hlines, hwait⟩ := session_log hb failedReads_one hr
  rw [hreads] at hlines
  rw [hpresent] at hwait
  refine ⟨l₀, l₁, hr, ?_, ?_⟩
  · simpa [changes_cons] using hlines
  · simpa [changes_cons, waitingLine] using hwait

end Witness

end PgRos2
