import PgRos2.Proofs.Worker

/-!
# The frame of a step

The tables the worker fills with what ROS answers, and what it remembers of them. Installing the
extension and dropping it, the start and the failure of a worker, the graph step and the parameter
steps are the only ones that touch them (`Frame.of_spec`). The other steps of a session move the
subscriptions alone (`SubscriptionStep.of_spec`).
-/

namespace PgRos2

open Lib

/-- The tables of an installation but those of the subscriptions. -/
def Extension.filled (ext : Extension) : Oid × (List (Name × Time) × List (Name × Time)
    × Option Status) × List (Parameter × Time) × Option Status :=
  (ext.oid, (ext.nodes, ext.topics, ext.workerStatus), ext.parameters, ext.parameterStatus)

/-- What the worker remembers of them, with its process. -/
def Observer.remembers (o : Observer) : (ℕ × Option GraphSnapshot × Option Oid)
    × Option (List Parameter) × Option Oid :=
  ((o.pid, o.previous, o.extensionOid), o.previousParameters, o.parameterExtension)

/-- The tables stay as they are, and so does the memory of the worker unless that is gone. -/
structure Frame (w w' : World) : Prop where
  nextOid : w'.nextOid = w.nextOid
  tables : w'.extension.map Extension.filled = w.extension.map Extension.filled
  memory : w'.worker = none ∨ w'.worker.map Observer.remembers = w.worker.map Observer.remembers

variable {w w' : World} {o : Observer} {s : Session}

/-- What is read off those tables stays with them. -/
theorem Frame.map_tables (h : Frame w w') {β : Type} (f : _ → β) :
    w'.extension.map (fun ext => f ext.filled) = w.extension.map fun ext => f ext.filled := by
  simpa [Option.map_map, Function.comp_def] using congrArg (Option.map f) h.tables

/-- What is read off the memory of the worker stays with it. -/
theorem Frame.map_memory (h : Frame w w') {β : Type} (f : _ → β) :
    w'.worker = none
      ∨ w'.worker.map (fun o => f o.remembers) = w.worker.map fun o => f o.remembers := by
  refine h.memory.imp id fun hm => ?_
  simpa [Option.map_map, Function.comp_def] using congrArg (Option.map f) hm

theorem Frame.of_lose (w : World) : Frame w { w with worker := none } := ⟨rfl, rfl, .inl rfl⟩

theorem Frame.of_resume (ho : w.worker = some o) {ext : Option Extension}
    (hext : ext.map Extension.filled = w.extension.map Extension.filled) (o' : Observer)
    (s : Session) (hm : o'.remembers = o.remembers) :
    Frame w ({ w with extension := ext }.resume o' s) :=
  ⟨rfl, hext, .inr (by rw [ho]; exact congrArg some hm)⟩

theorem Frame.of_onExtension (w : World) {f : Extension → Extension}
    (hf : ∀ ext, (f ext).filled = ext.filled) : Frame w (w.onExtension f) :=
  ⟨rfl, by simp [World.onExtension, Function.comp_def, hf], .inr rfl⟩

/-! ## The steps that move the subscriptions -/

/-- What such a step leaves: a worker with another live map, and a session with the same timers and
the same poll, that starts none; of the tables only those of the subscriptions have changed. -/
def SubscriptionStep (w : World) (o : Observer) (s : Session) (w' : World) : Prop :=
  ∃ (extension : Option Extension) (subscriptions : LiveMap) (phase : Phase) (dirty : Bool)
    (nextMessageFlush nextSubscriptionPoll : Time),
    extension.map Extension.filled = w.extension.map Extension.filled
      ∧ (phase = s.phase ∨ ∀ nodes, phase ≠ .start nodes)
      ∧ w' = { w with extension }.resume { o with subscriptions }
        { s with phase, dirty, nextMessageFlush, nextSubscriptionPoll }

theorem SubscriptionStep.of_resume (subscriptions : LiveMap) {phase : Phase}
    (hphase : phase = s.phase ∨ ∀ nodes, phase ≠ .start nodes) (dirty : Bool)
    (nextMessageFlush nextSubscriptionPoll : Time) :
    SubscriptionStep w o s (w.resume { o with subscriptions }
      { s with phase, dirty, nextMessageFlush, nextSubscriptionPoll }) :=
  ⟨w.extension, subscriptions, phase, dirty, _, _, rfl, hphase, rfl⟩

theorem SubscriptionStep.frame (ho : w.worker = some o) (h : SubscriptionStep w o s w') :
    Frame w w' := by
  obtain ⟨ext, subscriptions, phase, dirty, _, _, hext, -, rfl⟩ := h
  exact .of_resume ho hext _ _ rfl

theorem readDesired_spec (now : Time) (answers : Except String SubscribeAnswers) :
    SubscriptionStep w o s (w.readDesired o s now answers) := by
  unfold World.readDesired
  split
  · exact .of_resume o.subscriptions (.inr (by nofun)) _ _ _
  · split
    · exact .of_resume o.subscriptions (.inr (by nofun)) _ _ _
    · simp only []
      split
      · exact .of_resume _ (.inr (by nofun)) _ _ _
      · exact .of_resume _ (.inr (by nofun)) _ _ _

theorem writeBack_spec (pass : Pass) : SubscriptionStep w o s (w.writeBack o s pass) := by
  refine ⟨_, o.subscriptions, _, s.dirty, _, _, ?_, .inr (by nofun), rfl⟩
  refine (Frame.of_onExtension w fun ext => ?_).tables
  rw [writeBack_eq]
  rfl

variable [Rclrs]

theorem flush_filled {topics : LiveMap} {now : Time} {ext r : Option Extension}
    (h : PgRos2.flush topics now ext = some r) :
    r.map Extension.filled = ext.map Extension.filled := by
  rcases ext with _ | ext
  · cases h
    rfl
  · obtain ⟨ext', hext, h⟩ := Option.bind_eq_some_iff.mp h
    obtain ⟨messages, -, rfl⟩ := writeMessages_eq_some now hext
    cases h
    rw [writeErrors_eq]
    rfl

/-- A flush is one, unless its transaction aborts. -/
theorem flush_spec (now : Time) : w.flush o s now = { w with worker := none }
    ∨ SubscriptionStep w o s (w.flush o s now) := by
  unfold World.flush
  split
  · exact .inr (.of_resume o.subscriptions (.inr (by nofun)) _ _ _)
  · split
    · exact .inl rfl
    · rename_i ext h
      exact .inr ⟨ext, _, _, s.dirty, _, _, flush_filled h, .inr (by nofun), rfl⟩

/-- What an iteration does with the subscriptions is one, and so are a message, a change of the
graph and the ends of the spin and of the iteration. -/
theorem SubscriptionStep.of_spec {e : Event} (h : StepSpec w e w')
    (he : match e with
      | .message .. | .graphChange | .spun | .readDesired _ | .writeBack | .decide => True
      | _ => False) :
    ∃ o s, w.worker = some o ∧ o.session = some s ∧ SubscriptionStep w o s w' := by
  cases e with
  | message topic type message =>
    obtain ⟨o, s, ⟨ho, hs, -⟩, -, rfl⟩ := h
    exact ⟨o, s, ho, hs, .of_resume _ (.inl rfl) _ _ _⟩
  | graphChange =>
    obtain ⟨o, s, ⟨ho, hs, -⟩, rfl⟩ := h
    exact ⟨o, s, ho, hs, .of_resume o.subscriptions (.inl rfl) _ _ _⟩
  | spun =>
    obtain ⟨o, s, ⟨ho, hs, -⟩, rfl⟩ := h
    exact ⟨o, s, ho, hs, .of_resume o.subscriptions (.inr (by nofun)) _ _ _⟩
  | readDesired answers =>
    obtain ⟨o, s, now, ⟨ho, hs, -⟩, rfl⟩ := h
    exact ⟨o, s, ho, hs, readDesired_spec now answers⟩
  | writeBack =>
    obtain ⟨o, s, pass, ⟨ho, hs, -⟩, rfl⟩ := h
    exact ⟨o, s, ho, hs, writeBack_spec pass⟩
  | decide =>
    obtain ⟨o, s, ⟨ho, hs, -⟩, rfl⟩ := h
    refine ⟨o, s, ho, hs, .of_resume o.subscriptions (.inr fun nodes => ?_) _ _ _⟩
    split <;> nofun
  | _ => exact he.elim

/-- Every step but those that fill the tables leaves them and the memory. -/
theorem Frame.of_spec {e : Event} (h : StepSpec w e w')
    (he : match e with
      | .createExtension | .dropExtension | .startWorker _ | .fail _ | .tick _ | .observe _
      | .startPoll _ => False
      | _ => True) : Frame w w' := by
  cases e with
  | advance d => exact h ▸ ⟨rfl, rfl, .inr rfl⟩
  | reload settings => exact h ▸ ⟨rfl, rfl, .inr rfl⟩
  | insert topic requestedType registeredAt keepaliveAt =>
    refine h ▸ .of_onExtension w fun ext => ?_
    unfold Extension.insertSubscription
    split <;> rfl
  | delete topic => exact h ▸ .of_onExtension w fun _ => rfl
  | keepalive topic keepaliveAt => exact h ▸ .of_onExtension w fun _ => rfl
  | crash => exact h ▸ .of_lose w
  | abort => exact h ▸ .of_lose w
  | terminate => exact h ▸ .of_lose w
  | beginSession =>
    obtain ⟨o, reinitAfter, ho, rfl⟩ := h
    exact .of_resume ho rfl _ _ rfl
  | createExtension => exact he.elim
  | dropExtension => exact he.elim
  | startWorker pid => exact he.elim
  | fail error => exact he.elim
  | tick answers => exact he.elim
  | observe graph => exact he.elim
  | startPoll answers => exact he.elim
  | flush =>
    obtain ⟨o, s, now, ⟨ho, -⟩, rfl⟩ := h
    obtain hlost | hs := flush_spec now
    · exact hlost ▸ .of_lose w
    · exact hs.frame ho
  | _ =>
    obtain ⟨o, s, ho, -, hs⟩ := SubscriptionStep.of_spec h trivial
    exact hs.frame ho

end PgRos2
