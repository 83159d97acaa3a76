import PgRos2.Proofs.Database

/-!
# What a step does

Every event, with the states it can happen in and the state it leaves (`step_spec`). A step of the
session tells the phase it happened in; the other steps say what they leave of the worker.
-/

namespace PgRos2

open Lib

/-- The worker runs a session that stands in a phase. -/
def World.InPhase (w : World) (o : Observer) (s : Session) (p : Phase) : Prop :=
  w.worker = some o ∧ o.session = some s ∧ s.phase = p

/-- The state an event leaves, and what it takes for it to happen. -/
def StepSpec [Rclrs] (w : World) : Event → World → Prop
  | .advance d, w' => w' = { w with now := w.now + d }
  | .reload settings, w' => w' = { w with settings }
  | .insert topic requestedType registeredAt keepaliveAt, w' => w' = w.onExtension fun ext =>
    ext.insertSubscription topic requestedType registeredAt keepaliveAt
  | .delete topic, w' => w' = w.onExtension fun ext => ext.deleteSubscription topic
  | .keepalive topic keepaliveAt, w' =>
    w' = w.onExtension fun ext => ext.updateKeepalive topic keepaliveAt
  | .createExtension, w' => w.extension = none
    ∧ w' = { w with extension := some (.new w.nextOid), nextOid := w.nextOid + 1 }
  | .dropExtension, w' => w' = { w with extension := none }
  | .startWorker pid, w' => w.worker = none
    ∧ w' = { w with worker := some (.start pid w.settings) }
  | .crash, w' => w' = { w with worker := none }
  | .fail error, w' => ∃ o, w.worker = some o ∧ w' = { w with
      worker := none,
      extension := (persistSnapshot w.extension o.pid w.now (.error error) none none).1 }
  | .beginSession, w' => ∃ o reinitAfter, w.worker = some o
    ∧ w' = w.resume { o with subscriptions := ∅, reinitAfter } (.start w.now)
  | .abort, w' => w' = { w with worker := none }
  | .terminate, w' => w' = { w with worker := none }
  | .message topic _ message, w' => ∃ o s, w.InPhase o s .spin ∧ topic ∈ o.subscriptions
    ∧ w' = w.resume
      { o with
        subscriptions := o.subscriptions.update topic (Live.callback · topic message) } s
  | .graphChange, w' => ∃ o s, w.InPhase o s s.phase ∧ w' = w.resume o { s with dirty := true }
  | .spun, w' => ∃ o s, w.InPhase o s .spin ∧ w' = w.resume o { s with phase := .flush w.now }
  | .flush, w' => ∃ o s now, w.InPhase o s (.flush now) ∧ w' = w.flush o s now
  | .readDesired answers, w' =>
    ∃ o s now, w.InPhase o s (.read now) ∧ w' = w.readDesired o s now answers
  | .writeBack, w' => ∃ o s pass, w.InPhase o s (.write pass) ∧ w' = w.writeBack o s pass
  | .tick answers, w' => ∃ o s, w.InPhase o s .poll ∧ w' = w.tick o s answers
  | .observe graph, w' => ∃ o s, w.InPhase o s .graph ∧ w' = w.observe o s graph
  | .startPoll answers, w' =>
    ∃ o s nodes, w.InPhase o s (.start nodes) ∧ w' = w.startPoll o s nodes answers
  | .decide, w' => ∃ o s, w.InPhase o s .decide ∧ w' = w.decide o s

/-! ## Iterations -/

/-- Peers that are ready and have answered nothing. -/
def TickAnswers.idle : TickAnswers where
  listIsReady _ := .ok true
  getIsReady _ := .ok true
  callList _ := .ok ()
  callGet _ _ := .ok ()
  recvList _ := .ok none
  recvGet _ := .ok none

/-- An iteration of the loop that cannot read the subscriptions, up to its graph step. -/
def toGraph [Bounds] (answers : TickAnswers) : List Event :=
  [.spun, .flush, .readDesired (.error "SPI error: Connect"), .tick answers]

variable [Rclrs]

theorem sessionStep_spec {w w' : World} {o : Observer} {s : Session} {e : Event}
    (ho : w.worker = some o) (hs : o.session = some s) (h : w.sessionStep o s e = some w') :
    StepSpec w e w' := by
  unfold World.sessionStep at h
  split at h
  iterate 2
    · split at h
      · cases h
        rfl
      · cases h
  · split at h
    · rename_i hp
      split at h
      · rename_i ht
        cases h
        exact ⟨o, s, ⟨ho, hs, hp⟩, ht, rfl⟩
      · cases h
    · cases h
  · cases h
    exact ⟨o, s, ⟨ho, hs, rfl⟩, rfl⟩
  iterate 8
    · split at h
      · rename_i hp
        cases h
        first
          | exact ⟨o, s, ⟨ho, hs, hp⟩, rfl⟩
          | exact ⟨o, s, _, ⟨ho, hs, hp⟩, rfl⟩
      · cases h
  · cases h

theorem workerStep_spec {w w' : World} {o : Observer} {e : Event} (ho : w.worker = some o)
    (h : w.workerStep o e = some w') : StepSpec w e w' := by
  unfold World.workerStep at h
  split at h
  · cases h
    rfl
  · cases h
    exact ⟨o, ho, rfl⟩
  · split at h
    · cases h
      exact ⟨o, _, ho, rfl⟩
    · split at h
      · cases h
        exact ⟨o, _, ho, rfl⟩
      · cases h
  · split at h
    · cases h
    · rename_i s hs
      exact sessionStep_spec ho hs h

theorem step_spec {w w' : World} {e : Event} (h : w.step e = some w') : StepSpec w e w' := by
  unfold World.step at h
  split at h <;> try (cases h; rfl)
  · split at h
    · cases h
    · rename_i hx
      cases h
      exact ⟨hx, rfl⟩
  · split at h
    · cases h
    · rename_i hx
      cases h
      exact ⟨hx, rfl⟩
  · split at h
    · cases h
    · rename_i o ho
      exact workerStep_spec ho h

/-! ## The graph step -/

/-- The graph step reads the graph: the startup delay is over and the graph may have changed. -/
def World.Due (w : World) (s : Session) : Prop := ¬ (w.now < s.startup ∨ s.dirty = false)

instance (w : World) (s : Session) : Decidable (w.Due s) := inferInstanceAs (Decidable (¬ _))

/-- The timers after the graph was read. -/
def Session.seen (s : Session) (now : Time) (snapshot : GraphSnapshot) : Session :=
  if snapshot.nodes.isEmpty ∧ snapshot.topics.isEmpty then
    { s with emptySince := some (s.emptySince.getD now) }
  else { s with emptySince := none, sawGraph := true }

section Observe

variable {w : World} {o : Observer} {s : Session}

omit [Rclrs]

theorem World.observe_of_not_due (h : ¬ w.Due s) (graph : Except String RosGraph) :
    w.observe o s graph = w.resume o { s with phase := .spin } := by
  rw [observe, if_pos (not_not.mp h)]

/-- Without the extension the worker forgets what it saved. -/
theorem World.observe_of_absent (h : w.Due s) (hx : w.extension = none)
    (graph : Except String RosGraph) :
    w.observe o s graph = w.resume
      { o with
        previous := none, extensionOid := none
        previousParameters := none, parameterExtension := none }
      { s with dirty := false, phase := .decide, emptySince := none, parameterPoll := none } := by
  rw [observe, if_neg h]
  rcases w with ⟨now, settings, nextOid, extension, worker⟩
  cases hx
  cases graph <;> rfl

/-- A failed read keeps the last snapshot. -/
theorem World.observe_of_error (h : w.Due s) {ext : Extension} (hx : w.extension = some ext)
    (error : String) :
    w.observe o s (.error error)
      = { w with
          extension := (persistSnapshot (some ext) o.pid w.now (.error error) o.previous
            o.extensionOid).1 }.resume { o with extensionOid := some ext.oid }
        { s with dirty := false, phase := .decide, emptySince := none } := by
  rw [observe, if_neg h, hx]
  rfl

theorem World.observe_of_ok (h : w.Due s) {ext : Extension} (hx : w.extension = some ext)
    (graph : RosGraph) :
    ∃ phase, (phase = .decide ∨ phase = .start (GraphSnapshot.read o.name graph).nodes)
      ∧ w.observe o s (.ok graph)
        = { w with
            extension := (persistSnapshot (some ext) o.pid w.now
              (.ok (GraphSnapshot.read o.name graph)) o.previous o.extensionOid).1 }.resume
          { o with
            previous := some (GraphSnapshot.read o.name graph), extensionOid := some ext.oid }
          { { s with dirty := false }.seen w.now (GraphSnapshot.read o.name graph) with
            phase } := by
  refine ⟨if (({ s with dirty := false } : Session).seen w.now
      (GraphSnapshot.read o.name graph)).parameterPoll.isNone
      ∧ w.now ≥ (({ s with dirty := false } : Session).seen w.now
        (GraphSnapshot.read o.name graph)).nextParameters
    then .start (GraphSnapshot.read o.name graph).nodes else .decide, ?_, ?_⟩
  · split
    · exact .inr rfl
    · exact .inl rfl
  · rw [observe, if_neg h, hx]
    rfl

end Observe

/-! ## The parameter steps -/

/-- What a parameter step leaves: no worker, or one that knows other parameters and whose session
polls on or waits for the next poll; nothing else has changed in the tables. -/
def PollStep (w : World) (o : Observer) (s : Session) (w' : World) : Prop :=
  w' = { w with worker := none }
    ∨ ∃ (f : Extension → Extension) (previousParameters : Option (List Parameter))
      (parameterExtension : Option Oid) (phase : Phase) (parameterPoll : Option Poll)
      (nextParameters : Time),
      (∀ ext, ∃ parameters parameterStatus, f ext = { ext with parameters, parameterStatus })
        ∧ (phase = .graph ∨ phase = .decide)
        ∧ w' = (w.onExtension f).resume { o with previousParameters, parameterExtension }
          { s with phase, parameterPoll, nextParameters }

section Poll

variable {w : World} {o : Observer} {s : Session} {phase : Phase} {parameterPoll : Option Poll}
  {nextParameters : Time}

omit [Rclrs] in
theorem PollStep.of_resume (hp : phase = .graph ∨ phase = .decide) :
    PollStep w o s (w.resume o { s with phase, parameterPoll, nextParameters }) :=
  .inr ⟨id, o.previousParameters, o.parameterExtension, phase, parameterPoll, nextParameters,
    fun ext => ⟨_, _, rfl⟩, hp, by simp [World.onExtension]⟩

theorem PollStep.of_persist {result : Except String (List Parameter)}
    {previous : Option (List Parameter)} {oid : Option Oid} {r : Option Extension × Option Oid}
    (h : persist w.extension o.pid w.now result previous oid = some r)
    (previousParameters : Option (List Parameter)) (parameterExtension : Option Oid)
    (hp : phase = .graph ∨ phase = .decide) :
    PollStep w o s ({ w with extension := r.1 }.resume
      { o with previousParameters, parameterExtension }
      { s with phase, parameterPoll, nextParameters }) := by
  rcases hx : w.extension with _ | ext
  · rw [hx] at h
    cases h
    refine .inr ⟨id, previousParameters, parameterExtension, phase, parameterPoll, nextParameters,
      fun ext => ⟨_, _, rfl⟩, hp, ?_⟩
    simp [World.onExtension, hx]
  · rw [hx] at h
    obtain ⟨parameters, parameterStatus, rfl⟩ := persist_frame h
    refine .inr ⟨fun ext => { ext with parameters, parameterStatus }, previousParameters,
      parameterExtension, phase, parameterPoll, nextParameters, fun ext => ⟨_, _, rfl⟩, hp, ?_⟩
    simp [World.onExtension, hx]

theorem completePoll_spec (s : Session) (result : Except String (List Parameter)) :
    PollStep w o s (w.completePoll o s result) := by
  unfold World.completePoll
  split
  · exact .inl rfl
  · rename_i h
    exact .of_persist h _ _ (.inl rfl)

theorem tick_spec (s : Session) (answers : TickAnswers) : PollStep w o s (w.tick o s answers) := by
  unfold World.tick
  split
  · exact .of_resume (.inl rfl)
  · split
    · exact .of_resume (.inl rfl)
    · exact completePoll_spec _ _
    · exact completePoll_spec _ _

theorem startPoll_spec (s : Session) (nodes : List Name) (answers : StartAnswers) :
    PollStep w o s (w.startPoll o s nodes answers) := by
  unfold World.startPoll
  split
  · exact .of_resume (.inr rfl)
  · split
    · exact .inl rfl
    · rename_i h
      exact .of_persist h o.previousParameters _ (.inr rfl)

end Poll

end PgRos2
