import PgRos2.Lib.Register
import PgRos2.Proofs.Frame
import PgRos2.Proofs.Parameters
import PgRos2.Proofs.Refresh
import PgRos2.Proofs.Registry

/-!
# What the statuses say

The tables of the graph with `worker_status`, and `ros2.parameters` with `parameter_status`, are
registers behind a writer that skips saves, and a step of the system is a step of both
(`step_graphRegister`, `step_parameterRegister`). So in every run both are honest: a table that was
never rewritten is empty, and one that was shows every snapshot saved from then on.
-/

namespace PgRos2

open Lib Register

/-! ## The graph -/

/-- The tables of the graph with their dates and their status. -/
def Extension.graphRegister (ext : Extension) : Register (List Name × List Name) String Time where
  rows := ext.graph.2
  dates := ext.nodes.map Prod.snd ++ ext.topics.map Prod.snd
  checked := ext.workerStatus.map Status.lastChecked
  refreshed := ext.workerStatus.bind Status.lastRefreshed
  error := ext.workerStatus.bind Status.lastError

def graphRegister (w : World) : Mirror GraphSnapshot (Register (List Name × List Name) String Time)
    where
  table := w.extension.map fun ext => (ext.oid, ext.graphRegister)
  next := w.nextOid
  held := w.worker.bind Observer.previous
  seen := w.worker.bind Observer.extensionOid

/-- The outcome of discovery that an event records, and the error the worker ends with. -/
def World.graphNote [Bounds] (w : World) : Event → Option (Note GraphSnapshot String Time)
  | .fail error => w.extension.map fun ext => ⟨ext.oid, w.now, .error error⟩
  | e => (w.discovery e).map fun p => ⟨p.1, w.now, p.2⟩

abbrev GraphRegisterStep (now : Time) :=
  @Register.Step GraphSnapshot (List Name × List Name) String Time showsGraph Eq now

section

variable {w w' : World} {o : Observer} {s : Session}

/-- The worker is gone, or remembers what it did, and the tables stay. -/
theorem graphRegister_quiet (hoid : w'.nextOid = w.nextOid)
    (ht : (graphRegister w').table = (graphRegister w).table)
    (hm : w'.worker = none ∨ w'.worker.map (fun o => (o.previous, o.extensionOid))
      = w.worker.map fun o => (o.previous, o.extensionOid)) (now : Time) :
    GraphRegisterStep now (graphRegister w) none (graphRegister w') :=
  .quiet hoid ht (Mirror.memory_cases hm)

theorem table_of_filled
    (h : w'.extension.map Extension.filled = w.extension.map Extension.filled) :
    (graphRegister w').table = (graphRegister w).table := by
  unfold graphRegister
  rcases hx : w.extension with _ | ext
  · rw [hx, Option.map_none, Option.map_eq_none_iff] at h
    rw [h]
  · rw [hx] at h
    obtain ⟨ext', hx', heq⟩ := Option.map_eq_some_iff.mp h
    simp only [Extension.filled, Prod.mk.injEq] at heq
    obtain ⟨hoid, ⟨hnodes, htopics, hstatus⟩, -⟩ := heq
    simp [hx', Extension.graphRegister, Extension.graph, hoid, hnodes, htopics, hstatus]

theorem Frame.graphStep (h : Frame w w') (now : Time) :
    GraphRegisterStep now (graphRegister w) none (graphRegister w') :=
  graphRegister_quiet h.nextOid (table_of_filled h.tables)
    (h.map_memory fun m => (m.1.2.1, m.1.2.2)) now

theorem PollStep.graphStep (ho : w.worker = some o) (h : PollStep w o s w') (now : Time) :
    GraphRegisterStep now (graphRegister w) none (graphRegister w') := by
  obtain rfl | ⟨f, previousParameters, parameterExtension, phase, _, _, hf, -, rfl⟩ := h
  · exact .forget _
  · refine graphRegister_quiet ?_ ?_ (.inr ?_) now
    · rfl
    · simp only [graphRegister, World.onExtension, World.resume, Option.map_map]
      congr 1
      funext ext
      obtain ⟨parameters, parameterStatus, heq⟩ := hf ext
      rw [Function.comp, heq]
      rfl
    · rw [ho]
      rfl

/-- `persist_snapshot` of a snapshot rewrites the tables, or checks them. -/
theorem persistSnapshot_ok_register (ext : Extension) (pid : ℕ) (now : Time) (v : GraphSnapshot)
    (previous : Option GraphSnapshot) (oid : Option Oid) :
    (persistSnapshot (some ext) pid now (.ok v) previous oid).1.map
        (fun ext => (ext.oid, ext.graphRegister))
      = some (ext.oid, if snapshotChanged v previous oid ext.oid then
          Register.rewrite (v.nodes, v.topics) ((v.nodes ++ v.topics).map fun _ => now) now
        else ext.graphRegister.check now none) := by
  rw [persistSnapshot_ok]
  unfold Extension.withGraph
  split
  · simp [Extension.graphRegister, Extension.graph, Register.rewrite, upsertStatus,
      Function.comp_def, *]
  · simp [Extension.graphRegister, Extension.graph, Register.check, upsertStatus, *]

variable [Bounds]

/-- The graph step records what discovery returned. -/
theorem observe_graphRegister (h : w.InPhase o s .graph) (graph : Except String RosGraph) :
    GraphRegisterStep w.now (graphRegister w) (w.graphNote (.observe graph))
      (graphRegister (w.observe o s graph)) := by
  obtain ⟨ho, hs, hp⟩ := id h
  have hnote : w.graphNote (.observe graph)
      = (w.discovery (.observe graph)).map fun p => ⟨p.1, w.now, p.2⟩ := rfl
  rw [hnote]
  by_cases hdue : w.Due s
  · rcases hx : w.extension with _ | ext
    · rw [World.observe_of_absent hdue hx]
      simp only [World.discovery, ho, hs, hx, Option.bind_eq_bind, Option.bind_some,
        Option.bind_none, Option.map_none]
      exact .forget _
    · have htable : (graphRegister w).table = some (ext.oid, ext.graphRegister) := by
        simp [graphRegister, hx]
      rw [discovery_of_due h hdue hx, Option.map_some]
      rcases graph with error | graph
      · rw [World.observe_of_error hdue hx]
        have hw : graphRegister ({ w with extension := (persistSnapshot (some ext) o.pid w.now
              (.error error) o.previous o.extensionOid).1 }.resume
            { o with extensionOid := some ext.oid }
            { s with dirty := false, phase := .decide, emptySince := none })
            = { graphRegister w with
              table := some (ext.oid, ext.graphRegister.check w.now (some error))
              seen := some ext.oid } := by
          simp only [graphRegister, ho]
          rfl
        exact hw ▸ .fail _ _ htable
      · obtain ⟨phase, -, hobs⟩ := World.observe_of_ok (o := o) hdue hx graph
        have hw (r : Register (List Name × List Name) String Time)
            (hr : (persistSnapshot (some ext) o.pid w.now
              (.ok (GraphSnapshot.read o.name graph)) o.previous o.extensionOid).1.map
                (fun ext => (ext.oid, ext.graphRegister)) = some (ext.oid, r)) :
            graphRegister (w.observe o s (.ok graph)) = { graphRegister w with
              table := some (ext.oid, r)
              held := some (GraphSnapshot.read o.name graph)
              seen := some ext.oid } := by
          rw [hobs, ← hr]
          rfl
        have hr := persistSnapshot_ok_register ext o.pid w.now (GraphSnapshot.read o.name graph)
          o.previous o.extensionOid
        rw [hw _ hr]
        split
        · exact .rewrite _ htable rfl (by simp)
        · rename_i hc
          simp only [snapshotChanged, decide_eq_true_eq, not_or, not_not] at hc
          have hseen : (graphRegister w).seen = some ext.oid := by simp [graphRegister, ho, hc.2]
          rw [← hseen]
          exact .keep _ htable (by simp [graphRegister, ho, hc.1]) hseen rfl
  · rw [discovery_of_not_due h hdue, World.observe_of_not_due hdue, Option.map_none]
    exact (Frame.of_resume ho rfl o _ rfl).graphStep _

end

section

variable [Rclrs] {w w' : World} {e : Event}

/-- A step of the system is a step of the register, which records what the event does. -/
theorem step_graphRegister (h : w.step e = some w') :
    GraphRegisterStep w.now (graphRegister w) (w.graphNote e) (graphRegister w') := by
  have hs := step_spec h
  cases e with
  | createExtension =>
    obtain ⟨hx, rfl⟩ := hs
    exact .create _ _ (by simp [graphRegister, hx])
  | dropExtension => exact hs ▸ .drop _
  | startWorker pid =>
    obtain ⟨-, rfl⟩ := hs
    exact .forget _
  | fail error =>
    obtain ⟨o, -, hw⟩ := hs
    rcases hx : w.extension with _ | ext
    · have hnote : w.graphNote (.fail error) = none := by simp [World.graphNote, hx]
      have hr : graphRegister w' = { graphRegister w with held := none, seen := none } := by
        simp [hw, graphRegister, hx, persistSnapshot]
      rw [hnote, hr]
      exact .forget _
    · have hnote : w.graphNote (.fail error) = some ⟨ext.oid, w.now, .error error⟩ := by
        simp [World.graphNote, hx]
      have hr : graphRegister w' = { graphRegister w with
          table := some (ext.oid, ext.graphRegister.check w.now (some error))
          held := none
          seen := none } := by
        rw [hw, hx]
        rfl
      rw [hnote, hr]
      exact .quit _ _ (by simp [graphRegister, hx])
  | tick answers =>
    obtain ⟨o, s, ⟨ho, -⟩, rfl⟩ := hs
    exact (tick_spec s answers).graphStep ho _
  | observe graph =>
    obtain ⟨o, s, hp, rfl⟩ := hs
    exact observe_graphRegister hp graph
  | startPoll answers =>
    obtain ⟨o, s, nodes, ⟨ho, -⟩, rfl⟩ := hs
    exact (startPoll_spec s nodes answers).graphStep ho _
  | _ => exact (Frame.of_spec hs trivial).graphStep _

/-- The outcomes of discovery a run records. -/
def World.graphNotes (w₀ : World) (es : List Event) : List (Note GraphSnapshot String Time) :=
  history World.step World.graphNote w₀ es

theorem graphRegister_honest {w₀ : World} {es : List Event} (hx₀ : w₀.extension = none)
    (hr : run World.step w₀ es = some w) :
    HonestMirror showsGraph (w₀.graphNotes es) w.now (graphRegister w) := by
  refine run_history (G := fun _ _ => True) (I := fun es w =>
    HonestMirror showsGraph (w₀.graphNotes es) w.now (graphRegister w)) ?_ ?_ (along_true es w₀) hr
  · intro es w e w' hr ih _ h
    rw [World.graphNotes, history_append hr, history_singleton]
    exact (ih.step showsGraph_of_eq (step_graphRegister h)).wait (step_now h)
  · exact ⟨nofun, by simp [graphRegister, hx₀], by simp [graphRegister, hx₀],
      by simp [graphRegister, hx₀]⟩

/-- In every run, `worker_status` is the last outcome recorded in the installation. The tables of a
graph that was never refreshed are empty. Otherwise every row bears the time of the last refresh,
when the snapshot was discovered that they hold, and every snapshot discovered since is the same. -/
theorem graph_status_honest {settings : Settings} {es : List Event} {ext : Extension}
    (hr : run World.step (.initial settings) es = some w) (hx : w.extension = some ext) :
    (ext.workerStatus.map fun status => (status.lastChecked, status.lastError))
        = (recorded ext.oid ((World.initial settings).graphNotes es)).getLast?.map
          (fun n => (n.1, errorOf n.2))
      ∧ (lastRefreshed ext = none → ext.nodes = [] ∧ ext.topics = [])
      ∧ ∀ t ∈ lastRefreshed ext, (∀ row ∈ ext.nodes, row.2 = t) ∧ (∀ row ∈ ext.topics, row.2 = t)
        ∧ (∃ status ∈ ext.workerStatus, t ≤ status.lastChecked ∧ status.lastChecked ≤ w.now)
        ∧ Streak ext.HoldsGraph
          (saved (recorded ext.oid ((World.initial settings).graphNotes es))) t := by
  have h := (graphRegister_honest rfl hr).honest ext.oid ext.graphRegister
    (by simp [graphRegister, hx])
  refine ⟨?_, fun hnone => ?_, fun t ht => ?_⟩
  · rw [← h.status]
    rcases hs : ext.workerStatus with _ | status <;> simp [Extension.graphRegister, hs]
  · have hd := h.blank hnone
    simpa [Extension.graphRegister] using hd
  · obtain ⟨hd, c, hc, hle⟩ := h.dated t ht
    obtain ⟨status, hs, rfl⟩ := Option.map_eq_some_iff.mp hc
    simp only [Extension.graphRegister, List.mem_append, List.mem_map] at hd
    refine ⟨fun row hrow => hd _ (.inl ⟨row, hrow, rfl⟩),
      fun row hrow => hd _ (.inr ⟨row, hrow, rfl⟩), ⟨status, hs, hle, h.past _ hc⟩, ?_⟩
    have hshows : (showsGraph · ext.graphRegister.rows) = ext.HoldsGraph := by
      funext v
      exact propext Prod.ext_iff
    exact hshows ▸ h.shown t ht

end

/-! ## The parameters -/

/-- The table of the parameters with its dates and its status. -/
def Extension.parameterRegister (ext : Extension) : Register (List Parameter) String Time where
  rows := ext.parameters.map Prod.fst
  dates := ext.parameters.map Prod.snd
  checked := ext.parameterStatus.map Status.lastChecked
  refreshed := ext.parameterStatus.bind Status.lastRefreshed
  error := ext.parameterStatus.bind Status.lastError

def parameterRegister (w : World) : Mirror (List Parameter) (Register (List Parameter) String Time)
    where
  table := w.extension.map fun ext => (ext.oid, ext.parameterRegister)
  next := w.nextOid
  held := w.worker.bind Observer.previousParameters
  seen := w.worker.bind Observer.parameterExtension

/-- The outcome of a poll that an event records, unless its transaction aborts. -/
def World.parameterNote [Rclrs] (w : World) (e : Event) :
    Option (Note (List Parameter) String Time) :=
  if w.Ends e then none else (w.polled e).map fun p => ⟨p.1, w.now, p.2⟩

abbrev ParameterRegisterStep (now : Time) :=
  @Register.Step (List Parameter) (List Parameter) String Time showsParameters sameParameters now

/-- What a parameter step is: it goes on with the poll, its transaction aborts, or it persists an
outcome. -/
inductive ParameterSpec [Rclrs] (w : World) (o : Observer) (e : Event) : World → Prop
  | idle (s : Session) (hd : w.polled e = none) : ParameterSpec w o e (w.resume o s)
  | abort : ParameterSpec w o e { w with worker := none }
  | persist (result : Except String (List Parameter)) (r : Option Extension × Option Oid)
    (s : Session) (hd : w.polled e = w.extension.map fun ext => (ext.oid, result))
    (h : PgRos2.persist w.extension o.pid w.now result o.previousParameters o.parameterExtension
      = some r) :
    ParameterSpec w o e ({ w with extension := r.1 }.resume
      { o with
        previousParameters := result.toOption.or o.previousParameters
        parameterExtension := r.2 } s)

section

variable [Rclrs] {w w' : World} {o : Observer} {s : Session}

theorem completePoll_persists {e : Event} {result : Except String (List Parameter)}
    (hd : w.polled e = w.extension.map fun ext => (ext.oid, result)) :
    ParameterSpec w o e (w.completePoll o s result) := by
  unfold World.completePoll
  split
  · exact .abort
  · rename_i extension persisted h
    rcases result with error | ps
    · exact .persist _ _ _ hd h
    · exact .persist _ _ _ hd h

theorem tick_persists (h : w.InPhase o s .poll) (answers : TickAnswers) :
    ParameterSpec w o (.tick answers) (w.tick o s answers) := by
  obtain ⟨ho, hs, hp⟩ := h
  unfold World.tick
  split
  · rename_i hpoll
    refine .idle _ ?_
    rcases hx : w.extension <;> simp [World.polled, ho, hs, hx, hp, hpoll]
  · rename_i poll hpoll
    split
    · rename_i poll' ht
      refine .idle _ ?_
      rcases hx : w.extension <;> simp [World.polled, ho, hs, hx, hp, hpoll, ht]
    · rename_i poll' snapshot ht
      refine completePoll_persists ?_
      rcases hx : w.extension <;> simp [World.polled, ho, hs, hx, hp, hpoll, ht]
    · rename_i error ht
      refine completePoll_persists ?_
      rcases hx : w.extension <;> simp [World.polled, ho, hs, hx, hp, hpoll, ht]

theorem startPoll_persists {nodes : List Name} (h : w.InPhase o s (.start nodes))
    (answers : StartAnswers) :
    ParameterSpec w o (.startPoll answers) (w.startPoll o s nodes answers) := by
  obtain ⟨ho, hs, hp⟩ := h
  unfold World.startPoll
  split
  · rename_i poll ht
    refine .idle _ ?_
    rcases hx : w.extension <;> simp [World.polled, ho, hs, hx, hp, ht]
  · rename_i error ht
    split
    · exact .abort
    · rename_i extension persisted hr
      refine .persist (.error error) _ _ ?_ hr
      rcases hx : w.extension <;> simp [World.polled, ho, hs, hx, hp, ht]

/-! ## A step is a step of the register -/

omit [Rclrs] in
theorem parameterTable_of_filled
    (h : w'.extension.map Extension.filled = w.extension.map Extension.filled) :
    (parameterRegister w').table = (parameterRegister w).table := by
  unfold parameterRegister
  rcases hx : w.extension with _ | ext
  · rw [hx, Option.map_none, Option.map_eq_none_iff] at h
    rw [h]
  · rw [hx] at h
    obtain ⟨ext', hx', heq⟩ := Option.map_eq_some_iff.mp h
    simp only [Extension.filled, Prod.mk.injEq] at heq
    obtain ⟨hoid, -, hparameters, hstatus⟩ := heq
    simp [hx', Extension.parameterRegister, hoid, hparameters, hstatus]

omit [Rclrs] in
theorem parameterRegister_quiet (hoid : w'.nextOid = w.nextOid)
    (ht : (parameterRegister w').table = (parameterRegister w).table)
    (hm : w'.worker = none ∨ w'.worker.map (fun o => (o.previousParameters, o.parameterExtension))
      = w.worker.map fun o => (o.previousParameters, o.parameterExtension)) (now : Time) :
    ParameterRegisterStep now (parameterRegister w) none (parameterRegister w') :=
  .quiet hoid ht (Mirror.memory_cases hm)

omit [Rclrs] in
theorem Frame.parameterStep (h : Frame w w') (now : Time) :
    ParameterRegisterStep now (parameterRegister w) none (parameterRegister w') :=
  parameterRegister_quiet h.nextOid (parameterTable_of_filled h.tables)
    (h.map_memory Prod.snd) now

/-- `persist` of a snapshot rewrites the table, or checks it. -/
theorem persist_ok_register {ext : Extension} {pid : ℕ} {now : Time} {ps : List Parameter}
    {previous : Option (List Parameter)} {oid : Option Oid} {r : Option Extension × Option Oid}
    (h : PgRos2.persist (some ext) pid now (.ok ps) previous oid = some r) :
    r.2 = some ext.oid ∧
      ((∃ rows, showsParameters ps rows
          ∧ r.1.map (fun ext => (ext.oid, ext.parameterRegister))
            = some (ext.oid, Register.rewrite rows (rows.map fun _ => now) now))
        ∨ (∃ ps', previous = some ps' ∧ sameParameters ps' ps ∧ oid = some ext.oid
          ∧ r.1.map (fun ext => (ext.oid, ext.parameterRegister))
            = some (ext.oid, ext.parameterRegister.check now none))) := by
  obtain ⟨rows, -, hrows, rfl⟩ | ⟨ps', -, hp, he, ho, rfl⟩ := persist_eq_some h
  · refine ⟨rfl, .inl ⟨rows, hrows, ?_⟩⟩
    simp [Extension.parameterRegister, Register.rewrite, upsertStatus, Function.comp_def]
  · exact ⟨rfl, .inr ⟨ps', hp, he, ho, rfl⟩⟩

omit [Rclrs] in
/-- The graph step leaves the parameters, or forgets them with the extension. -/
theorem observe_parameterRegister (h : w.InPhase o s .graph) (graph : Except String RosGraph)
    (now : Time) :
    ParameterRegisterStep now (parameterRegister w) none
      (parameterRegister (w.observe o s graph)) := by
  obtain ⟨ho, -, -⟩ := h
  by_cases hdue : w.Due s
  · rcases hx : w.extension with _ | ext
    · rw [World.observe_of_absent hdue hx]
      exact .forget _
    · rcases graph with error | graph
      · rw [World.observe_of_error hdue hx]
        refine parameterRegister_quiet ?_ ?_ (.inr ?_) now
        · rfl
        · simp only [parameterRegister, hx]
          rfl
        · rw [ho]
          rfl
      · obtain ⟨phase, -, hobs⟩ := World.observe_of_ok (o := o) hdue hx graph
        obtain ⟨nodes, topics, status, hpersist⟩ := persistSnapshot_frame ext o.pid w.now
          (.ok (GraphSnapshot.read o.name graph)) o.previous o.extensionOid
        rw [hobs]
        refine parameterRegister_quiet ?_ ?_ (.inr ?_) now
        · rfl
        · simp only [parameterRegister, World.resume, hx, hpersist]
          rfl
        · rw [ho]
          rfl
  · rw [World.observe_of_not_due hdue]
    exact (Frame.of_resume ho rfl o _ rfl).parameterStep _

/-- What a parameter step persists is recorded, and the worker remembers it. -/
theorem ParameterSpec.step (ho : w.worker = some o) {e : Event} (h : ParameterSpec w o e w') :
    ParameterRegisterStep w.now (parameterRegister w)
      (if w'.worker = none then none else (w.polled e).map fun p => ⟨p.1, w.now, p.2⟩)
      (parameterRegister w') := by
  cases h with
  | idle s hd =>
    rw [hd, Option.map_none, ite_self]
    exact (Frame.of_resume ho rfl o s rfl).parameterStep _
  | abort => exact .forget _
  | persist result r s hd h =>
    have hw : parameterRegister ({ w with extension := r.1 }.resume
        { o with
          previousParameters := result.toOption.or o.previousParameters
          parameterExtension := r.2 } s)
        = ⟨r.1.map fun ext => (ext.oid, ext.parameterRegister), w.nextOid,
          result.toOption.or o.previousParameters, r.2⟩ := rfl
    have hheld : (parameterRegister w).held = o.previousParameters := by
      simp [parameterRegister, ho]
    have hseen : (parameterRegister w).seen = o.parameterExtension := by
      simp [parameterRegister, ho]
    rw [hd, if_neg (by simp [World.resume]), hw]
    rcases hx : w.extension with _ | ext
    · rw [hx] at h
      cases h
      have htable : (parameterRegister w).table = none := by simp [parameterRegister, hx]
      have hmiss : ParameterRegisterStep w.now (parameterRegister w) none
          { parameterRegister w with
            held := result.toOption.or o.previousParameters, seen := none } := .miss _ _ htable
      simp only [htable] at hmiss
      exact hmiss
    · rw [hx] at h
      have htable : (parameterRegister w).table = some (ext.oid, ext.parameterRegister) := by
        simp [parameterRegister, hx]
      rcases result with error | ps
      · cases h
        have hfail : ParameterRegisterStep w.now (parameterRegister w)
            (some ⟨ext.oid, w.now, .error error⟩)
            { parameterRegister w with
              table := some (ext.oid, ext.parameterRegister.check w.now (some error))
              seen := some ext.oid } := .fail _ _ htable
        simp only [hheld] at hfail
        exact hfail
      · obtain ⟨hp, ⟨rows, hrows, hr⟩ | ⟨ps', hheld', hsame, hseen', hr⟩⟩ := persist_ok_register h
        · rw [hr, hp]
          exact .rewrite _ htable hrows (by simp)
        · rw [hheld'] at hheld
          rw [hseen'] at hseen
          have hkeep : ParameterRegisterStep w.now (parameterRegister w)
              (some ⟨ext.oid, w.now, .ok ps⟩)
              { parameterRegister w with
                table := some (ext.oid, ext.parameterRegister.check w.now none)
                held := some ps } := .keep _ htable hheld hseen hsame
          simp only [hseen] at hkeep
          rw [hr, hp]
          exact hkeep

end

section

variable [Rclrs] {w w' : World} {e : Event}

theorem parameterNote_eq (h : w.step e = some w') : w.parameterNote e
    = if w'.worker = none then none else (w.polled e).map fun p => ⟨p.1, w.now, p.2⟩ := by
  unfold World.parameterNote
  simp only [act_of_ends h]

theorem parameterNote_quiet {m m' : Mirror (List Parameter) (Register (List Parameter) String Time)}
    (hp : w.polled e = none) (hs : ParameterRegisterStep w.now m none m') :
    ParameterRegisterStep w.now m (w.parameterNote e) m' := by
  unfold World.parameterNote
  rw [hp, Option.map_none, ite_self]
  exact hs

/-- A step of the system is a step of the register, which records what the event persists. -/
theorem step_parameterRegister (h : w.step e = some w') :
    ParameterRegisterStep w.now (parameterRegister w) (w.parameterNote e)
      (parameterRegister w') := by
  have hs := step_spec h
  cases e with
  | createExtension =>
    obtain ⟨hx, rfl⟩ := hs
    exact parameterNote_quiet rfl (.create _ _ (by simp [parameterRegister, hx]))
  | dropExtension => exact hs ▸ parameterNote_quiet rfl (.drop _)
  | startWorker pid =>
    obtain ⟨-, rfl⟩ := hs
    exact parameterNote_quiet rfl (.forget _)
  | fail error =>
    obtain ⟨o, -, hw⟩ := hs
    have hr : parameterRegister w' = { parameterRegister w with held := none, seen := none } := by
      rcases hx : w.extension with _ | ext <;>
        simp [hw, parameterRegister, hx, persistSnapshot, Extension.parameterRegister]
    rw [hr]
    exact parameterNote_quiet rfl (.forget _)
  | tick answers =>
    rw [parameterNote_eq h]
    obtain ⟨o, s, hp, rfl⟩ := hs
    exact (tick_persists hp answers).step hp.1
  | observe graph =>
    obtain ⟨o, s, hp, rfl⟩ := hs
    exact parameterNote_quiet rfl (observe_parameterRegister hp graph _)
  | startPoll answers =>
    rw [parameterNote_eq h]
    obtain ⟨o, s, nodes, hp, rfl⟩ := hs
    exact (startPoll_persists hp answers).step hp.1
  | _ => exact parameterNote_quiet rfl ((Frame.of_spec hs trivial).parameterStep _)

/-- The outcomes of polls a run persists. -/
def World.parameterNotes (w₀ : World) (es : List Event) :
    List (Note (List Parameter) String Time) :=
  history World.step World.parameterNote w₀ es

theorem parameterRegister_honest {w₀ : World} {es : List Event} (hx₀ : w₀.extension = none)
    (hr : run World.step w₀ es = some w) :
    HonestMirror showsParameters (w₀.parameterNotes es) w.now (parameterRegister w) := by
  refine run_history (G := fun _ _ => True) (I := fun es w =>
    HonestMirror showsParameters (w₀.parameterNotes es) w.now (parameterRegister w)) ?_ ?_
    (along_true es w₀) hr
  · intro es w e w' hr ih _ h
    rw [World.parameterNotes, history_append hr, history_singleton]
    exact (ih.step showsParameters_of_same (step_parameterRegister h)).wait (step_now h)
  · exact ⟨nofun, by simp [parameterRegister, hx₀], by simp [parameterRegister, hx₀],
      by simp [parameterRegister, hx₀]⟩

/-- When the parameters were last rewritten. -/
def parametersRefreshed (ext : Extension) : Option Time :=
  ext.parameterStatus.bind Status.lastRefreshed

/-- In every run, `parameter_status` is the last outcome persisted in the installation. The table of
parameters that were never refreshed is empty. Otherwise every row bears the time of the last
refresh, when the poll ended that the rows are of, and every poll that ended well since has the same
rows. -/
theorem parameter_status_honest {settings : Settings} {es : List Event} {ext : Extension}
    (hr : run World.step (.initial settings) es = some w) (hx : w.extension = some ext) :
    (ext.parameterStatus.map fun status => (status.lastChecked, status.lastError))
        = (recorded ext.oid ((World.initial settings).parameterNotes es)).getLast?.map
          (fun n => (n.1, errorOf n.2))
      ∧ (parametersRefreshed ext = none → ext.parameters = [])
      ∧ ∀ t ∈ parametersRefreshed ext, (∀ row ∈ ext.parameters, row.2 = t)
        ∧ (∃ status ∈ ext.parameterStatus, t ≤ status.lastChecked ∧ status.lastChecked ≤ w.now)
        ∧ Streak ext.HoldsParameters
          (saved (recorded ext.oid ((World.initial settings).parameterNotes es))) t := by
  have h := (parameterRegister_honest rfl hr).honest ext.oid ext.parameterRegister
    (by simp [parameterRegister, hx])
  refine ⟨?_, fun hnone => ?_, fun t ht => ?_⟩
  · rw [← h.status]
    rcases hs : ext.parameterStatus with _ | status <;> simp [Extension.parameterRegister, hs]
  · exact List.map_eq_nil_iff.mp (h.blank hnone)
  · obtain ⟨hd, c, hc, hle⟩ := h.dated t ht
    obtain ⟨status, hs, rfl⟩ := Option.map_eq_some_iff.mp hc
    exact ⟨fun row hrow => hd _ (List.mem_map_of_mem hrow), ⟨status, hs, hle, h.past _ hc⟩,
      h.shown t ht⟩

end

section Witness

open Reference

/-- The graph that a worker saved is refreshed again only where it changes. -/
theorem graph_status_honest_talker : ∃ w ext,
    run World.step (.initial .default) (savesTalker ++ reinstall ++ toGraph .idle
      ++ [.observe (.ok talker)]) = some w
      ∧ w.extension = some ext ∧ lastRefreshed ext = some (seconds 1)
      ∧ (∀ row ∈ ext.nodes, row.2 = seconds 1)
      ∧ Streak ext.HoldsGraph (saved (recorded ext.oid ((World.initial .default).graphNotes
        (savesTalker ++ reinstall ++ toGraph .idle ++ [.observe (.ok talker)])))) (seconds 1) := by
  have h : ((run World.step (.initial .default) (savesTalker ++ reinstall ++ toGraph .idle
      ++ [.observe (.ok talker)])).any fun w => w.extension.any fun ext =>
        lastRefreshed ext = some (seconds 1)) = true := by decide +kernel
  simp only [Option.any_eq_true, decide_eq_true_eq] at h
  obtain ⟨w, hr, ext, hx, ht⟩ := h
  obtain ⟨-, -, hall⟩ := graph_status_honest hr hx
  obtain ⟨hnodes, -, -, hshown⟩ := hall _ ht
  exact ⟨w, ext, hr, hx, ht, hnodes, hshown⟩

theorem parameter_status_honest_rate : ∃ w ext,
    run World.step (.initial .default) (savesRate ++ pollsRate ++ [.tick .rate]) = some w
      ∧ w.extension = some ext ∧ ∃ t, parametersRefreshed ext = some t
        ∧ (∀ row ∈ ext.parameters, row.2 = t)
        ∧ Streak ext.HoldsParameters (saved (recorded ext.oid
          ((World.initial .default).parameterNotes
            (savesRate ++ pollsRate ++ [.tick .rate])))) t := by
  have h : ((run World.step (.initial .default) (savesRate ++ pollsRate ++ [.tick .rate])).any
      fun w => w.extension.any fun ext => (parametersRefreshed ext).isSome) = true := by
    decide +kernel
  simp only [Option.any_eq_true, Option.isSome_iff_exists] at h
  obtain ⟨w, hr, ext, hx, t, ht⟩ := h
  obtain ⟨-, -, hall⟩ := parameter_status_honest hr hx
  obtain ⟨hrows, -, hshown⟩ := hall t ht
  exact ⟨w, ext, hr, hx, t, ht, hrows, hshown⟩

end Witness

end PgRos2
