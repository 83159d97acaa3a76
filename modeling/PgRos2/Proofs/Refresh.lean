import PgRos2.Lib.Sorted
import PgRos2.Proofs.Flush
import PgRos2.Proofs.Graph

/-!
# When the graph is rewritten

One process of the worker, over one installation. What it remembers is the last graph it
discovered, whatever failed since and however often its session was rebuilt (`Recalls`), so an
iteration rewrites the tables of the graph exactly when the graph is another one than that, up to
the order ROS lists it in (`graph_rewritten_iff`).
-/

namespace PgRos2

open Lib

/-- The nodes of a graph but the observer. -/
def RosGraph.nodes (graph : RosGraph) (observer : Name) : List Name :=
  graph.nodeNames.filter fun info => info.1 ≠ observer.1 ∨ info.2 ≠ observer.2

/-- Every topic with each of its types. -/
def RosGraph.topics (graph : RosGraph) : List Name :=
  graph.topicNamesAndTypes.flatMap fun topic => topic.2.map fun kind => (topic.1, kind)

/-- Two graphs are one, whatever order they are listed in. -/
def SameGraph (observer : Name) (graph graph' : RosGraph) : Prop :=
  (graph.nodes observer).Perm (graph'.nodes observer) ∧ graph.topics.Perm graph'.topics

theorem read_eq_iff {observer : Name} {graph graph' : RosGraph} :
    GraphSnapshot.read observer graph = GraphSnapshot.read observer graph'
      ↔ SameGraph observer graph graph' := by
  unfold GraphSnapshot.read SameGraph
  rw [GraphSnapshot.mk.injEq, insertionSort_eq_iff, insertionSort_eq_iff]
  rfl

/-- The rows of the graph and the status, with the installation they belong to. -/
def Extension.graphStatus (ext : Extension) :
    Oid × List (Name × Time) × List (Name × Time) × Option Status :=
  (ext.oid, ext.nodes, ext.topics, ext.workerStatus)

/-- `changed` of `persist_snapshot`. -/
def snapshotChanged (value : GraphSnapshot) (previous : Option GraphSnapshot)
    (previousExtension : Option Oid) (oid : Oid) : Bool :=
  previous ≠ some value ∨ previousExtension ≠ some oid

/-- The rows are deleted and inserted anew, or left as they are. -/
def Extension.withGraph (ext : Extension) (changed : Bool) (now : Time) (value : GraphSnapshot) :
    Extension :=
  if changed then
    { ext with
      nodes := value.nodes.map fun name => (name, now)
      topics := value.topics.map fun name => (name, now) }
  else ext

theorem persistSnapshot_ok (ext : Extension) (pid : ℕ) (now : Time) (value : GraphSnapshot)
    (previous : Option GraphSnapshot) (previousExtension : Option Oid) :
    persistSnapshot (some ext) pid now (.ok value) previous previousExtension
      = (some { ext.withGraph
            (snapshotChanged value previous previousExtension ext.oid) now value with
          workerStatus := some (upsertStatus ext.workerStatus pid now
            (snapshotChanged value previous previousExtension ext.oid) none) }, some ext.oid) := by
  unfold persistSnapshot Extension.withGraph snapshotChanged
  simp only []
  split <;> rfl

/-! ## Steps that leave the graph alone -/

/-- What the worker remembers of the graph. -/
def World.memory (w : World) : Option (ℕ × Option GraphSnapshot × Option Oid) :=
  w.worker.map fun o => (o.pid, o.previous, o.extensionOid)

/-- The graph, its status and what the worker remembers stay, unless the worker ends. -/
structure KeepsStatus (w w' : World) : Prop where
  tables : w'.extension.map Extension.graphStatus = w.extension.map Extension.graphStatus
  memory : w'.worker = none ∨ w'.memory = w.memory

section Steps

variable {w w' : World} {o : Observer} {s : Session}

theorem Frame.keepsStatus (h : Frame w w') : KeepsStatus w w' where
  tables := h.map_tables fun t => (t.1, t.2.1)
  memory := h.map_memory fun m => m.1

theorem KeepsStatus.of_resume (ho : w.worker = some o) {ext : Option Extension}
    (hext : ext.map Extension.graphStatus = w.extension.map Extension.graphStatus) (o' : Observer)
    (s : Session) (hpid : o'.pid = o.pid) (hp : o'.previous = o.previous)
    (hx : o'.extensionOid = o.extensionOid) :
    KeepsStatus w ({ w with extension := ext }.resume o' s) :=
  ⟨hext, .inr (by simp [World.memory, World.resume, ho, hpid, hp, hx])⟩

theorem KeepsStatus.of_onExtension (w : World) {f : Extension → Extension}
    (hf : ∀ ext, (f ext).graphStatus = ext.graphStatus) : KeepsStatus w (w.onExtension f) :=
  ⟨by simp [World.onExtension, Function.comp_def, hf], .inr rfl⟩

theorem PollStep.keepsStatus (ho : w.worker = some o) (h : PollStep w o s w') :
    KeepsStatus w w' := by
  obtain rfl | ⟨f, previousParameters, parameterExtension, phase, _, _, hf, -, rfl⟩ := h
  · exact (Frame.of_lose w).keepsStatus
  · have hk : KeepsStatus w (w.onExtension f) := .of_onExtension w fun ext => by
      obtain ⟨parameters, parameterStatus, heq⟩ := hf ext
      rw [heq]
      rfl
    exact .of_resume ho hk.tables _ _ rfl rfl rfl

variable [Rclrs]

/-- The events of one process over one installation. -/
def OneProcess : Event → Prop
  | .dropExtension | .startWorker _ => False
  | _ => True

/-- Only the graph step and the end of a failing observer touch them. -/
theorem step_keepsStatus {e : Event} (hg : OneProcess e) (hx : w.extension.isSome)
    (h : w.step e = some w') (he : match e with
      | .observe _ | .fail _ => False
      | _ => True) : KeepsStatus w w' := by
  have h := step_spec h
  cases e with
  | createExtension =>
    rw [h.1] at hx
    cases hx
  | dropExtension => exact hg.elim
  | startWorker pid => exact hg.elim
  | fail error => exact he.elim
  | observe graph => exact he.elim
  | tick answers =>
    obtain ⟨o, s, ⟨ho, -⟩, rfl⟩ := h
    exact (tick_spec s answers).keepsStatus ho
  | startPoll answers =>
    obtain ⟨o, s, nodes, ⟨ho, -⟩, rfl⟩ := h
    exact (startPoll_spec s nodes answers).keepsStatus ho
  | _ => exact (Frame.of_spec h trivial).keepsStatus

end Steps

/-! ## What the worker remembers -/

/-- The outcome of discovery that an iteration records, and the error the worker ends with. -/
def World.graphOutcome [Bounds] (w : World) : Event → Option (Except String RosGraph)
  | .observe graph => (w.discovery (.observe graph)).map fun _ => graph
  | .fail error => some (.error error)
  | _ => none

/-- Whether an event deletes the rows of the graph and inserts them anew. -/
def World.rewrites [Bounds] (w : World) (e : Event) : Bool :=
  match w.discovery e, w.worker with
  | some (oid, .ok value), some o => snapshotChanged value o.previous o.extensionOid oid
  | _, _ => false

/-- When it does. -/
def World.rewriteTime [Bounds] (w : World) (e : Event) : Option Time :=
  if w.rewrites e then some w.now else none

/-- The last graph that was discovered. -/
def lastOk (outcomes : List (Except String RosGraph)) : Option RosGraph :=
  (outcomes.filterMap Except.toOption).getLast?

theorem lastOk_append_ok (outcomes : List (Except String RosGraph)) (graph : RosGraph) :
    lastOk (outcomes ++ [.ok graph]) = some graph := by
  simp [lastOk, Except.toOption]

theorem lastOk_append_error (outcomes : List (Except String RosGraph)) (error : String) :
    lastOk (outcomes ++ [.error error]) = lastOk outcomes := by
  simp [lastOk, Except.toOption]

/-- When the graph was last rewritten. -/
def lastRefreshed (ext : Extension) : Option Time := ext.workerStatus.bind Status.lastRefreshed

/-- The rows an event leaves: those of the graph it discovered, at its time, if it rewrites them,
and the old ones otherwise. -/
def Rewritten [Bounds] (w : World) (e : Event) (ext ext' : Extension) : Prop :=
  if w.rewrites e then ∃ oid value, w.discovery e = some (oid, .ok value)
    ∧ ext'.nodes = value.nodes.map (·, w.now) ∧ ext'.topics = value.topics.map (·, w.now)
  else ext'.nodes = ext.nodes ∧ ext'.topics = ext.topics

/-- The status and the memory of a process after the outcomes it had and the rewrites it made. -/
structure Recalls (pid : ℕ) (ext₀ : Extension) (outcomes : List (Except String RosGraph))
    (times : List Time) (w : World) (ext : Extension) : Prop where
  installed : w.extension = some ext
  oid : ext.oid = ext₀.oid
  refreshed : lastRefreshed ext = times.getLast?.or (lastRefreshed ext₀)
  error : ∀ outcome ∈ outcomes.getLast?, ∃ status ∈ ext.workerStatus,
    status.lastError = none ↔ outcome.isOk = true
  pid : ∀ o ∈ w.worker, o.pid = pid
  previous : ∀ o ∈ w.worker, o.previous = (lastOk outcomes).map (GraphSnapshot.read o.name)
  seen : ∀ o ∈ w.worker, (lastOk outcomes).isSome → o.extensionOid = some ext₀.oid

/-- An event leaves the rows it should, and one more outcome and rewrite if it had them. -/
def Recalls.Next [Bounds] (pid : ℕ) (ext₀ : Extension) (outcomes : List (Except String RosGraph))
    (times : List Time) (w : World) (e : Event) (ext : Extension) (w' : World) : Prop :=
  ∃ ext', Recalls pid ext₀ (outcomes ++ (w.graphOutcome e).toList)
      (times ++ (w.rewriteTime e).toList) w' ext'
    ∧ Rewritten w e ext ext'

theorem of_discovery [Bounds] {w : World} {graph : Except String RosGraph} {ext : Extension}
    {oid : Oid} {result : Except String GraphSnapshot} (hx : w.extension = some ext)
    (hd : w.discovery (.observe graph) = some (oid, result)) :
    ∃ o, w.worker = some o ∧ oid = ext.oid ∧ result = graph.map (GraphSnapshot.read o.name) := by
  simp only [World.discovery, hx, Option.bind_eq_bind, Option.bind_some,
    Option.bind_eq_some_iff] at hd
  obtain ⟨o, ho, s, -, hd⟩ := hd
  split at hd
  · split at hd
    · cases hd
    · cases hd
      exact ⟨o, ho, rfl, rfl⟩
  · cases hd

namespace Recalls

variable {pid : ℕ} {ext₀ ext : Extension} {outcomes : List (Except String RosGraph)}
  {times : List Time} {w w' : World}

theorem keep (h : Recalls pid ext₀ outcomes times w ext) (hk : KeepsStatus w w') :
    ∃ ext', Recalls pid ext₀ outcomes times w' ext' ∧ ext'.graphStatus = ext.graphStatus := by
  have htables := hk.tables
  rw [h.installed] at htables
  obtain ⟨ext', hx, heq⟩ := Option.map_eq_some_iff.1 htables
  simp only [Extension.graphStatus, Prod.mk.injEq] at heq
  obtain ⟨hoid, hnodes, htopics, hstatus⟩ := heq
  have hmem : ∀ o' ∈ w'.worker, ∃ o ∈ w.worker, o.pid = o'.pid ∧ o.previous = o'.previous
      ∧ o.extensionOid = o'.extensionOid := by
    intro o' ho'
    rcases hk.memory with hlost | hm
    · rw [hlost] at ho'
      cases ho'
    · unfold World.memory at hm
      rw [Option.mem_def.1 ho'] at hm
      obtain ⟨o, ho, heq⟩ := Option.map_eq_some_iff.1 hm.symm
      simp only [Prod.mk.injEq] at heq
      exact ⟨o, ho, heq⟩
  refine ⟨ext', ⟨hx, by rw [hoid, h.oid], by rw [← h.refreshed, lastRefreshed, hstatus]; rfl,
    by rw [hstatus]; exact h.error, ?_, ?_, ?_⟩, by simp [Extension.graphStatus, *]⟩
  · intro o' ho'
    obtain ⟨o, ho, hpid, -⟩ := hmem o' ho'
    rw [← hpid, h.pid o ho]
  · intro o' ho'
    obtain ⟨o, ho, hpid, hp, -⟩ := hmem o' ho'
    have hname : o'.name = o.name := by simp [Observer.name, hpid]
    rw [← hp, h.previous o ho, hname]
  · intro o' ho' hsome
    obtain ⟨o, ho, -, -, hseen⟩ := hmem o' ho'
    rw [← hseen, h.seen o ho hsome]

theorem of_quiet [Bounds] {e : Event} (h : Recalls pid ext₀ outcomes times w ext)
    (hk : KeepsStatus w w') (ho : w.graphOutcome e = none) (hd : w.discovery e = none) :
    Recalls.Next pid ext₀ outcomes times w e ext w' := by
  obtain ⟨ext', h', heq⟩ := h.keep hk
  have hw : w.rewrites e = false := by simp [World.rewrites, hd]
  simp only [Extension.graphStatus, Prod.mk.injEq] at heq
  unfold Next
  refine ⟨ext', ?_, ?_⟩
  · simpa [World.rewriteTime, hw, ho] using h'
  · simp [Rewritten, hw, heq]

/-- `persist_snapshot` of a failure keeps the rows and when they were refreshed. -/
theorem of_error [Bounds] {e : Event} {error : String} {worker : Option Observer}
    (h : Recalls pid ext₀ outcomes times w ext) (hp : ∀ o' ∈ worker, ∃ o ∈ w.worker,
      o'.pid = o.pid ∧ o'.previous = o.previous ∧ o'.extensionOid = some ext₀.oid)
    {o : Observer} (previous : Option GraphSnapshot) (oid : Option Oid)
    (hw : w'.extension = (persistSnapshot w.extension o.pid w.now (.error error) previous oid).1)
    (hworker : w'.worker = worker) (ho : w.graphOutcome e = some (.error error))
    (hr : w.rewrites e = false) :
    Recalls.Next pid ext₀ outcomes times w e ext w' := by
  rw [h.installed] at hw
  unfold Next
  refine ⟨_, ⟨hw, h.oid, ?_, ?_, ?_, ?_, ?_⟩, ?_⟩
  · simpa [World.rewriteTime, hr, lastRefreshed, upsertStatus] using h.refreshed
  · rw [ho]
    simp [upsertStatus, Except.isOk, Except.toBool]
  · intro o' ho'
    rw [hworker] at ho'
    obtain ⟨o, ho, hpid, -⟩ := hp o' ho'
    rw [hpid, h.pid o ho]
  · intro o' ho'
    rw [hworker] at ho'
    obtain ⟨o, hmem, hpid, hprev, -⟩ := hp o' ho'
    have hname : o'.name = o.name := by simp [Observer.name, hpid]
    rw [ho, Option.toList_some, lastOk_append_error, hprev, h.previous o hmem, hname]
  · intro o' ho' _
    rw [hworker] at ho'
    obtain ⟨o, hmem, -, -, hseen⟩ := hp o' ho'
    exact hseen
  · simp [Rewritten, hr]

/-- The rows are rewritten unless the last graph discovered was this one. -/
theorem snapshotChanged_iff (h : Recalls pid ext₀ outcomes times w ext) {o : Observer}
    (ho : w.worker = some o) (graph : RosGraph) :
    snapshotChanged (GraphSnapshot.read o.name graph) o.previous o.extensionOid ext.oid = true
      ↔ ∀ graph' ∈ lastOk outcomes, ¬ SameGraph o.name graph' graph := by
  unfold snapshotChanged
  rw [decide_eq_true_eq, h.previous o ho]
  rcases hl : lastOk outcomes with _ | graph'
  · simp
  · have hseen := h.seen o ho (by rw [hl]; rfl)
    rw [hseen, h.oid]
    simp [read_eq_iff]

/-- `persist_snapshot` of a graph. -/
theorem of_ok [Bounds] {e : Event} (h : Recalls pid ext₀ outcomes times w ext) {o : Observer}
    (ho : w.worker = some o) (graph : RosGraph) (hd : w.discovery e
      = some (ext.oid, .ok (GraphSnapshot.read o.name graph)))
    (hw : w'.extension = (persistSnapshot w.extension o.pid w.now
      (.ok (GraphSnapshot.read o.name graph)) o.previous o.extensionOid).1)
    (hm : ∀ o' ∈ w'.worker, o'.pid = o.pid ∧ o'.previous = some (GraphSnapshot.read o.name graph)
      ∧ o'.extensionOid = some ext.oid)
    (hout : w.graphOutcome e = some (.ok graph)) :
    Recalls.Next pid ext₀ outcomes times w e ext w' := by
  have hr : w.rewrites e = snapshotChanged (GraphSnapshot.read o.name graph) o.previous
      o.extensionOid ext.oid := by
    simp only [World.rewrites, hd, ho]
  rw [h.installed, persistSnapshot_ok, ← hr] at hw
  unfold Next
  refine ⟨_, ⟨hw, ?_, ?_, ?_, ?_, ?_, ?_⟩, ?_⟩
  · cases w.rewrites e <;> exact h.oid
  · have hrefreshed := h.refreshed
    unfold lastRefreshed at hrefreshed ⊢
    rcases hb : w.rewrites e
    · simpa [World.rewriteTime, hb, upsertStatus] using hrefreshed
    · simp [World.rewriteTime, hb, upsertStatus]
  · rw [hout]
    simp [upsertStatus, Except.isOk, Except.toBool]
  · intro o' ho'
    rw [(hm o' ho').1, h.pid o ho]
  · intro o' ho'
    obtain ⟨hpid, hprev, -⟩ := hm o' ho'
    have hname : o'.name = o.name := by simp [Observer.name, hpid]
    rw [hout, Option.toList_some, lastOk_append_ok, hprev, hname]
    rfl
  · intro o' ho' _
    rw [(hm o' ho').2.2, h.oid]
  · unfold Rewritten
    rcases hb : w.rewrites e
    · exact ⟨rfl, rfl⟩
    · exact ⟨_, _, hd, rfl, rfl⟩

/-- An event rewrites the rows exactly when it discovers a graph that the last one was not. -/
theorem rewrites_iff [Bounds] (h : Recalls pid ext₀ outcomes times w ext) (e : Event)
    {name : Name} (hname : ∀ o ∈ w.worker, o.name = name) :
    w.rewrites e = true ↔ ∃ graph, w.graphOutcome e = some (.ok graph)
      ∧ ∀ graph' ∈ lastOk outcomes, ¬ SameGraph name graph' graph := by
  cases e with
  | observe graph =>
    rcases hd : w.discovery (.observe graph) with _ | ⟨oid, result⟩
    · simp [World.rewrites, World.graphOutcome, hd]
    · obtain ⟨o, ho, rfl, rfl⟩ := of_discovery h.installed hd
      have hout : w.graphOutcome (.observe graph) = some graph := by simp [World.graphOutcome, hd]
      rcases graph with error | graph
      · simp [World.rewrites, hd, hout, Except.map]
      · have hr : w.rewrites (.observe (.ok graph)) = snapshotChanged
            (GraphSnapshot.read o.name graph) o.previous o.extensionOid ext.oid := by
          simp [World.rewrites, hd, ho, Except.map]
        rw [hr, h.snapshotChanged_iff ho, hout, hname o ho]
        simp
  | _ => simp [World.rewrites, World.graphOutcome, World.discovery]

variable [Rclrs] {e : Event}

/-- What a step leaves of the rows, the status and the memory. -/
theorem step (h : Recalls pid ext₀ outcomes times w ext) (hg : OneProcess e)
    (hs : w.step e = some w') :
    Recalls.Next pid ext₀ outcomes times w e ext w' := by
  have hx : w.extension.isSome := by rw [h.installed]; rfl
  cases e with
  | observe graph =>
    obtain ⟨o, s, hp, rfl⟩ := step_spec hs
    have ho := hp.1
    by_cases hdue : w.Due s
    · have hd := discovery_of_due hp hdue h.installed graph
      have hout : w.graphOutcome (.observe graph) = some graph := by simp [World.graphOutcome, hd]
      rcases graph with error | graph
      · have hobs := World.observe_of_error (o := o) hdue h.installed error
        refine of_error h (fun o' ho' => ?_) o.previous o.extensionOid (o := o) ?_ rfl hout ?_
        · rw [hobs] at ho'
          cases ho'
          exact ⟨o, ho, rfl, rfl, by rw [← h.oid]⟩
        · rw [hobs, h.installed]
          rfl
        · simp only [World.rewrites, hd]
          rfl
      · obtain ⟨phase, -, hobs⟩ := World.observe_of_ok (o := o) hdue h.installed graph
        refine of_ok h ho graph hd ?_ (fun o' ho' => ?_) hout
        · rw [hobs, h.installed]
          rfl
        · rw [hobs] at ho'
          cases ho'
          exact ⟨rfl, rfl, rfl⟩
    · have hd := discovery_of_not_due hp hdue graph
      refine of_quiet h ?_ (by simp [World.graphOutcome, hd]) hd
      rw [World.observe_of_not_due hdue]
      exact .of_resume ho rfl _ _ rfl rfl rfl
  | fail error =>
    obtain ⟨o, -, rfl⟩ := step_spec hs
    refine of_error h ?_ none none rfl rfl rfl rfl
    intro o' ho'
    cases ho'
  | _ => exact of_quiet h (step_keepsStatus hg hx hs trivial) rfl rfl

end Recalls

/-! ## Runs -/

section Run

variable [Rclrs] {w₀ w w' : World} {es : List Event} {e : Event} {pid : ℕ} {settings : Settings}
  {ext₀ : Extension}

theorem run_recalls (h₀ : w₀.worker = some (.start pid settings)) (hx : w₀.extension = some ext₀)
    (hg : ∀ e ∈ es, OneProcess e) (hr : run World.step w₀ es = some w) :
    ∃ ext, Recalls pid ext₀ (history World.step World.graphOutcome w₀ es)
      (history World.step World.rewriteTime w₀ es) w ext := by
  refine run_history (G := fun _ e => OneProcess e)
    (I := fun es w => ∃ ext, Recalls pid ext₀ (history World.step World.graphOutcome w₀ es)
      (history World.step World.rewriteTime w₀ es) w ext) ?_ ?_ (along_of_forall hg) hr
  · rintro es w e w' hr ⟨ext, h⟩ hg hs
    obtain ⟨ext', h', -⟩ := h.step hg hs
    rw [history_append hr, history_append hr, history_singleton, history_singleton]
    exact ⟨ext', h'⟩
  · refine ⟨ext₀, hx, rfl, rfl, by simp [history], ?_, ?_, ?_⟩
    · intro o ho
      cases h₀.symm.trans ho
      rfl
    · intro o ho
      cases h₀.symm.trans ho
      rfl
    · simp [history, lastOk]

/-- In every run of one process over one installation, an event rewrites the tables of the graph
exactly when it discovers a graph that the last one discovered was not; the refresh time is that of
the latest rewrite, and an error is recorded exactly when the latest outcome was one. -/
theorem graph_rewritten_iff (h₀ : w₀.worker = some (.start pid settings))
    (hx : w₀.extension = some ext₀) (hg : ∀ e' ∈ es ++ [e], OneProcess e')
    (hr : run World.step w₀ es = some w) (h : w.step e = some w') :
    ∃ ext ext', w.extension = some ext ∧ w'.extension = some ext' ∧ ext'.oid = ext₀.oid
      ∧ (w.rewrites e = true ↔ ∃ graph, w.graphOutcome e = some (.ok graph)
        ∧ ∀ graph' ∈ lastOk (history World.step World.graphOutcome w₀ es),
          ¬ SameGraph (Observer.start pid settings).name graph' graph)
      ∧ Rewritten w e ext ext'
      ∧ lastRefreshed ext'
        = (history World.step World.rewriteTime w₀ (es ++ [e])).getLast?.or (lastRefreshed ext₀)
      ∧ ∀ outcome ∈ (history World.step World.graphOutcome w₀ (es ++ [e])).getLast?,
        ∃ status ∈ ext'.workerStatus, status.lastError = none ↔ outcome.isOk = true := by
  obtain ⟨ext, hw⟩ := run_recalls h₀ hx (fun e' he' => hg e' (List.mem_append_left _ he')) hr
  obtain ⟨ext', hw', hrows⟩ := hw.step (hg e (by simp)) h
  rw [history_append hr, history_append hr, history_singleton, history_singleton]
  have hname : ∀ o ∈ w.worker, o.name = (Observer.start pid settings).name := by
    intro o ho
    simp [Observer.name, Observer.start, hw.pid o ho]
  exact ⟨ext, ext', hw.installed, hw'.installed, hw'.oid, hw.rewrites_iff e hname, hrows,
    hw'.refreshed, hw'.error⟩

end Run

section Witness

open Reference

def peers (names : List Name) : Except String RosGraph := .ok ⟨names, []⟩

/-- A session that saves a graph and then fails to read it. -/
def savesPeers : List Event :=
  [.beginSession, .advance 1000000] ++ toGraph .idle
    ++ [.observe (peers [("talker", "/"), ("listener", "/")]), .startPoll .refused, .decide,
      .graphChange, .advance 1000] ++ toGraph .idle
    ++ [.observe (.error "timeout"), .decide, .graphChange] ++ toGraph .idle

theorem graph_kept_reordered : ∃ w₀ w w' ext', run World.step (.initial .default)
      [.createExtension, .startWorker 1] = some w₀
    ∧ run World.step w₀ savesPeers = some w
    ∧ w.step (.observe (peers [("listener", "/"), ("talker", "/")])) = some w'
    ∧ w.rewrites (.observe (peers [("listener", "/"), ("talker", "/")])) = false
    ∧ w'.extension = some ext' ∧ lastRefreshed ext' = some 1000000 := by
  have h : ((run World.step (.initial .default) [.createExtension, .startWorker 1]).any fun w₀ =>
      decide (history World.step World.rewriteTime w₀ (savesPeers
        ++ [.observe (peers [("listener", "/"), ("talker", "/")])]) = [1000000])
      && (run World.step w₀ savesPeers).any fun w =>
        decide (w.rewrites (.observe (peers [("listener", "/"), ("talker", "/")])) = false)
        && (w.step (.observe (peers [("listener", "/"), ("talker", "/")]))).isSome) = true := by
    decide +kernel
  simp only [Option.any_eq_true, Bool.and_eq_true, decide_eq_true_eq, Option.isSome_iff_exists] at h
  obtain ⟨w₀, hr₀, htimes, w, hr, hw, w', hs⟩ := h
  have hg : ∀ e ∈ savesPeers ++ [.observe (peers [("listener", "/"), ("talker", "/")])],
      OneProcess e := by
    simp [savesPeers, toGraph, OneProcess]
  have hworker : w₀.worker = some (.start 1 .default) ∧ w₀.extension = some (.new 1) := by
    cases hr₀
    exact ⟨rfl, rfl⟩
  obtain ⟨ext, ext', -, hx, -, -, -, hrefreshed, -⟩ :=
    graph_rewritten_iff hworker.1 hworker.2 hg hr hs
  rw [htimes] at hrefreshed
  exact ⟨w₀, w, w', ext', hr₀, hr, hs, hw, hx, hrefreshed⟩

end Witness

end PgRos2
