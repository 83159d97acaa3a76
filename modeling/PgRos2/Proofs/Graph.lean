import PgRos2.Proofs.Saved
import PgRos2.Reference

/-!
# The saved graph

The tables of the graph with `previous` and `extension_oid` are a mirror, and a step of the system
is a step of it (`step_graphMirror`). So the tables hold the last graph discovered in every run in
which discovery fails only while the worker holds no snapshot or has seen the installation
(`graph_saved`).
-/

namespace PgRos2

open Lib

/-- The outcome of discovery that an event persists, with the installation it persists it in. -/
def World.discovery [Bounds] (w : World) : Event → Option (Oid × Except String GraphSnapshot)
  | .observe graph => do
    let o ← w.worker
    let s ← o.session
    let ext ← w.extension
    match s.phase with
    | .graph =>
      if w.now < s.startup ∨ s.dirty = false then none
      else some (ext.oid, graph.map (GraphSnapshot.read o.name))
    | _ => none
  | _ => none

/-- The tables of the graph hold exactly a snapshot's rows. -/
def Extension.HoldsGraph (ext : Extension) (snapshot : GraphSnapshot) : Prop :=
  ext.nodes.map Prod.fst = snapshot.nodes ∧ ext.topics.map Prod.fst = snapshot.topics

instance (ext : Extension) (snapshot : GraphSnapshot) : Decidable (ext.HoldsGraph snapshot) :=
  inferInstanceAs (Decidable (_ ∧ _))

/-- The worker holds no snapshot, or the OID it remembers is that of the installation. -/
def World.TrustsGraph (w : World) : Prop :=
  ∀ o ∈ w.worker, o.previous = none ∨ o.extensionOid = w.extension.map Extension.oid

instance (w : World) : Decidable w.TrustsGraph :=
  inferInstanceAs (Decidable (∀ o ∈ w.worker, _))

/-- Discovery fails only where the worker trusts its snapshot. -/
def GraphGuard [Bounds] (w : World) (e : Event) : Prop :=
  ∀ p ∈ w.discovery e, p.2.isOk = false → w.TrustsGraph

instance [Bounds] (w : World) (e : Event) : Decidable (GraphGuard w e) :=
  inferInstanceAs (Decidable (∀ p ∈ w.discovery e, _))

/-- The tables of the graph and what the worker remembers of them. -/
def graphMirror (w : World) : Mirror GraphSnapshot (List Name × List Name) where
  table := w.extension.map Extension.graph
  next := w.nextOid
  held := w.worker.bind Observer.previous
  seen := w.worker.bind Observer.extensionOid

/-- The rows of a snapshot. -/
def showsGraph (v : GraphSnapshot) (r : List Name × List Name) : Prop := r = (v.nodes, v.topics)

theorem showsGraph_of_eq (v v' : GraphSnapshot) (r : List Name × List Name) (hv : v' = v)
    (hr : showsGraph v' r) : showsGraph v r := hv ▸ hr

abbrev GraphStep := Mirror.Step showsGraph Eq

theorem KeepsGraph.step {w w' : World} (h : KeepsGraph w w') :
    GraphStep (graphMirror w) .quiet (graphMirror w') :=
  .quiet h.nextOid h.tables (Mirror.memory_cases h.memory)

/-! ## A step of the system is a step of the mirror -/

section

variable {w : World} {o : Observer} {s : Session}

theorem PollStep.keepsGraph {w' : World} (ho : w.worker = some o) (h : PollStep w o s w') :
    KeepsGraph w w' := by
  obtain rfl | ⟨f, previousParameters, parameterExtension, phase, _, _, hf, -, rfl⟩ := h
  · exact (Frame.of_lose w).keepsGraph
  · refine .of_resume ho ?_ _ _ rfl rfl
    rw [Option.map_map]
    congr 1
    funext ext
    obtain ⟨parameters, parameterStatus, heq⟩ := hf ext
    rw [Function.comp, heq]
    rfl

/-- `persist_snapshot` of a failure leaves the tables of the graph. -/
theorem persistSnapshot_error_graph (ext : Option Extension) (pid : ℕ) (now : Time)
    (error : String) (previous : Option GraphSnapshot) (oid : Option Oid) :
    (persistSnapshot ext pid now (.error error) previous oid).1.map Extension.graph
      = ext.map Extension.graph := by
  rcases ext with _ | ext <;> rfl

/-- `persist_snapshot` of a snapshot leaves its rows, unless the worker takes them to be there. -/
theorem persistSnapshot_ok_graph (ext : Extension) (pid : ℕ) (now : Time) (v : GraphSnapshot)
    (previous : Option GraphSnapshot) (oid : Option Oid) :
    ((persistSnapshot (some ext) pid now (.ok v) previous oid).1.map Extension.graph
        = some (ext.oid, v.nodes, v.topics))
      ∨ (previous = some v ∧ oid = some ext.oid
        ∧ (persistSnapshot (some ext) pid now (.ok v) previous oid).1.map Extension.graph
          = some ext.graph) := by
  by_cases h : previous ≠ some v ∨ oid ≠ some ext.oid
  · left
    simp [persistSnapshot, h, Extension.graph, Function.comp_def]
  · right
    rw [not_or, not_not, not_not] at h
    refine ⟨h.1, h.2, ?_⟩
    simp [persistSnapshot, h, Extension.graph]

variable [Bounds]

theorem discovery_of_due (h : w.InPhase o s .graph) (hdue : w.Due s) {ext : Extension}
    (hx : w.extension = some ext) (graph : Except String RosGraph) :
    w.discovery (.observe graph) = some (ext.oid, graph.map (GraphSnapshot.read o.name)) := by
  obtain ⟨ho, hs, hp⟩ := h
  simp only [World.discovery, ho, hs, hx, hp, Option.bind_eq_bind, Option.bind_some]
  exact if_neg hdue

theorem discovery_of_not_due (h : w.InPhase o s .graph) (hdue : ¬ w.Due s)
    (graph : Except String RosGraph) : w.discovery (.observe graph) = none := by
  obtain ⟨ho, hs, hp⟩ := h
  rcases hx : w.extension with _ | ext
  · simp [World.discovery, ho, hx]
  · simp only [World.discovery, ho, hs, hx, hp, Option.bind_eq_bind, Option.bind_some]
    exact if_pos (not_not.mp hdue)

/-- The graph step persists what discovery returned. -/
theorem observe_graphStep (h : w.InPhase o s .graph) (graph : Except String RosGraph) :
    GraphStep (graphMirror w) (labelOf (w.discovery (.observe graph)))
      (graphMirror (w.observe o s graph)) := by
  obtain ⟨ho, hs, hp⟩ := id h
  by_cases hdue : w.Due s
  · rcases hx : w.extension with _ | ext
    · rw [World.observe_of_absent hdue hx]
      simp only [World.discovery, ho, hs, hx, Option.bind_eq_bind, Option.bind_some,
        Option.bind_none]
      exact .forget _
    · have htable : (graphMirror w).table = some (ext.oid, ext.graph.2) := by
        simp [graphMirror, hx, Extension.graph]
      rw [discovery_of_due h hdue hx]
      rcases graph with error | graph
      · rw [World.observe_of_error hdue hx]
        have hw : graphMirror ({ w with extension := (persistSnapshot (some ext) o.pid w.now
              (.error error) o.previous o.extensionOid).1 }.resume
            { o with extensionOid := some ext.oid }
            { s with dirty := false, phase := .decide, emptySince := none })
            = { graphMirror w with seen := some ext.oid } := by
          simp [graphMirror, World.resume, ho, hx, persistSnapshot_error_graph]
        exact hw ▸ .fail _ htable
      · obtain ⟨phase, -, hobs⟩ := World.observe_of_ok (o := o) hdue hx graph
        rw [hobs]
        have hw (r : Oid × List Name × List Name) (hr : (persistSnapshot (some ext) o.pid w.now
            (.ok (GraphSnapshot.read o.name graph)) o.previous o.extensionOid).1.map
              Extension.graph = some r) :
            graphMirror (w.observe o s (.ok graph)) = { graphMirror w with
              table := some r
              held := some (GraphSnapshot.read o.name graph)
              seen := some ext.oid } := by
          rw [hobs]
          simp [graphMirror, World.resume, hr]
        rw [← hobs]
        rcases persistSnapshot_ok_graph ext o.pid w.now (GraphSnapshot.read o.name graph)
          o.previous o.extensionOid with hr | ⟨hheld, hseen, hr⟩
        · exact hw _ hr ▸ .rewrite _ htable rfl
        · have hm : graphMirror (w.observe o s (.ok graph))
              = { graphMirror w with held := some (GraphSnapshot.read o.name graph) } := by
            rw [hw _ hr]
            simp [graphMirror, hx, ho, hseen]
          exact hm ▸ .keep _ htable (by simp [graphMirror, ho, hheld])
            (by simp [graphMirror, ho, hseen]) rfl
  · rw [discovery_of_not_due h hdue, World.observe_of_not_due hdue]
    exact (KeepsGraph.of_resume ho rfl o _ rfl rfl).step

end

section

variable [Rclrs] {w w' : World} {e : Event}

/-- A step of the system is a step of the mirror, a save where it persists a discovery. -/
theorem step_graphMirror (h : w.step e = some w') :
    GraphStep (graphMirror w) (labelOf (w.discovery e)) (graphMirror w') := by
  have hs := step_spec h
  cases e with
  | createExtension =>
    obtain ⟨hx, rfl⟩ := hs
    exact .create _ _ (by simp [graphMirror, hx])
  | dropExtension => exact hs ▸ .drop _
  | startWorker pid =>
    obtain ⟨-, rfl⟩ := hs
    exact .forget _
  | fail error =>
    obtain ⟨o, -, hw⟩ := hs
    have hk : KeepsGraph w w' :=
      ⟨by rw [hw], by rw [hw, persistSnapshot_error_graph], .inl (by rw [hw])⟩
    exact hk.step
  | tick answers =>
    obtain ⟨o, s, ⟨ho, -⟩, rfl⟩ := hs
    exact ((tick_spec s answers).keepsGraph ho).step
  | observe graph =>
    obtain ⟨o, s, hp, rfl⟩ := hs
    exact observe_graphStep hp graph
  | startPoll answers =>
    obtain ⟨o, s, nodes, ⟨ho, -⟩, rfl⟩ := hs
    exact ((startPoll_spec s nodes answers).keepsGraph ho).step
  | _ => exact (Frame.of_spec hs trivial).keepsGraph.step

omit [Rclrs] in
theorem trusts_graphMirror (h : w.TrustsGraph) : (graphMirror w).Trusts := by
  rcases ho : w.worker with _ | o
  · exact .inl (by simp [graphMirror, ho])
  · rcases h o ho with hp | hx
    · exact .inl (by simp [graphMirror, ho, hp])
    · refine .inr ?_
      simp [graphMirror, ho, hx, Extension.graph, Function.comp_def]

/-- The mirror is coherent in a run in which discovery fails only where the worker trusts its
snapshot. -/
theorem graphMirror_coherent {w₀ : World} {es : List Event} (h₀ : w₀.worker = none)
    (hoid : ∀ ext ∈ w₀.extension, ext.oid < w₀.nextOid) (hr : run World.step w₀ es = some w)
    (hg : Along World.step GraphGuard w₀ es) :
    (graphMirror w).Coherent showsGraph := by
  refine run_inv (I := fun w => (graphMirror w).Coherent showsGraph) ?_ hg hr ?_
  · intro w e w' hw hg h
    refine hw.step showsGraph_of_eq (step_graphMirror h) fun hl => ?_
    obtain ⟨q, hd, hq⟩ := labelOf_eq_failed hl
    exact trusts_graphMirror (hg q hd hq)
  · refine Mirror.coherent_of_none (fun i r hi => ?_) (by simp [graphMirror, h₀])
    obtain ⟨ext, hx, hi⟩ := Option.map_eq_some_iff.mp hi
    cases hi
    exact hoid ext hx

/-- After every iteration whose discovery was persisted, the tables hold exactly its snapshot, in
every run in which discovery fails only while the worker holds no snapshot or remembers the
installation. -/
theorem graph_saved {w₀ : World} {es : List Event} {oid : Oid} {v : GraphSnapshot}
    (h₀ : w₀.worker = none) (hoid : ∀ ext ∈ w₀.extension, ext.oid < w₀.nextOid)
    (hr : run World.step w₀ es = some w) (hg : Along World.step GraphGuard w₀ es)
    (hd : w.discovery e = some (oid, .ok v)) (h : w.step e = some w') :
    ∃ ext, w'.extension = some ext ∧ ext.HoldsGraph v := by
  have hs := step_graphMirror h
  rw [hd] at hs
  obtain ⟨i, r, ht, hv⟩ := hs.saved showsGraph_of_eq (graphMirror_coherent h₀ hoid hr hg)
  obtain ⟨ext, hx, hi⟩ := Option.map_eq_some_iff.mp ht
  cases hv
  exact ⟨ext, hx, congrArg (·.2.1) hi, congrArg (·.2.2) hi⟩

end

section Witness

open Reference

/-- A graph with one peer. -/
def talker : RosGraph := ⟨[("talker", "/")], []⟩

def StartAnswers.refused : StartAnswers := ⟨fun _ => .error "node not found", fun _ => .ok ()⟩

def reinstall : List Event := [.dropExtension, .createExtension, .graphChange]

/-- A worker that has saved a graph. -/
def savesTalker : List Event :=
  [.createExtension, .startWorker 1, .beginSession, .advance 1000000] ++ toGraph .idle
    ++ [.observe (.ok talker), .startPoll .refused, .decide]

/-- The worker sees the new installation while discovery fails, and takes it to hold the graph. -/
theorem graph_lost_after_reinstall : ∃ w w' ext,
    run World.step (.initial .default) (savesTalker ++ reinstall ++ toGraph .idle
        ++ [.observe (.error "timeout"), .decide, .graphChange] ++ toGraph .idle) = some w
      ∧ w.discovery (.observe (.ok talker)) = some (2, .ok ⟨[("talker", "/")], []⟩)
      ∧ w.step (.observe (.ok talker)) = some w'
      ∧ w'.extension = some ext ∧ ¬ ext.HoldsGraph ⟨[("talker", "/")], []⟩ := by
  have h : ((run World.step (.initial .default) (savesTalker ++ reinstall ++ toGraph .idle
      ++ [.observe (.error "timeout"), .decide, .graphChange] ++ toGraph .idle)).any fun w =>
    w.discovery (.observe (.ok talker)) = some (2, .ok ⟨[("talker", "/")], []⟩)
      && (w.step (.observe (.ok talker))).any fun w' => w'.extension.any fun ext =>
        ¬ ext.HoldsGraph ⟨[("talker", "/")], []⟩) = true := by decide +kernel
  simp only [Option.any_eq_true, Bool.and_eq_true, decide_eq_true_eq] at h
  obtain ⟨w, hr, hd, w', hw, ext, hx, hv⟩ := h
  exact ⟨w, w', ext, hr, hd, hw, hx, hv⟩

theorem graph_saved_after_reinstall : ∃ w w' ext,
    run World.step (.initial .default) (savesTalker ++ reinstall ++ toGraph .idle) = some w
      ∧ w.step (.observe (.ok talker)) = some w'
      ∧ w'.extension = some ext ∧ ext.HoldsGraph ⟨[("talker", "/")], []⟩ := by
  have h : ((run World.step (.initial .default)
      (savesTalker ++ reinstall ++ toGraph .idle)).any fun w =>
    w.discovery (.observe (.ok talker)) = some (2, .ok ⟨[("talker", "/")], []⟩)
      && (w.step (.observe (.ok talker))).isSome) = true := by decide +kernel
  have hg : Along World.step GraphGuard (.initial .default)
      (savesTalker ++ reinstall ++ toGraph .idle) := by
    decide +kernel
  simp only [Option.any_eq_true, Bool.and_eq_true, decide_eq_true_eq, Option.isSome_iff_exists] at h
  obtain ⟨w, hr, hd, w', hw⟩ := h
  obtain ⟨ext, hx, hv⟩ := graph_saved rfl (fun _ hx => by cases hx) hr hg hd hw
  exact ⟨w, w', ext, hr, hw, hx, hv⟩

end Witness

end PgRos2
