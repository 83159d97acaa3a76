import PgRos2.Proofs.Cached
import PgRos2.Proofs.Graph

/-!
# Blindness

A session ends when the graph it reads stays empty for the rebuild interval. Its timers change at
an observation and nowhere else (`step_timers`). A graph that holds nothing but the worker itself
reads as empty as long as the worker has no live subscription (`read_of_alone`), and then an
isolated session is rebuilt (`isolated_session_rebuilt`); a live subscription's own topic reads as a
peer.
-/

namespace PgRos2

open Lib

/-- What the blindness test goes by. -/
structure Timers where
  reinitAfter : Option Time
  emptySince : Option Time
  sawGraph : Bool

/-- What an observation finds, or that the session of the observations that follow begins. -/
inductive Sight where
  | begun
  | absent
  | failed
  | empty
  | peers
  deriving DecidableEq

/-- The timers after an observation. -/
def Timers.seen (τ : Timers) (now : Time) (snapshot : GraphSnapshot) : Timers :=
  if snapshot.nodes.isEmpty ∧ snapshot.topics.isEmpty then
    { τ with emptySince := some (τ.emptySince.getD now) }
  else { τ with emptySince := none, sawGraph := true }

/-- The timers after a step, by what it shows. -/
def Timers.sighted (τ : Timers) : Option (Time × Sight) → Timers
  | none => τ
  | some (_, .begun) => { τ with emptySince := none, sawGraph := false }
  | some (_, .absent) | some (_, .failed) => { τ with emptySince := none }
  | some (now, .empty) => { τ with emptySince := some (τ.emptySince.getD now) }
  | some (_, .peers) => { τ with emptySince := none, sawGraph := true }

namespace World

/-- The timers of the running session. -/
def timers (w : World) : Option Timers := do
  let o ← w.worker
  let s ← o.session
  return ⟨o.reinitAfter, s.emptySince, s.sawGraph⟩

/-- How the session ended: whether it ever saw a peer. -/
def outcome (w : World) : Option Bool := do
  let o ← w.worker
  let s ← o.session
  match s.phase with
  | .over sawGraph => some sawGraph
  | _ => none

/-- An observation, with the worker that makes it. -/
def observed [Bounds] (w : World) : Event → Option (Observer × Except String RosGraph)
  | .observe graph => do
    let o ← w.worker
    let s ← o.session
    match s.phase with
    | .graph => if w.now < s.startup ∨ s.dirty = false then none else some (o, graph)
    | _ => none
  | _ => none

/-- What the worker finds of a graph. -/
def sight (w : World) (o : Observer) (graph : Except String RosGraph) : Sight :=
  match w.extension, graph with
  | none, _ => .absent
  | some _, .error _ => .failed
  | some _, .ok graph =>
    let snapshot := GraphSnapshot.read o.name graph
    if snapshot.nodes.isEmpty ∧ snapshot.topics.isEmpty then .empty else .peers

/-- What a step shows of the sessions. -/
def sighting [Bounds] (w : World) : Event → Option (Time × Sight)
  | .beginSession => some (w.now, .begun)
  | e => (w.observed e).map fun p => (w.now, w.sight p.1 p.2)

end World

/-- The graph holds nothing but the worker's node and the topics of its live subscriptions. -/
def Observer.Alone (o : Observer) (graph : RosGraph) : Prop :=
  (∀ info ∈ graph.nodeNames, info = o.name)
    ∧ ∀ topic ∈ graph.topicNamesAndTypes, topic.1 ∈ o.subscriptions

instance (o : Observer) (graph : RosGraph) : Decidable (o.Alone graph) :=
  inferInstanceAs (Decidable (_ ∧ _))

/-- Without live subscriptions, nothing but the worker reads as an empty graph. -/
theorem read_of_alone {o : Observer} {graph : RosGraph} (h : o.Alone graph)
    (hlive : o.subscriptions.entries = []) :
    GraphSnapshot.read o.name graph = ⟨[], []⟩ := by
  have hnodes : graph.nodeNames.filter (fun info =>
      info.1 ≠ o.name.1 ∨ info.2 ≠ o.name.2) = [] := by
    rw [List.filter_eq_nil_iff]
    intro info hinfo
    simp [h.1 info hinfo]
  have htopics : graph.topicNamesAndTypes = [] := by
    rw [List.eq_nil_iff_forall_not_mem]
    intro topic htopic
    obtain ⟨live, hl⟩ := Table.mem_iff_lookup.mp (h.2 topic htopic)
    rw [Table.entries_eq_nil_iff.mp hlive] at hl
    cases hl
  rw [GraphSnapshot.read, hnodes, htopics]
  rfl

section

variable {w w' : World} {o : Observer} {s : Session}

theorem timers_resume (w : World) (o : Observer) (s : Session) :
    (w.resume o s).timers = some ⟨o.reinitAfter, s.emptySince, s.sawGraph⟩ := rfl

theorem timers_of_session (ho : w.worker = some o) (hs : o.session = some s) :
    w.timers = some ⟨o.reinitAfter, s.emptySince, s.sawGraph⟩ := by
  simp [World.timers, ho, hs]

/-- The worker goes on with the same timers. -/
theorem timers_same (ho : w.worker = some o) (hs : o.session = some s) (ext : Option Extension)
    (o' : Observer) (s' : Session) (hr : o'.reinitAfter = o.reinitAfter)
    (he : s'.emptySince = s.emptySince) (hsaw : s'.sawGraph = s.sawGraph) :
    ({ w with extension := ext }.resume o' s').timers = w.timers := by
  rw [timers_resume, timers_of_session ho hs, hr, he, hsaw]

theorem PollStep.timers (ho : w.worker = some o) (hs : o.session = some s)
    (h : PollStep w o s w') (hw : w'.worker ≠ none) : w'.timers = w.timers := by
  obtain rfl | ⟨f, previousParameters, parameterExtension, phase, _, _, -, -, rfl⟩ := h
  · exact absurd rfl hw
  · exact timers_same ho hs _ _ _ rfl rfl rfl

theorem SubscriptionStep.timers (ho : w.worker = some o) (hs : o.session = some s)
    (h : SubscriptionStep w o s w') : w'.timers = w.timers := by
  obtain ⟨ext, subscriptions, phase, dirty, _, _, -, -, rfl⟩ := h
  exact timers_same ho hs _ _ _ rfl rfl rfl

theorem observed_of_due [Bounds] (h : w.InPhase o s .graph) (hdue : w.Due s)
    (graph : Except String RosGraph) : w.observed (.observe graph) = some (o, graph) := by
  obtain ⟨ho, hs, hp⟩ := h
  simp only [World.observed, ho, hs, hp, Option.bind_eq_bind, Option.bind_some]
  exact if_neg hdue

theorem sighting_observe [Bounds] (w : World) (graph : Except String RosGraph) :
    w.sighting (.observe graph)
      = (w.observed (.observe graph)).map fun p => (w.now, w.sight p.1 p.2) := rfl

theorem sight_absent (hx : w.extension = none) (o : Observer) (graph : Except String RosGraph) :
    w.sight o graph = .absent := by
  unfold World.sight
  rw [hx]

theorem sight_failed (hx : w.extension.isSome) (o : Observer) (error : String) :
    w.sight o (.error error) = .failed := by
  obtain ⟨ext, hx⟩ := Option.isSome_iff_exists.mp hx
  unfold World.sight
  rw [hx]

theorem Timers.sighted_ok {g : RosGraph} (hx : w.extension.isSome) (τ : Timers) :
    τ.sighted (some (w.now, w.sight o (.ok g))) = τ.seen w.now (GraphSnapshot.read o.name g) := by
  obtain ⟨ext, hx⟩ := Option.isSome_iff_exists.mp hx
  simp only [World.sight, hx, Timers.seen]
  split <;> rfl

/-- An observation sets the timers by what it finds. -/
theorem observe_timers [Bounds] (h : w.InPhase o s .graph) (graph : Except String RosGraph) :
    (w.observe o s graph).timers = w.timers.map (·.sighted (w.sighting (.observe graph))) := by
  obtain ⟨ho, hs, hp⟩ := id h
  have hτ := timers_of_session ho hs
  rw [sighting_observe]
  by_cases hdue : w.Due s
  · rw [observed_of_due h hdue, Option.map_some, hτ, Option.map_some]
    rcases hx : w.extension with _ | ext
    · rw [World.observe_of_absent hdue hx, sight_absent hx]
      rfl
    · rcases graph with error | graph
      · rw [World.observe_of_error hdue hx, sight_failed (by rw [hx]; rfl)]
        rfl
      · obtain ⟨phase, -, hobs⟩ := World.observe_of_ok (o := o) hdue hx graph
        rw [hobs, timers_resume, Timers.sighted_ok (by rw [hx]; rfl)]
        simp only [Session.seen, Timers.seen]
        split <;> rfl
  · have hnone : w.observed (.observe graph) = none := by
      simp only [World.observed, ho, hs, hp, Option.bind_eq_bind, Option.bind_some]
      exact if_pos (not_not.mp hdue)
    rw [hnone, World.observe_of_not_due hdue, hτ]
    rfl

variable [Rclrs]

theorem alive_of_act {e : Event} (h : w.step e = some w') (hl : (w.act e).loses = false)
    (he : w.Ends e → w.act e = .lose) : w'.worker ≠ none := by
  intro hgone
  rw [he ((act_of_ends h).mpr hgone)] at hl
  cases hl

/-- A step that shows nothing keeps the timers. -/
theorem step_sighted {e : Event} (h : w.step e = some w') (hl : (w.act e).loses = false) :
    w'.timers = w.timers.map (·.sighted (w.sighting e)) := by
  have hs := step_spec h
  have hquiet (ht : w'.timers = w.timers) (hn : w.sighting e = none) :
      w'.timers = w.timers.map (·.sighted (w.sighting e)) := by
    rw [ht, hn]
    exact Option.map_id'.symm
  cases e with
  | createExtension =>
    obtain ⟨-, rfl⟩ := hs
    exact hquiet rfl rfl
  | startWorker pid =>
    obtain ⟨hw, rfl⟩ := hs
    refine hquiet ?_ rfl
    simp [World.timers, hw, Observer.start]
  | crash => cases hl
  | abort => cases hl
  | fail error => cases hl
  | beginSession => cases hl
  | terminate => cases hl
  | flush =>
    obtain ⟨o, s, now, ⟨ho, hs, -⟩, hw⟩ := hs
    have halive := alive_of_act h hl fun hends => if_pos hends
    subst hw
    obtain hlost | hstep := flush_spec (w := w) (o := o) (s := s) now
    · exact absurd (by rw [hlost]) halive
    · exact hquiet (hstep.timers ho hs) rfl
  | tick answers =>
    obtain ⟨o, s, ⟨ho, hs, -⟩, hw⟩ := hs
    have halive := alive_of_act h hl fun hends => if_pos hends
    subst hw
    exact hquiet ((tick_spec s answers).timers ho hs halive) rfl
  | observe graph =>
    obtain ⟨o, s, hp, rfl⟩ := hs
    exact observe_timers hp graph
  | startPoll answers =>
    obtain ⟨o, s, nodes, ⟨ho, hs, -⟩, hw⟩ := hs
    have halive := alive_of_act h hl fun hends => if_pos hends
    subst hw
    exact hquiet ((startPoll_spec s nodes answers).timers ho hs halive) rfl
  | message _ _ _ | graphChange | spun | readDesired _ | writeBack | decide =>
    obtain ⟨o, s, ho, hs, hstep⟩ := SubscriptionStep.of_spec hs trivial
    exact hquiet (hstep.timers ho hs) rfl
  | _ =>
    subst hs
    exact hquiet rfl rfl

/-- While the session lasts, its timers change at an observation only. -/
theorem step_timers {e : Event} (h : w.step e = some w') (hl : (w.act e).loses = false) :
    (w.observed e = none → w'.timers = w.timers)
      ∧ ∀ o g, w.observed e = some (o, .ok g) → w.extension.isSome →
        w'.timers = w.timers.map (·.seen w.now (GraphSnapshot.read o.name g)) := by
  have ht := step_sighted h hl
  have hsight : w.sighting e = (w.observed e).map fun p => (w.now, w.sight p.1 p.2) := by
    cases e with
    | beginSession => cases hl
    | _ => rfl
  rw [hsight] at ht
  refine ⟨fun ho => ?_, fun o g ho hx => ?_⟩
  · rw [ht, ho]
    exact Option.map_id'
  · rw [ht, ho, Option.map_some]
    exact congrArg (Option.map · w.timers) (funext (Timers.sighted_ok hx))

/-- A topic in the graph, the worker's own or not, stops the timer and counts as a peer. -/
theorem listed_topic_resets {e : Event} {o : Observer} {graph : RosGraph}
    (h : w.step e = some w') (hl : (w.act e).loses = false)
    (ho : w.observed e = some (o, .ok graph)) (hx : w.extension.isSome) {topic : String}
    {kinds : List String} (ht : (topic, kinds) ∈ graph.topicNamesAndTypes) (hk : kinds ≠ []) :
    w'.timers = w.timers.map fun τ => { τ with emptySince := none, sawGraph := true } := by
  have hne : (GraphSnapshot.read o.name graph).topics ≠ [] := by
    obtain ⟨kind, hkind⟩ := List.exists_mem_of_ne_nil kinds hk
    refine List.ne_nil_of_mem (a := (topic, kind)) ?_
    rw [GraphSnapshot.read, (List.perm_insertionSort _ _).mem_iff, List.mem_flatMap]
    exact ⟨(topic, kinds), ht, List.mem_map_of_mem hkind⟩
  have hseen (τ : Timers) : τ.seen w.now (GraphSnapshot.read o.name graph)
      = { τ with emptySince := none, sawGraph := true } := by
    rw [Timers.seen, if_neg fun hempty => hne (List.isEmpty_iff.mp hempty.2)]
  simpa only [hseen] using (step_timers h hl).2 o graph ho hx

/-! ## Runs of one session -/

/-- The session lasts, and every observation reads the graph with the extension installed. -/
def Healthy (w : World) (e : Event) : Prop :=
  (w.act e).loses = false ∧ ∀ p ∈ w.observed e, w.extension.isSome ∧ p.2.isOk = true

/-- What an observation reads is nothing but the worker. -/
def Isolated (w : World) (e : Event) : Prop :=
  ∀ p ∈ w.observed e, ∀ graph ∈ p.2.toOption, p.1.Alone graph

/-- An observation is made without live subscriptions. -/
def Unsubscribed (w : World) (e : Event) : Prop :=
  ∀ p ∈ w.observed e, p.1.subscriptions.entries = []

instance (w : World) (e : Event) : Decidable (Healthy w e) :=
  inferInstanceAs (Decidable (_ ∧ ∀ p ∈ w.observed e, _ ∧ _))

instance (w : World) (e : Event) : Decidable (Isolated w e) :=
  inferInstanceAs (Decidable (∀ p ∈ w.observed e, ∀ graph ∈ p.2.toOption, _))

instance (w : World) (e : Event) : Decidable (Unsubscribed w e) :=
  inferInstanceAs (Decidable (∀ p ∈ w.observed e, _))

/-- A step of a healthy session observes nothing, or reads a graph. -/
theorem healthy_timers {e : Event} (h : w.step e = some w') (hh : Healthy w e) :
    (w.observed e = none ∧ w'.timers = w.timers)
      ∨ ∃ o graph, w.observed e = some (o, .ok graph)
        ∧ w'.timers = w.timers.map (·.seen w.now (GraphSnapshot.read o.name graph)) := by
  obtain ⟨hquiet, hseen⟩ := step_timers h hh.1
  rcases ho : w.observed e with _ | ⟨o, error | graph⟩
  · exact .inl ⟨rfl, hquiet ho⟩
  · have hok := (hh.2 _ ho).2
    cases hok
  · exact .inr ⟨o, graph, rfl, hseen o graph ho (hh.2 _ ho).1⟩

/-- Alone and without live subscriptions, an observation starts the timer unless it runs. -/
theorem isolated_timers {e : Event} (h : w.step e = some w') (hh : Healthy w e)
    (hi : Isolated w e) (hu : Unsubscribed w e) :
    (w.observed e = none ∧ w'.timers = w.timers)
      ∨ ((w.observed e).isSome ∧ w'.timers = w.timers.map fun τ =>
        { τ with emptySince := some (τ.emptySince.getD w.now) }) := by
  rcases healthy_timers h hh with hq | ⟨o, graph, ho, ht⟩
  · exact .inl hq
  · refine .inr ⟨by simp [ho], ?_⟩
    rw [ht, read_of_alone (hi _ ho graph rfl) (hu _ ho)]
    rfl

/-- A timer that runs in a healthy session was started in the past. -/
theorem run_timing {r : Option Time} {es : List Event} (hr : run World.step w es = some w')
    (hh : Along World.step Healthy w es)
    (h : ∃ τ, w.timers = some τ ∧ τ.reinitAfter = r ∧ ∀ since ∈ τ.emptySince, since ≤ w.now) :
    ∃ τ, w'.timers = some τ ∧ τ.reinitAfter = r ∧ ∀ since ∈ τ.emptySince, since ≤ w'.now := by
  refine run_inv (I := fun w => ∃ τ, w.timers = some τ ∧ τ.reinitAfter = r
    ∧ ∀ since ∈ τ.emptySince, since ≤ w.now) ?_ hh hr h
  rintro w e w' ⟨τ, hτ, hr, hsince⟩ hh h
  have hnow := step_now h
  rcases healthy_timers h hh with ⟨-, ht⟩ | ⟨o, graph, -, ht⟩
  · exact ⟨τ, ht.trans hτ, hr, fun since hs => (hsince since hs).trans hnow⟩
  · rw [hτ, Option.map_some] at ht
    refine ⟨_, ht, ?_, fun since hs => ?_⟩
    · rw [← hr, Timers.seen]
      split <;> rfl
    · rw [Timers.seen] at hs
      split at hs
      · cases hs
        rcases hτ' : τ.emptySince with _ | since
        · exact hnow
        · exact (hsince since hτ').trans hnow
      · cases hs

/-- A timer that runs while the session is isolated keeps running. -/
theorem run_blind {r : Option Time} {since : Time} {es : List Event}
    (hr : run World.step w es = some w') (hh : Along World.step Healthy w es)
    (hi : Along World.step Isolated w es) (hu : Along World.step Unsubscribed w es)
    (h : ∃ τ, w.timers = some τ ∧ τ.reinitAfter = r ∧ τ.emptySince = some since) :
    ∃ τ, w'.timers = some τ ∧ τ.reinitAfter = r ∧ τ.emptySince = some since := by
  refine run_inv (I := fun w => ∃ τ, w.timers = some τ ∧ τ.reinitAfter = r
    ∧ τ.emptySince = some since) ?_ (hh.and (hi.and hu)) hr h
  rintro w e w' ⟨τ, hτ, hr, hsince⟩ ⟨hh, hi, hu⟩ h
  rcases isolated_timers h hh hi hu with ⟨-, ht⟩ | ⟨-, ht⟩
  · exact ⟨τ, ht.trans hτ, hr, hsince⟩
  · rw [hτ, Option.map_some] at ht
    exact ⟨_, ht, hr, by rw [hsince, Option.getD_some]⟩

/-- A session that was isolated from its start has seen nobody. -/
theorem run_unseen {es : List Event} (hr : run World.step w es = some w')
    (hh : Along World.step Healthy w es) (hi : Along World.step Isolated w es)
    (hu : Along World.step Unsubscribed w es)
    (h : ∃ τ, w.timers = some τ ∧ τ.sawGraph = false) :
    ∃ τ, w'.timers = some τ ∧ τ.sawGraph = false := by
  refine run_inv (I := fun w => ∃ τ, w.timers = some τ ∧ τ.sawGraph = false) ?_
    (hh.and (hi.and hu)) hr h
  rintro w e w' ⟨τ, hτ, hsaw⟩ ⟨hh, hi, hu⟩ h
  rcases isolated_timers h hh hi hu with ⟨-, ht⟩ | ⟨-, ht⟩
  · exact ⟨τ, ht.trans hτ, hsaw⟩
  · rw [hτ, Option.map_some] at ht
    exact ⟨_, ht, hsaw⟩

/-- The end of an iteration goes by the timers. -/
theorem decide_outcome (h : w.step .decide = some w') {τ : Timers} (hτ : w.timers = some τ) :
    w'.outcome = τ.emptySince.bind fun since => τ.reinitAfter.bind fun threshold =>
      if threshold ≤ w.now - since then some τ.sawGraph else none := by
  obtain ⟨o, s, ⟨ho, hs, -⟩, rfl⟩ := step_spec h
  rw [timers_of_session ho hs] at hτ
  cases hτ
  simp only [World.outcome, World.decide, World.resume, Option.bind_eq_bind, Option.bind_some]
  rcases s.emptySince with _ | since
  · rfl
  · rcases o.reinitAfter with _ | threshold
    · rfl
    · by_cases hle : threshold ≤ w.now - since <;> simp [hle]

omit [Rclrs] in
theorem elapsed_of_late {since start now T : ℤ} (h : since ≤ start) (hlate : start + T ≤ now) :
    T ≤ now - since := by
  omega

omit [Rclrs] in
theorem not_elapsed_of_early {start now T : ℤ} (h : now < start + T) : ¬ T ≤ now - start := by
  omega

/-- The rebuild interval of the running session. -/
def World.reinitAfter (w : World) : Option Time := w.worker.bind Observer.reinitAfter

theorem beginSession_timers (h : w.step .beginSession = some w') :
    w'.timers = some ⟨w'.reinitAfter, none, false⟩ := by
  obtain ⟨o, reinitAfter, -, rfl⟩ := step_spec h
  rfl

/-- A healthy session with the rebuild interval `T`, isolated from an observation on, is over by the
end of the first iteration that is as late as `T` after it, and not before where its timer did not
run yet; and where it was isolated from its start, the outcome is that it saw nobody: as long as
every observation is made without live subscriptions. -/
theorem isolated_session_rebuilt {w w₀ w₁ w₂ w₃ : World} {es₁ es₂ : List Event} {T : Time}
    {graph : RosGraph} (hb : w.step .beginSession = some w₀)
    (hT : w₀.reinitAfter = some T) (hr₁ : run World.step w₀ es₁ = some w₁)
    (ho : (w₁.observed (.observe (.ok graph))).isSome)
    (hr₂ : run World.step w₁ (.observe (.ok graph) :: es₂) = some w₂)
    (hh : Along World.step Healthy w₀ (es₁ ++ .observe (.ok graph) :: es₂))
    (hi : Along World.step Isolated w₁ (.observe (.ok graph) :: es₂))
    (hu : Along World.step Unsubscribed w₁ (.observe (.ok graph) :: es₂))
    (h : w₂.step .decide = some w₃) :
    (w₁.now + T ≤ w₂.now → w₃.outcome.isSome)
      ∧ (w₁.timers.any (fun τ => τ.emptySince.isNone) → w₂.now < w₁.now + T → w₃.outcome = none)
      ∧ (Along World.step Isolated w₀ es₁ → Along World.step Unsubscribed w₀ es₁ →
        ∀ sawGraph ∈ w₃.outcome, sawGraph = false) := by
  have hstart := beginSession_timers hb
  have hh₂ := hh.append hr₁
  obtain ⟨τ₁, hτ₁, hT₁, hpast⟩ := run_timing hr₁ hh.left ⟨_, hstart, hT, nofun⟩
  obtain ⟨m, hm, hr₂'⟩ := run_cons_eq_some.mp hr₂
  have htimer : m.timers = some { τ₁ with emptySince := some (τ₁.emptySince.getD w₁.now) } := by
    rcases isolated_timers hm hh₂.1 hi.1 hu.1 with ⟨hnone, -⟩ | ⟨-, ht⟩
    · rw [hnone] at ho
      cases ho
    · rw [ht, hτ₁, Option.map_some]
  obtain ⟨τ₂, hτ₂, hT₂, hsince⟩ := run_blind hr₂' (hh₂.2 m hm) (hi.2 m hm) (hu.2 m hm)
    ⟨_, htimer, hT₁, rfl⟩
  have hout := decide_outcome h hτ₂
  rw [hsince, hT₂, Option.bind_some, Option.bind_some] at hout
  refine ⟨fun hlate => ?_, fun hidle hearly => ?_, fun hi₁ hu₁ sawGraph hsaw => ?_⟩
  · have hle : τ₁.emptySince.getD w₁.now ≤ w₁.now := by
      rcases he : τ₁.emptySince with _ | since
      · exact le_rfl
      · exact hpast since he
    have hover : T ≤ w₂.now - τ₁.emptySince.getD w₁.now := elapsed_of_late hle hlate
    rw [hout, if_pos hover]
    rfl
  · rw [hτ₁, Option.any_some, Option.isNone_iff_eq_none] at hidle
    rw [hidle, Option.getD_none] at hout
    have hearly : ¬ T ≤ w₂.now - w₁.now := not_elapsed_of_early hearly
    rw [hout, if_neg hearly]
  · have hall := run_append_eq_some.mpr ⟨w₁, hr₁, hr₂⟩
    obtain ⟨τ, hτ, hfalse⟩ := run_unseen hall hh (hi₁.join hr₁ hi) (hu₁.join hr₁ hu)
      ⟨_, hstart, rfl⟩
    rw [hτ₂] at hτ
    cases hτ
    rw [hout] at hsaw
    split at hsaw
    · cases hsaw
      exact hfalse
    · cases hsaw

end

section Witness

open Reference

/-- The graph of an isolated worker without subscriptions, and with one to a topic. -/
def aloneGraph : RosGraph := ⟨[("pg_ros2_worker_1", "/")], []⟩

def chatGraph : RosGraph := ⟨[("pg_ros2_worker_1", "/")], [("/chat", ["std_msgs/msg/String"])]⟩

/-- Half a minute after an observation, the session observes again. -/
def halfMinute (graph : RosGraph) : List Event :=
  [.startPoll .refused, .decide, .advance 30000000, .graphChange] ++ toGraph .idle
    ++ [.observe (.ok graph)]

/-- A worker that is about to subscribe to a topic. -/
def isolatedChat : List Event :=
  [.createExtension, .insert "/chat" (some "std_msgs/msg/String") 0 none, .startWorker 1]

/-- The iteration in which the worker subscribes. -/
def subscribesChat : List Event :=
  [.advance 1000000, .spun, .flush, .readDesired (.ok .granted), .writeBack, .tick .idle]

/-- The worker's own topic keeps an isolated session from being rebuilt. -/
theorem subscribed_session_not_rebuilt : ∃ w w₀ w₁ w₂ w₃,
    run World.step (.initial .default) isolatedChat = some w
      ∧ w.step .beginSession = some w₀ ∧ w₀.reinitAfter = some (seconds 30)
      ∧ run World.step w₀ subscribesChat = some w₁
      ∧ (w₁.observed (.observe (.ok chatGraph))).isSome
      ∧ run World.step w₁ (.observe (.ok chatGraph) :: halfMinute chatGraph) = some w₂
      ∧ Along World.step Healthy w₀
        (subscribesChat ++ .observe (.ok chatGraph) :: halfMinute chatGraph)
      ∧ Along World.step Isolated w₁ (.observe (.ok chatGraph) :: halfMinute chatGraph)
      ∧ w₂.step .decide = some w₃ ∧ w₁.now + seconds 30 ≤ w₂.now ∧ w₃.outcome = none := by
  have h : ((run World.step (.initial .default) isolatedChat).any fun w =>
      (w.step .beginSession).any fun w₀ => (run World.step w₀ subscribesChat).any fun w₁ =>
        (run World.step w₁ (.observe (.ok chatGraph) :: halfMinute chatGraph)).any fun w₂ =>
          (w₂.step .decide).any fun w₃ => decide (w₀.reinitAfter = some (seconds 30)
            ∧ (w₁.observed (.observe (.ok chatGraph))).isSome
            ∧ Along World.step Healthy w₀
              (subscribesChat ++ .observe (.ok chatGraph) :: halfMinute chatGraph)
            ∧ Along World.step Isolated w₁ (.observe (.ok chatGraph) :: halfMinute chatGraph)
            ∧ w₁.now + seconds 30 ≤ w₂.now ∧ w₃.outcome = none)) = true := by
    decide +kernel
  simp only [Option.any_eq_true, decide_eq_true_eq] at h
  obtain ⟨w, hr, w₀, hb, w₁, hr₁, w₂, hr₂, w₃, hd, hT, ho, hh, hi, hle, hout⟩ := h
  exact ⟨w, w₀, w₁, w₂, w₃, hr, hb, hT, hr₁, ho, hr₂, hh, hi, hd, hle, hout⟩

theorem alone_session_rebuilt : ∃ w₀ w₁ w₂ w₃,
    run World.step w₀ (.advance 1000000 :: toGraph .idle) = some w₁
      ∧ run World.step w₁ (.observe (.ok aloneGraph) :: halfMinute aloneGraph) = some w₂
      ∧ w₂.step .decide = some w₃ ∧ w₃.outcome = some false := by
  have h : ((run World.step (.initial .default) isolatedChat).any fun w =>
      (w.step .beginSession).any fun w₀ =>
        (run World.step w₀ (.advance 1000000 :: toGraph .idle)).any fun w₁ =>
          (run World.step w₁ (.observe (.ok aloneGraph) :: halfMinute aloneGraph)).any fun w₂ =>
            (w₂.step .decide).any fun w₃ => decide (w₀.reinitAfter = some (seconds 30)
              ∧ (w₁.observed (.observe (.ok aloneGraph))).isSome
              ∧ Along World.step Healthy w₀ (.advance 1000000 :: toGraph .idle
                ++ .observe (.ok aloneGraph) :: halfMinute aloneGraph)
              ∧ Along World.step Isolated w₁
                (.observe (.ok aloneGraph) :: halfMinute aloneGraph)
              ∧ Along World.step Unsubscribed w₁
                (.observe (.ok aloneGraph) :: halfMinute aloneGraph)
              ∧ Along World.step Isolated w₀ (.advance 1000000 :: toGraph .idle)
              ∧ Along World.step Unsubscribed w₀ (.advance 1000000 :: toGraph .idle)
              ∧ w₁.now + seconds 30 ≤ w₂.now)) = true := by
    decide +kernel
  simp only [Option.any_eq_true, decide_eq_true_eq] at h
  obtain ⟨w, -, w₀, hb, w₁, hr₁, w₂, hr₂, w₃, hd, hT, ho, hh, hi, hu, hi₀, hu₀, hle⟩ := h
  obtain ⟨hover, -, hsaw⟩ := isolated_session_rebuilt hb hT hr₁ ho hr₂ hh hi hu hd
  obtain ⟨sawGraph, hout⟩ := Option.isSome_iff_exists.mp (hover hle)
  have hfalse := hsaw hi₀ hu₀ sawGraph hout
  exact ⟨w₀, w₁, w₂, w₃, hr₁, hr₂, hd, hfalse ▸ hout⟩

end Witness

end PgRos2
